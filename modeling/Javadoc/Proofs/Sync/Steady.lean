import Javadoc.Proofs.Sync.Lifecycle
import Javadoc.Proofs.Sync.Registry

/-! Synchronizers that hold the same observe the same. Once the changes of a file were written, every
synchronizer that starts from nothing or holds the descriptions of the file leaves it as it is and
holds the same afterwards. -/
namespace Javadoc.Synchronizer

open Java

/-- Synchronizers that hold the same descriptions and follow the same type, however the path of it
is spelled. -/
structure Alike (s t : Synchronizer) : Prop where
  snapshot : s.snapshot = t.snapshot
  tracked : ∀ c : Container, s.tracked?.any c.same = t.tracked?.any c.same

namespace Alike

theorem refl (s : Synchronizer) : s.Alike s := ⟨rfl, fun _ => rfl⟩

private theorem symm {s t : Synchronizer} (h : s.Alike t) : t.Alike s :=
  ⟨h.snapshot.symm, fun c => (h.tracked c).symm⟩

private theorem trans {s t u : Synchronizer} (h : s.Alike t) (h' : t.Alike u) : s.Alike u :=
  ⟨h.snapshot.trans h'.snapshot, fun c => (h.tracked c).trans (h'.tracked c)⟩

theorem getD {a b : Option Synchronizer} (h : Option.Rel Alike a b) :
    (a.getD {}).Alike (b.getD {}) := by
  cases h with
  | some h => exact h
  | none => exact refl _

variable {s t : Synchronizer} (h : s.Alike t)
include h

private theorem observe (file : SourceFile) :
    (s.observe file).1 = (t.observe file).1 ∧ (s.observe file).2.Alike (t.observe file).2 := by
  rw [Synchronizer.observe, Synchronizer.observe]
  cases file.primary? with
  | none => exact ⟨rfl, h⟩
  | some c =>
    simp only [← h.tracked, ← h.snapshot]
    split
    · split
      · exact ⟨rfl, h⟩
      · split
        · exact ⟨rfl, rfl, h.tracked⟩
        · split
          · exact ⟨rfl, rfl, h.tracked⟩
          · exact ⟨rfl, h⟩
    · exact ⟨rfl, refl _⟩

theorem synchronize (path : Text) (tree : FileTree) {result : Except Error Nat}
    {s' : Synchronizer} {tree' : FileTree} (hs : s.synchronize path tree = (result, s', tree')) :
    ∃ t', t.synchronize path tree = (result, t', tree') ∧ s'.Alike t' := by
  rw [Synchronizer.synchronize] at hs ⊢
  cases hfound : tree.document path with
  | error e =>
    rw [hfound] at hs
    cases hs
    exact ⟨t, rfl, h⟩
  | ok d =>
    obtain ⟨hsame, halike⟩ := h.observe (SourceFile.read path d.text)
    rcases hobserve : s.observe (SourceFile.read path d.text) with ⟨seen, s₁⟩
    rcases hobserve' : t.observe (SourceFile.read path d.text) with ⟨seen', t₁⟩
    simp only [hobserve, hobserve', hfound] at hsame halike hs ⊢
    subst hsame
    cases seen with
    | error e =>
      cases hs
      exact ⟨t₁, rfl, halike⟩
    | ok edits =>
      cases edits with
      | nil =>
        cases hs
        exact ⟨t₁, rfl, halike⟩
      | cons e edits =>
        cases hcommit : d.commit (e :: edits) with
        | error e' =>
          simp only [hcommit] at hs ⊢
          cases hs
          exact ⟨t₁, rfl, halike⟩
        | ok committed =>
          simp only [hcommit] at hs ⊢
          cases hs
          exact ⟨t₁, rfl, halike⟩

end Alike

def ofClass (path : Text) (c : ClassDecl) : Synchronizer :=
  ⟨some ⟨path, c.own.name⟩, Snapshot.ofClass c⟩

private theorem alike_ofClass {s : Synchronizer} {path : Text} {c : ClassDecl}
    (ht : s.tracked?.any (Container.same ⟨path, c.own.name⟩))
    (hs : s.snapshot = Snapshot.ofClass c) : s.Alike (ofClass path c) := by
  refine ⟨hs, fun d => ?_⟩
  obtain ⟨id, hid, hsame⟩ := (Option.any_eq_true _ _).1 ht
  obtain ⟨hpath, hname⟩ := Container.same_iff.1 hsame
  rw [hid, Bool.eq_iff_iff]
  simp only [ofClass, Option.any_some, Container.same_iff] at hpath hname ⊢
  rw [hpath, hname]

def Matches (base? : Option Synchronizer) (s : Synchronizer) : Prop :=
  ∃ b, base? = some b ∧ s.Alike b

private theorem Matches.alike {base? : Option Synchronizer} {s t : Synchronizer}
    (hs : s.Matches base?)
    (ht : t.Matches base?) : s.Alike t := by
  obtain ⟨b, hb, hs⟩ := hs
  obtain ⟨b', hb', ht⟩ := ht
  obtain rfl := Option.some.inj (hb.symm.trans hb')
  exact hs.trans ht.symm

theorem Matches.trans {base? base'? : Option Synchronizer} {s : Synchronizer} (hs : s.Matches base?)
    (h : ∀ t, base? = some t → t.Matches base'?) : s.Matches base'? := by
  obtain ⟨t, ht, halike⟩ := hs
  obtain ⟨b, hb, halike'⟩ := h t ht
  exact ⟨b, hb, halike.trans halike'⟩

/-- Who holds what a file says holds what another one holds that was stored for it. -/
theorem Matches.of_held {base? held? : Option Synchronizer} {s : Synchronizer}
    (hs : s.Matches base?) (h : ∀ t, held? = some t → t.Matches base?)
    (hheld : base?.isSome → held?.isSome) : s.Matches held? := by
  obtain ⟨b, rfl, halike⟩ := hs
  obtain ⟨t, ht⟩ := Option.isSome_iff_exists.1 (hheld rfl)
  exact ⟨t, ht, Matches.alike ⟨b, rfl, halike⟩ (h t ht)⟩

def Idle (base? : Option Synchronizer) (s : Synchronizer) : Prop := s = {} ∨ s.Matches base?

def Reads (path : Text) (base? : Option Synchronizer) (tree : FileTree) : Prop :=
  ∃ text, tree.document path = .ok ⟨path, text⟩ ∧
    (SourceFile.read path text).primary?.map (ofClass path) = base?

namespace Reads

variable {path : Text} {base? : Option Synchronizer} {tree : FileTree} (h : Reads path base? tree)
  {s : Synchronizer}
include h

theorem isFile : tree.isFile path := by
  obtain ⟨text, hfound, -⟩ := h
  exact FileTree.isFile_of_find? (FileTree.document_eq_ok_iff.1 hfound).2

/-- Whatever a synchronizer makes of a file says the same, and so does the synchronizer then. -/
theorem after {s' : Synchronizer} {tree' : FileTree} {result : Except Error Nat}
    (hs : s.synchronize path tree = (result, s', tree')) :
    Reads path base? tree' ∧ (Registry.keeps result → s'.Matches base?) := by
  have hfile := h.isFile
  obtain ⟨text, hfound, rfl⟩ := h
  rcases hobserve : s.observe (SourceFile.read path text) with ⟨e | edits, s₁⟩
  · rw [synchronize_error hfound hobserve] at hs
    cases hs
    exact ⟨⟨text, hfound, rfl⟩, fun hkeeps => nomatch hkeeps⟩
  · obtain ⟨text', happly, hsync⟩ := synchronize_ok hfound hobserve
    rw [hsync] at hs
    cases hs
    obtain ⟨c, hc, hsnapshot, htracked, hedits, hn⟩ := observe_spec hobserve
    obtain ⟨-, ps, -, -, happly', d, hd, hname, hsame, -⟩ := exists_primary?_reworded hc hedits hn
    obtain rfl := Except.ok.inj (happly.symm.trans happly')
    rw [hc, Option.map_some]
    refine ⟨⟨_, FileTree.document_save (d := ⟨path, _⟩) hfile, ?_⟩,
      fun _ => ⟨_, rfl, alike_ofClass htracked hsnapshot⟩⟩
    rw [hd, Option.map_some, ofClass, ofClass, hname, hsame]

theorem synchronize (hs : s.Idle base?) :
    ∃ result s', s.synchronize path tree = (result, s', tree) ∧
      Registry.keeps result = base?.isSome := by
  obtain ⟨text, hfound, rfl⟩ := h
  cases hc : (SourceFile.read path text).primary? with
  | none =>
    have hobserve : s.observe (SourceFile.read path text) = (.error (.noContainer path), s) := by
      rw [observe, hc]
      rfl
    exact ⟨_, s, synchronize_error hfound hobserve, rfl⟩
  | some c =>
    have hobserve : ∃ s', s.observe (SourceFile.read path text) = (.ok [], s') := by
      rcases hs with rfl | ⟨b, hb, halike⟩
      · exact ⟨ofClass path c, by rw [observe, hc]; rfl⟩
      · rw [hc, Option.map_some, Option.some.injEq] at hb
        subst hb
        refine ⟨s, observe_recorded hc halike.snapshot ?_⟩
        rw [halike.tracked, ofClass, Option.any_some, Container.same_iff]
        exact ⟨rfl, rfl⟩
    obtain ⟨s', hobserve⟩ := hobserve
    obtain ⟨text', happly, hsync⟩ := synchronize_ok hfound hobserve
    rw [Edit.applyAll_nil, Except.ok.injEq] at happly
    subst happly
    rw [FileTree.save_self hfound] at hsync
    exact ⟨_, s', hsync, rfl⟩

end Reads
end Javadoc.Synchronizer
