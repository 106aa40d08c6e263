import Javadoc.Proofs.Java.Swaps
import Javadoc.Proofs.Plan.Sites
import Javadoc.Proofs.Sync.Descriptions

/-! Applying what observing a file gives: the edits exchange comments of constructors and setters,
so that they always fit, and the file that they make has nothing left to do. -/
namespace Javadoc

namespace Edit

def textAt (es : List Edit) (d : DocComment) : Text :=
  ((es.find? fun e => e.start == d.start).map text).getD d.text

theorem firstAtEach_subset (es : List Edit) : firstAtEach es ⊆ es := by
  induction es with
  | nil => exact List.Subset.refl _
  | cons e es ih =>
    exact List.cons_subset_cons e (List.Subset.trans (List.filter_subset_self _) ih)

private theorem pairwise_firstAtEach (es : List Edit) :
    (firstAtEach es).Pairwise fun e f => e.start ≠ f.start := by
  induction es with
  | nil => exact .nil
  | cons e es ih =>
    refine .cons (fun f hf => ?_) (ih.filter _)
    exact Ne.symm (by simpa using (List.mem_filter.1 hf).2)

end Edit

/-- What is said of a field is what its documentation comment describes. -/
theorem Snapshot.describe_eq (f : Field) :
    describe f = ((f.comment.doc?.map (·.text)).map Comment.description).getD [] := by
  rw [describe]
  cases f.comment.doc? <;> rfl

namespace Java

/-- A type whose fields keep their names and descriptions says what it said. -/
theorem ofClass_eq {source : Text} {N : Tree} (hN : (Tree.scan source).firstType? = some N)
    {g : Token → Token} (hg : KeepsSymbols g) {c d : ClassDecl}
    (hc : N.members.filterMap Member.nested? = [c])
    (hd : (N.map g).members.filterMap Member.nested? = [d])
    (hf : ∀ path f f', Sprung g (N.nodes []) path (.field f) (.field f') →
      f'.name = f.name ∧ Snapshot.describe f' = Snapshot.describe f) :
    d.own.name = c.own.name ∧ Snapshot.ofClass d = Snapshot.ofClass c := by
  constructor
  · obtain ⟨-, kind, name, head, o, inside, closing, rfl⟩ :=
      Tree.firstType?_eq_some hN (Tree.typed_scan source)
    cases hc
    cases hd
    rfl
  · have hfields : List.Forall₂ (fun e e' : FieldKey × Text => e = e')
        ((Snapshot.fieldsOf c).map fun e => (e.1, Snapshot.describe e.2))
        ((Snapshot.fieldsOf d).map fun e => (e.1, Snapshot.describe e.2)) := by
      simp only [Snapshot.fieldsOf, List.map_flatMap, List.map_map]
      refine List.rel_flatMap (forall₂_withPaths hN hg hc hd) fun p p' hp => ?_
      rw [List.forall₂_map_left_iff, List.forall₂_map_right_iff]
      refine hp.fields.imp fun f f' hsprung => ?_
      obtain ⟨hname, hdescribe⟩ := hf _ f f' hsprung
      simp [hp.path, hname, hdescribe]
    rw [List.forall₂_eq_eq_eq] at hfields
    exact (congrArg OrderedMap.ofList hfields).symm

def IsRewording (c : ClassDecl) (e : Edit) : Prop :=
  ∃ p ∈ c.entryOwners, ∃ d, p.2.comment.doc? = some d ∧ ∃ x, e = .replace d.start d.stop x ∧
    IsDocText x

structure Reworded (es : List Edit) (p p' : Text × Method) : Prop where
  path : p'.1 = p.1
  body : p'.2.flatBody? = p.2.flatBody?
  doc : p'.2.comment.doc?.map (·.text) = p.2.comment.doc?.map (Edit.textAt es)

section

variable {source : Text} {N : Tree} (hN : (Tree.scan source).firstType? = some N) {c : ClassDecl}
  (hc : N.members.filterMap Member.nested? = [c]) {es : List Edit}
  (hes : ∀ e ∈ es, IsRewording c e)
include hN hc hes

private theorem isSwap_of_isRewording : ∀ e ∈ es, IsSwap source e := by
  intro e he
  obtain ⟨p, hp, d, hd, x, rfl, hx⟩ := hes e he
  obtain ⟨n, -, -, t, ts, -, ht, hpt, -⟩ := exists_node hN hc hp
  exact ⟨t, ht, d, hpt ▸ hd, x, rfl, hx⟩

/-- Only the first tokens of constructors and setters have their comments exchanged. -/
theorem exists_node_of_swapped? {t : Token} (ht : t ∈ Token.scan source) {x : Text}
    (hx : swapped? es t = some x) : ∃ n ∈ N.nodes [], ∃ ts,
      n.head.flatMap Piece.tokens = t :: ts ∧ ∃ σ ∈ Member.shapes n.head (Tree.bodyAt n.last),
        ∃ place, (σ.member place).callable?.isSome := by
  obtain ⟨-, d, hd, he⟩ := swapped?_eq_some (isSwap_of_isRewording hN hc hes) ht hx
  obtain ⟨p, hp, d', hd', y, heq, -⟩ := hes _ he
  obtain ⟨n, hn, -, u, us, hus, hu, hpu, σ, hσ, hσp⟩ := exists_node hN hc hp
  obtain rfl : u = t :=
    Token.eq_of_doc_start_eq hu ht (hpu ▸ hd') hd (Edit.replace.inj heq).1.symm
  exact ⟨n, hn, us, hus, σ, hσ, _, by rw [hσp]; rfl⟩

variable {g : Token → Token}
  (hlead : ∀ t ∈ Token.scan source, swapped? es t = none → (g t).lead = t.lead)
include hlead

private theorem keepsInner_of_swapped : KeepsInner g (N.marks []) := by
  intro m hm hh
  have ht := mem_scan_of_mem_marks hN hm
  refine hlead _ ht (Option.eq_none_iff_forall_ne_some.2 fun x hx => ?_)
  obtain ⟨n, hn, ts, hts, -⟩ := exists_node_of_swapped? hN hc hes ht hx
  have hmark : ⟨n.path, true, false, m.token⟩ ∈ N.marks [] := by
    refine Tree.headMarks_subset_marks hn ?_
    rw [Tree.headMarks, hts]
    exact List.mem_cons_self
  rw [Tree.eq_of_mem_marks (Tree.nodup_firstType hN) hm hmark rfl] at hh
  cases hh

/-- Fields keep their descriptions. -/
theorem describe_eq {path : Text} {f f' : Field}
    (hs : Sprung g (N.nodes []) path (.field f) (.field f')) :
    f'.name = f.name ∧ Snapshot.describe f' = Snapshot.describe f := by
  obtain ⟨n, hn, -, σ, hσ, hm, hm'⟩ := hs
  obtain ⟨t, ts, hts, ht, -⟩ := exists_first hN hn hσ
  have hsame : (g t).lead = t.lead := by
    refine hlead t ht (Option.eq_none_iff_forall_ne_some.2 fun x hx => ?_)
    obtain ⟨n', hn', ts', hts', τ, hτ, place, hcall⟩ := exists_node_of_swapped? hN hc hes ht hx
    obtain rfl : n = n' := eq_of_head (Tree.nodup_firstType hN) hn hn' hts hts'
    rcases shapes_cases n.head (Tree.bodyAt n.last) with heq | hnone
    · rw [heq τ hτ σ hσ] at hcall
      cases σ <;> cases hm
      cases hcall
    · rw [hnone τ hτ] at hcall
      cases hcall
  have hts' : (n.head.map (Piece.map g)).flatMap Piece.tokens = g t :: ts.map g := by
    rw [Piece.flatMap_tokens_map, hts, List.map_cons]
  have htext : (g t).preceding.doc?.map (·.text) = t.preceding.doc?.map (·.text) := by
    rw [Token.text_preceding, Token.text_preceding, hsame]
  cases σ <;> cases hm
  cases hm'
  refine ⟨rfl, ?_⟩
  rw [Snapshot.describe_eq, Snapshot.describe_eq]
  simp only [Tree.placeOf_eq hts, Tree.placeOf_eq hts', htext]

private theorem OwnerRel.reworded (hg : KeepsLexeme g)
    (hdoc : ∀ t ∈ Token.scan source, ∀ x ∈ swapped? es t, Token.docText? (g t).lead = some x)
    {p p' : Text × Method} (h : OwnerRel g (N.nodes []) p p') : Reworded es p p' := by
  obtain ⟨hpath, M, M', -, ⟨n, hn, -, σ, hσ, rfl, rfl⟩, hm, hm'⟩ := h
  have hinner := keepsInner_of_swapped hN hc hes hlead
  obtain ⟨t, ts, hts, ht, -⟩ := exists_first hN hn hσ
  have hts' : (n.head.map (Piece.map g)).flatMap Piece.tokens = g t :: ts.map g := by
    rw [Piece.flatMap_tokens_map, hts, List.map_cons]
  refine ⟨hpath, flatBody?_eq hg (hinner.last hn) (Member.within_of_mem_shapes hσ) hm hm', ?_⟩
  rw [(callable?_member hm).1, (callable?_member hm').1, Tree.placeOf_eq hts, Tree.placeOf_eq hts',
    Token.text_preceding]
  cases hd : t.preceding.doc? with
  | none =>
    have hnone : swapped? es t = none := by rw [swapped?, hd]; rfl
    rw [hlead t ht hnone, ← Token.text_preceding, hd]
    rfl
  | some d =>
    have hswap : swapped? es t = (es.find? fun e => e.start == d.start).map Edit.text := by
      rw [swapped?, hd]
      rfl
    rw [Option.map_some, Edit.textAt, ← hswap]
    cases hx : swapped? es t with
    | none => rw [hlead t ht hx, ← Token.text_preceding, hd]; rfl
    | some x => exact hdoc t ht x hx

end

/-- What a file is read as after comments of constructors and setters are exchanged. -/
theorem exists_primary?_reworded {path source : Text} {c : ClassDecl}
    (h : (SourceFile.read path source).primary? = some c) {es : List Edit}
    (hes : ∀ e ∈ es, IsRewording c e) (hn : es.Pairwise fun e f => e.start ≠ f.start) :
    (es.Pairwise fun e f => e.stop ≤ f.start ∨ f.stop ≤ e.start) ∧
      ∃ ps, ps.flatMap Patch.old = source ∧ es.Perm (Patch.edits 0 ps) ∧
        Edit.applyAll source es = .ok (ps.flatMap Patch.new) ∧ ∃ d,
          (SourceFile.read path (ps.flatMap Patch.new)).primary? = some d ∧
            d.own.name = c.own.name ∧ Snapshot.ofClass d = Snapshot.ofClass c ∧
            List.Forall₂ (Reworded es) c.entryOwners d.entryOwners := by
  obtain ⟨N, hN, hc⟩ := exists_firstType h
  have hswap := isSwap_of_isRewording hN hc hes
  obtain ⟨ps, g, hg, hold, hperm, happly, hscan, hall⟩ := exists_map_swapped hswap hn
  have hlead := fun t ht => (hall t ht).1
  obtain ⟨d, hd, -⟩ := exists_nested_map hN g
  have hsame := ofClass_eq hN hg.symbols hc hd fun _ _ _ => describe_eq hN hc hes hlead
  refine ⟨disjoint_swaps hswap hn, ps, hold, hperm, happly, d, ?_, ?_, ?_, ?_⟩
  · rw [primary?_read, Tree.scan_of_map hg.symbols hscan, Tree.firstType?_map, hN, Option.map_some,
      Option.bind_some, hd]
    rfl
  · exact hsame.1
  · exact hsame.2
  · exact (forall₂_entryOwners hN hg.symbols hc hd).imp fun p p' hp =>
      hp.reworded hN hc hes hlead hg fun t ht => (hall t ht).2

end Java

namespace Synchronizer

open Java

private theorem isRewording_of_mem_editsFor {path text : Text} {fresh : ClassDecl}
    (h : (SourceFile.read path text).primary? = some fresh) {q : Text × Method}
    (hq : q ∈ fresh.entryOwners) {c : ClassDecl} {e : Edit}
    (he : e ∈ editsFor c.entryOwners q.1 q.2) : IsRewording c e := by
  rw [editsFor] at he
  split at he
  · next body new hb hnew =>
    obtain ⟨l, hl, hstart, -, htext⟩ := exists_lexeme_of_doc h hq hnew
    have hdoc : IsDocText new.text := by
      rw [htext]
      exact ⟨hl.1 ▸ hl, hstart⟩
    obtain ⟨p, hp, he⟩ := List.mem_filterMap.1 he
    simp only at he
    split at he
    · split at he
      · next d hd =>
        split at he
        · cases he
        · cases he
          exact ⟨p, hp, d, hd, new.text, rfl, hdoc⟩
      · cases he
    · cases he
  · cases he

private theorem commentEdits_spec {path source : Text} {c : ClassDecl} {changes : List FieldChange}
    {edits : List Edit} (h : commentEdits (SourceFile.read path source) c changes = .ok edits) :
    (∀ e ∈ edits, IsRewording c e) ∧ edits.Pairwise fun e f => e.start ≠ f.start := by
  rw [commentEdits] at h
  split at h
  · cases h
  · dsimp only at h
    split at h
    · cases h
      simp
    · split at h
      · cases h
      · next fresh hfresh =>
        cases h
        refine ⟨fun e he => ?_, Edit.pairwise_firstAtEach _⟩
        obtain ⟨q, hq, he⟩ := List.mem_flatMap.1 (Edit.firstAtEach_subset _ he)
        exact isRewording_of_mem_editsFor hfresh hq he

theorem observe_error {s s' : Synchronizer} {file : SourceFile} {e : Error}
    (h : s.observe file = (.error e, s')) : s' = s := by
  rw [observe] at h
  split at h
  · cases h
    rfl
  · dsimp only at h
    split at h
    · split at h
      · cases h
      · split at h
        · cases h
        · split at h <;> cases h
          rfl
    · cases h

/-- What a successful observation does: it records the first type of the file and its descriptions,
and edits come from changes of the type that was followed before. -/
theorem observe_ok {s s' : Synchronizer} {file : SourceFile} {edits : List Edit}
    (h : s.observe file = (.ok edits, s')) :
    ∃ c, file.primary? = some c ∧
      s'.tracked?.any (Container.same ⟨file.path, c.own.name⟩) ∧
      s'.snapshot = Snapshot.ofClass c ∧
      (edits ≠ [] → s.tracked?.any (Container.same ⟨file.path, c.own.name⟩) ∧
        s.snapshot.changes (Snapshot.ofClass c) ≠ [] ∧
        commentEdits file c (s.snapshot.changes (Snapshot.ofClass c)) = .ok edits) := by
  rw [observe] at h
  split at h
  · cases h
  · next c hc =>
    refine ⟨c, hc, ?_⟩
    dsimp only at h
    split at h
    · next htracked =>
      split at h
      · next heq =>
        cases h
        exact ⟨htracked, heq.symm, fun hne => absurd rfl hne⟩
      · split at h
        · cases h
          exact ⟨htracked, rfl, fun hne => absurd rfl hne⟩
        · next hchanges =>
          split at h
          · next hedits =>
            cases h
            exact ⟨htracked, rfl, fun _ => ⟨htracked, hchanges, hedits⟩⟩
          · cases h
    · cases h
      exact ⟨by simp [Container.same, Path.same], rfl, fun hne => absurd rfl hne⟩

/-- What observing a file does: nothing without a type; else its descriptions are recorded, and
the edits exchange comments of constructors and setters. -/
theorem observe_spec {s s' : Synchronizer} {path source : Text} {edits : List Edit}
    (h : s.observe (SourceFile.read path source) = (.ok edits, s')) :
    ∃ c, (SourceFile.read path source).primary? = some c ∧ s'.snapshot = Snapshot.ofClass c ∧
      s'.tracked?.any (Container.same ⟨path, c.own.name⟩) ∧ (∀ e ∈ edits, IsRewording c e) ∧
      edits.Pairwise fun e f => e.start ≠ f.start := by
  obtain ⟨c, hc, htracked, hsnapshot, hedits⟩ := observe_ok h
  refine ⟨c, hc, hsnapshot, htracked, ?_⟩
  by_cases hnil : edits = []
  · simp [hnil]
  · exact commentEdits_spec (hedits hnil).2.2

/-- A file whose descriptions are recorded already has nothing left to do. -/
theorem observe_recorded {s : Synchronizer} {path source : Text} {c : ClassDecl}
    (h : (SourceFile.read path source).primary? = some c)
    (hs : s.snapshot = Snapshot.ofClass c)
    (ht : s.tracked?.any (Container.same ⟨path, c.own.name⟩)) :
    s.observe (SourceFile.read path source) = (.ok [], s) := by
  have hpath : (SourceFile.read path source).path = path := rfl
  rw [observe, h]
  simp only [hpath, ht, if_true, hs]

/-- The edits that observing a file gives exchange comments of constructors and setters, which lie
apart. They apply, nothing else changes, and observing the file after that gives no edits and
leaves the synchronizer as it is. -/
theorem observe_applyAll {s s' : Synchronizer} {path source : Text} {edits : List Edit}
    (h : s.observe (SourceFile.read path source) = (.ok edits, s')) :
    (∃ c, (SourceFile.read path source).primary? = some c ∧ ∀ e ∈ edits, ∃ p ∈ c.entryOwners,
      ∃ d, p.2.comment.doc? = some d ∧ e = .replace d.start d.stop e.text) ∧
    (edits.Pairwise fun e f => e.stop ≤ f.start ∨ f.stop ≤ e.start) ∧
    ∃ ps, ps.flatMap Patch.old = source ∧ edits.Perm (Patch.edits 0 ps) ∧
      Edit.applyAll source edits = .ok (ps.flatMap Patch.new) ∧
      s'.observe (SourceFile.read path (ps.flatMap Patch.new)) = (.ok [], s') := by
  obtain ⟨c, hc, hs, ht, hedits, hn⟩ := observe_spec h
  obtain ⟨hdisjoint, ps, hold, hperm, happly, d, hd, hname, hsnapshot, -⟩ :=
    exists_primary?_reworded hc hedits hn
  refine ⟨⟨c, hc, fun e he => ?_⟩, hdisjoint, ps, hold, hperm, happly, ?_⟩
  · obtain ⟨p, hp, d, hd, x, rfl, -⟩ := hedits e he
    exact ⟨p, hp, d, hd, rfl⟩
  · exact observe_recorded hd (hs.trans hsnapshot.symm) (hname ▸ ht)

def described (description : Text) : Text :=
  Text.joinLines ["class A \x7b /** ".toList ++ description ++ " */ int a; /**".toList,
    "* @param a: x".toList, "*/ A(int a) \x7b \x7d \x7d".toList]

/-- The comment of a constructor, after the description of the field has changed. -/
theorem observe_applyAll_described : ∃ (s s' : Synchronizer) (edits : List Edit) (ps : List Patch),
    s = (Synchronizer.observe {} (SourceFile.read [] (described ['x']))).2 ∧
      s.observe (SourceFile.read [] (described ['y'])) = (.ok edits, s') ∧
      edits = [.replace 26 46 "/**\n* @param a: y\n*/".toList] ∧
      Edit.applyAll (described ['y']) edits = .ok (ps.flatMap Patch.new) ∧
      s'.observe (SourceFile.read [] (ps.flatMap Patch.new)) = (.ok [], s') := by
  have hevaluated : ((Synchronizer.observe {} (SourceFile.read [] (described ['x']))).2.observe
      (SourceFile.read [] (described ['y']))).1.toOption =
        some [.replace 26 46 "/**\n* @param a: y\n*/".toList] := by
    decide +kernel
  generalize (Synchronizer.observe {} (SourceFile.read [] (described ['x']))).2 = s
    at hevaluated
  rcases hobserve : s.observe (SourceFile.read [] (described ['y'])) with ⟨result, s'⟩
  rw [hobserve] at hevaluated
  cases result with
  | error e => cases hevaluated
  | ok edits =>
    obtain ⟨-, -, ps, -, -, happly, hquiet⟩ := observe_applyAll hobserve
    exact ⟨s, s', edits, ps, rfl, hobserve, Option.some.inj hevaluated, happly, hquiet⟩

end Synchronizer
end Javadoc
