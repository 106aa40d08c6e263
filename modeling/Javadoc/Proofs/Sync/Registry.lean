import Javadoc.Proofs.Files.Writing
import Javadoc.Proofs.Sync.Application
import Javadoc.Proofs.Sync.Exactness
import Javadoc.Sync.Registry

/-! Synchronizing files. A file that cannot be read or has no type is left alone; else what the
observation asks for is written, and the synchronizer holds what the file says. -/
namespace Javadoc

namespace Registry

theorem at?_store_self (r : Registry) (path : Text) (s : Synchronizer) :
    (r.store path s).at? path = some s :=
  OrderedMap.get?_insert_self r _ s

theorem at?_forget_self (r : Registry) (path : Text) : (r.forget path).at? path = none :=
  OrderedMap.get?_erase_self r _

def keeps : Except Error Nat → Bool
  | .error (.noContainer _) => false
  | _ => true

theorem settle_eq (r : Registry) (path : Text) (result : Except Error Nat) (s : Synchronizer) :
    r.settle path result s = if keeps result then r.store path s else r.forget path := by
  cases result with
  | ok count => rfl
  | error e => cases e <;> rfl

theorem at?_settle_self (r : Registry) (path : Text) (result : Except Error Nat)
    (s : Synchronizer) :
    (r.settle path result s).at? path = if keeps result then some s else none := by
  rw [settle_eq]
  split
  · exact at?_store_self r path s
  · exact at?_forget_self r path

/-- A look at one file is not about the synchronizers of others. -/
theorem get?_settle_of_ne {key : List Text} {path : Text} (h : key ≠ Path.components path)
    (r : Registry) (result : Except Error Nat) (s : Synchronizer) :
    (r.settle path result s).get? key = r.get? key := by
  rw [settle_eq]
  split
  · exact OrderedMap.get?_insert_of_ne h r s
  · exact OrderedMap.get?_erase_of_ne h r

end Registry

/-- Opening a file does not ask whether it has a type. -/
theorem FileTree.document_error {tree : FileTree} {path : Text} {e : Error}
    (h : tree.document path = .error e) : Registry.keeps (.error e) := by
  rw [document] at h
  split at h
  · split at h <;> cases h
    rfl
  · cases h
    rfl

namespace Synchronizer

open Java

/-- The edits for the type that is followed are those that the changes of its descriptions ask
for. -/
theorem observe_tracked {s : Synchronizer} {file : SourceFile} {c : ClassDecl}
    (hc : file.primary? = some c)
    (ht : s.tracked?.any (Container.same ⟨file.path, c.own.name⟩)) :
    (s.observe file).1 =
      if s.snapshot.changes (Snapshot.ofClass c) = [] then .ok []
      else commentEdits file c (s.snapshot.changes (Snapshot.ofClass c)) := by
  rw [observe, hc]
  simp only [ht, if_true]
  split
  · next heq => rw [if_pos (heq ▸ Snapshot.changes_self _)]
  · split
    · next hchanges => rw [if_pos hchanges]
    · next hchanges =>
      rw [if_neg hchanges]
      split <;> simp_all

/-- All that can go wrong with a file that was read is that there is no type, in it or in what the
updates make of it. -/
theorem observe_read_error {s s' : Synchronizer} {path source : Text} {e : Error}
    (h : s.observe (SourceFile.read path source) = (.error e, s')) : e = .noContainer path := by
  have hpath : (SourceFile.read path source).path = path := rfl
  rw [observe] at h
  split at h
  · cases h
    rfl
  · next c hc =>
    dsimp only at h
    split at h
    · split at h
      · cases h
      · split at h
        · cases h
        · split at h
          · cases h
          · next e' hedits =>
            cases h
            rw [commentEdits] at hedits
            rw [show Text.slice? c.own.start c.own.stop (SourceFile.read path source).source =
              some (renewedText [] source) from (slices_primary hc).2] at hedits
            dsimp only at hedits
            split at hedits
            · cases hedits
            · split at hedits <;> cases hedits
              rfl
    · cases h

section

variable {s : Synchronizer} {path : Text} {tree : FileTree}

theorem synchronize_unreadable {e : Error} (h : tree.document path = .error e) :
    s.synchronize path tree = (.error e, s, tree) := by
  rw [synchronize, h]

theorem synchronize_error {text : Text} {e : Error} {s' : Synchronizer}
    (h : tree.document path = .ok ⟨path, text⟩)
    (hobserve : s.observe (SourceFile.read path text) = (.error e, s')) :
    s.synchronize path tree = (.error (.noContainer path), s, tree) := by
  obtain rfl := observe_read_error hobserve
  obtain rfl := observe_error hobserve
  rw [synchronize, h]
  simp only [hobserve]

/-- The edits of an observation always apply. Without edits the file is written as it is. -/
theorem synchronize_ok {text : Text} {edits : List Edit} {s' : Synchronizer}
    (h : tree.document path = .ok ⟨path, text⟩)
    (hobserve : s.observe (SourceFile.read path text) = (.ok edits, s')) :
    ∃ text', Edit.applyAll text edits = .ok text' ∧
      s.synchronize path tree = (.ok edits.length, s', tree.save ⟨path, text'⟩) := by
  obtain ⟨-, -, ps, -, -, happly, -⟩ := observe_applyAll hobserve
  refine ⟨_, happly, ?_⟩
  rw [synchronize, h]
  simp only [hobserve]
  cases edits with
  | nil =>
    rw [Edit.applyAll_nil, Except.ok.injEq] at happly
    rw [← happly, FileTree.save_self h]
    rfl
  | cons e edits =>
    simp only [Document.commit, happly]

variable (s path tree)

/-- What synchronizing a file does: nothing if it cannot be read or no type is found, and else what
the observation asks for. -/
theorem synchronize_cases :
    (∃ e, tree.document path = .error e ∧ s.synchronize path tree = (.error e, s, tree)) ∨
    (∃ text, tree.document path = .ok ⟨path, text⟩ ∧
      (s.observe (SourceFile.read path text)).1 = .error (.noContainer path) ∧
      s.synchronize path tree = (.error (.noContainer path), s, tree)) ∨
    ∃ text edits s' text', tree.document path = .ok ⟨path, text⟩ ∧
      s.observe (SourceFile.read path text) = (.ok edits, s') ∧
      Edit.applyAll text edits = .ok text' ∧
      s.synchronize path tree = (.ok edits.length, s', tree.save ⟨path, text'⟩) := by
  rcases hdocument : tree.document path with e | ⟨p, text⟩
  · exact .inl ⟨e, rfl, synchronize_unreadable hdocument⟩
  · obtain rfl : p = path := (FileTree.document_eq_ok_iff.1 hdocument).1
    rcases hobserve : s.observe (SourceFile.read p text) with ⟨e | edits, s'⟩
    · obtain rfl := observe_read_error hobserve
      exact .inr (.inl ⟨text, rfl, by rw [hobserve], synchronize_error hdocument hobserve⟩)
    · obtain ⟨text', happly, hsync⟩ := synchronize_ok hdocument hobserve
      exact .inr (.inr ⟨text, edits, s', text', rfl, hobserve, happly, hsync⟩)

end

/-- Synchronizing a file leaves a file. -/
theorem isFile_synchronize {s s' : Synchronizer} {path : Text} {tree tree' : FileTree}
    {result : Except Error Nat} (h : tree.isFile path)
    (hs : s.synchronize path tree = (result, s', tree')) : tree'.isFile path := by
  rcases synchronize_cases s path tree with
    ⟨e, -, hsync⟩ | ⟨text, -, -, hsync⟩ | ⟨text, edits, s₁, text', -, -, -, hsync⟩ <;>
  cases hs.symm.trans hsync
  · exact h
  · exact h
  · exact FileTree.isFile_overwrite h _

/-- What comes of a look at a file: the synchronizer that is stored then, and the files. A file that
cannot be read leaves things as they are, and without a type nothing is stored; else the descriptions
are, and the comments are updated as the changes since the last time ask for. -/
inductive Noticed (path : Text) (s : Synchronizer) (tree : FileTree) :
    Option Synchronizer → FileTree → Prop where
  | unread {e : Error} (h : tree.document path = .error e) : Noticed path s tree (some s) tree
  | typeless {text : Text} (h : tree.document path = .ok ⟨path, text⟩)
    (hno : (s.observe (SourceFile.read path text)).1 = .error (.noContainer path)) :
    Noticed path s tree none tree
  | recorded {text : Text} {c : ClassDecl} {s' : Synchronizer}
    (h : tree.document path = .ok ⟨path, text⟩)
    (hc : (SourceFile.read path text).primary? = some c)
    (hnew : ¬s.tracked?.any (Container.same ⟨path, c.own.name⟩))
    (hs : s'.snapshot = Snapshot.ofClass c) : Noticed path s tree (some s') tree
  | updated {text text' : Text} {c : ClassDecl} {s' : Synchronizer} {edits : List Edit}
    (h : tree.document path = .ok ⟨path, text⟩)
    (hc : (SourceFile.read path text).primary? = some c)
    (hsame : s.tracked?.any (Container.same ⟨path, c.own.name⟩))
    (hedits : (if s.snapshot.changes (Snapshot.ofClass c) = [] then .ok []
      else commentEdits (SourceFile.read path text) c
        (s.snapshot.changes (Snapshot.ofClass c))) = .ok edits)
    (happly : Edit.applyAll text edits = .ok text')
    (hs : s'.snapshot = Snapshot.ofClass c) :
    Noticed path s tree (some s') (tree.save ⟨path, text'⟩)

theorem noticed_synchronize {s s' : Synchronizer} {path : Text} {tree tree' : FileTree}
    {result : Except Error Nat} (h : s.synchronize path tree = (result, s', tree')) :
    Noticed path s tree (if Registry.keeps result then some s' else none) tree' := by
  rcases synchronize_cases s path tree with ⟨e, hdocument, hsync⟩ |
    ⟨text, hdocument, hno, hsync⟩ | ⟨text, edits, s₁, text', hdocument, hobserve, happly, hsync⟩ <;>
  cases hsync.symm.trans h
  · rw [if_pos (FileTree.document_error hdocument)]
    exact .unread hdocument
  · exact .typeless hdocument hno
  · obtain ⟨c, hc, -, hsnapshot, hedits⟩ := observe_ok hobserve
    by_cases hsame : s.tracked?.any (Container.same ⟨path, c.own.name⟩)
    · refine .updated hdocument hc hsame ?_ happly hsnapshot
      rw [← observe_tracked hc hsame, hobserve]
    · obtain rfl : edits = [] := by
        by_contra hne
        exact hsame (hedits hne).1
      rw [Edit.applyAll_nil, Except.ok.injEq] at happly
      rw [← happly, FileTree.save_self hdocument]
      exact .recorded hdocument hc hsame hsnapshot

end Synchronizer
end Javadoc
