import Javadoc.Proofs.Batch
import Mathlib.Data.List.Nodup

/-! Applying a batch of edits. A text cut into pieces, some of them kept, some exchanged and some
put in between, becomes the text of the new pieces, in whatever order the edits are given. -/
namespace Javadoc

/-- What happens to a piece of a text. -/
inductive Patch where
  | keep (text : Text)
  /-- A new piece between two old ones. -/
  | put (text : Text)
  | swap (old new : Text)

theorem Edit.applyAll_nil (source : Text) : Edit.applyAll source [] = .ok source := by
  simp [applyAll, ordered, firstFault?, splice]

namespace Patch

def old : Patch → Text
  | keep text => text
  | put _ => []
  | swap old _ => old

def new : Patch → Text
  | keep text => text
  | put text => text
  | swap _ new => new

/-- The edits that make the new pieces of the old ones, which start at byte `at_`. -/
def edits (at_ : Nat) : List Patch → List Edit
  | [] => []
  | keep text :: ps => edits (at_ + Text.size text) ps
  | put text :: ps => .insert at_ text :: edits at_ ps
  | swap old new :: ps =>
    .replace at_ (at_ + Text.size old) new :: edits (at_ + Text.size old) ps

private theorem fault?_eq_none {source a b c : Text} (hs : source = a ++ (b ++ c)) {done : Nat}
    (hd : done ≤ Text.size a) {e : Edit} (he : e.start = Text.size a)
    (he' : e.stop = Text.size a + Text.size b) : Edit.fault? source done e = none := by
  have hstart : Text.isBoundary e.start source := by
    rw [he, hs]
    exact Text.isBoundary_size _ _
  have hstop : Text.isBoundary e.stop source := by
    rw [he', hs, ← Text.size_append, ← List.append_assoc]
    exact Text.isBoundary_size _ _
  have hsize : Text.size source = Text.size a + (Text.size b + Text.size c) := by
    rw [hs, Text.size_append, Text.size_append]
  exact Edit.fault?_eq_none_iff.2 ⟨⟨by omega, by omega, hstart, hstop⟩, by omega⟩

private theorem firstFault?_edits {source front : Text} {ps : List Patch}
    (hs : source = front ++ ps.flatMap old) {done : Nat} (hd : done ≤ Text.size front) :
    Edit.firstFault? source done (edits (Text.size front) ps) = none := by
  induction ps generalizing front done with
  | nil => rfl
  | cons p ps ih =>
    cases p with
    | keep text =>
      rw [edits, ← Text.size_append]
      exact ih (by simpa [old] using hs) (by rw [Text.size_append]; omega)
    | put text =>
      have hf : Edit.fault? source done (.insert (Text.size front) text) = none :=
        fault?_eq_none (b := []) hs hd rfl rfl
      rw [edits, Edit.firstFault?, hf]
      exact ih (by simpa [old] using hs) (Nat.le_refl _)
    | swap old new =>
      have hf : Edit.fault? source done
          (.replace (Text.size front) (Text.size front + Text.size old) new) = none :=
        fault?_eq_none hs hd rfl rfl
      rw [edits, Edit.firstFault?, hf]
      simp only [Edit.stop]
      rw [← Text.size_append]
      exact ih (by simpa [Patch.old] using hs) (Nat.le_refl _)

private theorem splice_edits (front : Text) (ps : List Patch) (done : Nat) :
    Edit.splice done (front ++ ps.flatMap old) (edits (done + Text.size front) ps) =
      front ++ ps.flatMap new := by
  have hnil (t : Text) : Text.splitAtByte? 0 t = some ([], t) := by cases t <;> rfl
  induction ps generalizing front done with
  | nil => rfl
  | cons p ps ih =>
    cases p with
    | keep text =>
      have := ih (front ++ text) done
      rw [Text.size_append, ← Nat.add_assoc] at this
      simpa [edits, old, new] using this
    | put text =>
      have := ih [] (done + Text.size front)
      simp only [Text.size, Nat.add_zero, List.nil_append] at this
      simp only [edits, List.flatMap_cons, old, new, Edit.splice, Edit.start, Edit.stop, Edit.text,
        Nat.add_sub_cancel_left, Nat.sub_self, List.nil_append, Text.splitAtByte?_size, hnil, this,
        List.append_assoc]
    | swap old new =>
      have := ih [] (done + Text.size front + Text.size old)
      simp only [Text.size, Nat.add_zero, List.nil_append] at this
      simp only [edits, List.flatMap_cons, Patch.old, Patch.new, Edit.splice, Edit.start, Edit.stop,
        Edit.text, Nat.add_sub_cancel_left, Text.splitAtByte?_size, this, List.append_assoc]

/-- Edits that start one behind the other are put in that order. -/
theorem ordered_eq_of_perm {es fs : List Edit} (h : es.Perm fs)
    (hs : fs.Pairwise fun e f => e.start < f.start) : Edit.ordered es = fs := by
  have hes : (Edit.ordered es).Pairwise fun a b => Edit.before a b :=
    List.pairwise_mergeSort Edit.before_trans Edit.before_total es
  have hfs : fs.Pairwise fun a b => Edit.before a b :=
    hs.imp fun h => Edit.before_iff.2 (Or.inl h)
  have hperm : (Edit.ordered es).Perm fs := (List.mergeSort_perm es _).trans h
  have hnodup : (fs.map Edit.start).Nodup := List.pairwise_map.2 (hs.imp fun h => Nat.ne_of_lt h)
  refine List.Perm.eq_of_pairwise (fun a b ha hb hab hba => ?_) hes hfs hperm
  refine List.inj_on_of_nodup_map hnodup (hperm.subset ha) hb ?_
  rw [Edit.before_iff] at hab hba
  omega

/-- The edits of pieces can be given in any order. -/
theorem applyAll_edits {ps : List Patch} {es : List Edit} (h : es.Perm (edits 0 ps))
    (hs : (edits 0 ps).Pairwise fun e f => e.start < f.start) :
    Edit.applyAll (ps.flatMap old) es = .ok (ps.flatMap new) := by
  have hf : Edit.firstFault? (ps.flatMap old) 0 (edits (Text.size []) ps) = none :=
    firstFault?_edits (List.nil_append _).symm (Nat.zero_le _)
  have hsp := splice_edits [] ps 0
  simp only [Text.size, Nat.add_zero, List.nil_append] at hf hsp
  rw [Edit.applyAll, ordered_eq_of_perm h hs, hf, hsp]

end Patch
end Javadoc
