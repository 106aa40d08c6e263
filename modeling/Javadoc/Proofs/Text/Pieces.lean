import Javadoc.Text.Search

/-! The pieces of a text between the occurrences of a character. -/
namespace Javadoc.Text

theorem splitOnChar_ne_nil (sep : Char) (t : Text) : splitOnChar sep t ≠ [] := by
  cases t with
  | nil => simp [splitOnChar]
  | cons c cs =>
    rw [splitOnChar]
    split
    · simp
    · split <;> simp

theorem splitOnChar_append (sep : Char) (t u : Text) :
    splitOnChar sep (t ++ sep :: u) = splitOnChar sep t ++ splitOnChar sep u := by
  induction t with
  | nil => simp [splitOnChar]
  | cons c cs ih =>
    rw [List.cons_append, splitOnChar, splitOnChar, ih]
    split
    · rfl
    · cases hs : splitOnChar sep cs with
      | nil => exact absurd hs (splitOnChar_ne_nil sep cs)
      | cons p ps => rfl

theorem splitOnChar_of_not_mem {sep : Char} {t : Text} (h : sep ∉ t) :
    splitOnChar sep t = [t] := by
  induction t with
  | nil => rfl
  | cons c cs ih =>
    simp only [List.mem_cons, not_or] at h
    rw [splitOnChar, if_neg (Ne.symm h.1), ih h.2]

/-- Whether `p` stands in the text between two occurrences of `sep` that follow each other, or
between one of them and an end of the text. -/
def IsPiece (sep : Char) (t p : Text) : Prop :=
  sep ∉ p ∧ ∃ a b, t = a ++ (p ++ b) ∧ (∀ c ∈ a.getLast?, c = sep) ∧ ∀ c ∈ b.head?, c = sep

private theorem isPiece_of_mem {sep : Char} {t p : Text} (h : p ∈ splitOnChar sep t) :
    IsPiece sep t p := by
  induction hn : t.length using Nat.strongRecOn generalizing t with
  | ind n ih =>
  by_cases hsep : sep ∈ t
  · obtain ⟨l, u, rfl, hl⟩ := List.eq_append_cons_of_mem hsep
    rw [splitOnChar_append, splitOnChar_of_not_mem hl, List.singleton_append, List.mem_cons] at h
    rcases h with rfl | h
    · exact ⟨hl, [], sep :: u, rfl, by simp, by simp⟩
    · obtain ⟨hp, a, b, rfl, ha, hb⟩ := ih u.length (by simp [← hn]; omega) h rfl
      refine ⟨hp, l ++ sep :: a, b, by simp, fun c hc => ?_, hb⟩
      cases a with
      | nil => simpa using hc.symm
      | cons d a => exact ha c (by simpa [List.getLast?_append, List.getLast?_cons_cons] using hc)
  · rw [splitOnChar_of_not_mem hsep, List.mem_singleton] at h
    subst h
    exact ⟨hsep, [], [], by simp, by simp, by simp⟩

theorem mem_splitOnChar_iff {sep : Char} {t p : Text} :
    p ∈ splitOnChar sep t ↔ IsPiece sep t p := by
  refine ⟨isPiece_of_mem, ?_⟩
  rintro ⟨hp, a, b, rfl, ha, hb⟩
  have hback : p ∈ splitOnChar sep (p ++ b) := by
    cases b with
    | nil => simp [splitOnChar_of_not_mem hp]
    | cons c b =>
      obtain rfl := hb c (by simp)
      simp [splitOnChar_append, splitOnChar_of_not_mem hp]
  rcases List.eq_nil_or_concat a with rfl | ⟨a, c, rfl⟩
  · exact hback
  · obtain rfl := ha c (by simp)
    rw [List.concat_eq_append, List.append_assoc, List.singleton_append, splitOnChar_append]
    exact List.mem_append_right _ hback

end Javadoc.Text
