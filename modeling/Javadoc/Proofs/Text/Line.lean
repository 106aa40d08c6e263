import Javadoc.Proofs.Text.Pattern
import Javadoc.Proofs.Text.Trim

/-! The lines of a text: cutting and joining undo each other, no line holds a line feed, and a
pattern without a line feed occurs in a text exactly when it occurs in one of its lines. -/
namespace Javadoc.Text

@[simp] theorem splitLines_nil : splitLines [] = [[]] := rfl

@[simp] theorem splitLines_newline (t : Text) : splitLines ('\n' :: t) = [] :: splitLines t := by
  simp [splitLines]

theorem splitLines_cons {c : Char} (hc : c ≠ '\n') (t : Text) :
    ∃ l ls, splitLines t = l :: ls ∧ splitLines (c :: t) = (c :: l) :: ls := by
  cases hs : splitLines t with
  | nil => exact absurd hs (splitLines_ne_nil t)
  | cons l ls => exact ⟨l, ls, rfl, by simp [splitLines, hc, hs]⟩

/-- A text without a line feed only lengthens the first line of what follows it. -/
theorem splitLines_append_of_not_mem {x : Text} (hx : '\n' ∉ x) (t : Text) :
    ∃ l ls, splitLines t = l :: ls ∧ splitLines (x ++ t) = (x ++ l) :: ls := by
  induction x with
  | nil =>
    cases hs : splitLines t with
    | nil => exact absurd hs (splitLines_ne_nil t)
    | cons l ls => exact ⟨l, ls, rfl, by simpa using hs⟩
  | cons c cs ih =>
    simp only [List.mem_cons, not_or] at hx
    obtain ⟨l, ls, h, h'⟩ := ih hx.2
    obtain ⟨m, ms, hm, hm'⟩ := splitLines_cons (Ne.symm hx.1) (cs ++ t)
    rw [h'] at hm
    cases hm
    exact ⟨l, ls, h, hm'⟩

theorem splitLines_of_not_mem {t : Text} (ht : '\n' ∉ t) : splitLines t = [t] := by
  obtain ⟨l, ls, h, h'⟩ := splitLines_append_of_not_mem ht []
  cases h
  simpa using h'

theorem splitLines_line_append {l : Text} (hl : '\n' ∉ l) (t : Text) :
    splitLines (l ++ '\n' :: t) = l :: splitLines t := by
  obtain ⟨m, ms, h, h'⟩ := splitLines_append_of_not_mem hl ('\n' :: t)
  rw [splitLines_newline] at h
  cases h
  simpa using h'

theorem splitLines_append_newline (t u : Text) :
    splitLines (t ++ '\n' :: u) = splitLines t ++ splitLines u := by
  induction t with
  | nil => simp
  | cons c t ih =>
    by_cases hc : c = '\n'
    · rw [hc, List.cons_append, splitLines_newline, splitLines_newline, ih, List.cons_append]
    · obtain ⟨l, ls, h₁, h₂⟩ := splitLines_cons hc t
      obtain ⟨m, ms, h₃, h₄⟩ := splitLines_cons hc (t ++ '\n' :: u)
      rw [ih, h₁, List.cons_append, List.cons.injEq] at h₃
      rw [List.cons_append, h₂, h₄, ← h₃.1, ← h₃.2, List.cons_append]

theorem not_mem_of_mem_splitLines {t l : Text} (h : l ∈ splitLines t) : '\n' ∉ l := by
  induction t generalizing l with
  | nil => simp_all
  | cons c cs ih =>
    by_cases hc : c = '\n'
    · subst hc
      rw [splitLines_newline, List.mem_cons] at h
      rcases h with rfl | h
      · simp
      · exact ih h
    · obtain ⟨m, ms, hm, hm'⟩ := splitLines_cons hc cs
      rw [hm', List.mem_cons] at h
      rcases h with rfl | h
      · have := ih (l := m) (by simp [hm])
        simp [Ne.symm hc, this]
      · exact ih (by simp [hm, h])

/-- Joining lines and cutting the text again gives the lines back. -/
theorem splitLines_joinLines {ls : List Text} (h : ∀ l ∈ ls, '\n' ∉ l) (hne : ls ≠ []) :
    splitLines (joinLines ls) = ls := by
  induction ls with
  | nil => exact absurd rfl hne
  | cons l ls ih =>
    cases ls with
    | nil => exact splitLines_of_not_mem (h l (by simp))
    | cons m ms =>
      rw [joinLines_cons_cons, splitLines_line_append (h l (by simp)),
        ih (fun l hl => h l (List.mem_cons_of_mem _ hl)) (by simp)]

theorem joinLines_append {ls ms : List Text} (hl : ls ≠ []) (hm : ms ≠ []) :
    joinLines (ls ++ ms) = joinLines ls ++ '\n' :: joinLines ms := by
  induction ls with
  | nil => exact absurd rfl hl
  | cons l ls ih =>
    cases ls with
    | nil =>
      obtain ⟨m, ms, rfl⟩ := List.exists_cons_of_ne_nil hm
      exact joinLines_cons_cons l m ms
    | cons k ls =>
      have ih := ih (by simp)
      rw [List.cons_append] at ih
      rw [List.cons_append, List.cons_append, joinLines_cons_cons, ih, joinLines_cons_cons,
        List.append_assoc, List.cons_append]

/-- Whole lines that follow each other in a text stand in it as they are. -/
theorem joinLines_infix {ls : List Text} {t : Text} (h : ls <:+: splitLines t) :
    joinLines ls <:+: t := by
  obtain ⟨a, b, h⟩ := h
  rw [← joinLines_splitLines t, ← h]
  by_cases hls : ls = []
  · exact hls ▸ List.nil_infix
  · have hfront : joinLines ls <:+ joinLines (a ++ ls) := by
      by_cases ha : a = []
      · rw [ha, List.nil_append]
      · rw [joinLines_append ha hls, List.append_cons]
        exact List.suffix_append _ _
    have hback : joinLines (a ++ ls) <+: joinLines (a ++ ls ++ b) := by
      by_cases hb : b = []
      · rw [hb, List.append_nil]
      · rw [joinLines_append (by simp [hls]) hb]
        exact List.prefix_append _ _
    exact hfront.isInfix.trans hback.isInfix

theorem infix_of_mem_splitLines {t l : Text} (h : l ∈ splitLines t) : l <:+: t :=
  joinLines_infix ((List.singleton_infix_iff l _).2 h)

theorem infix_joinWith_iff {pat : Text} {sep : Char} (hp : sep ∉ pat) (hne : pat ≠ [])
    (ls : List Text) : pat <:+: joinWith [sep] ls ↔ ∃ l ∈ ls, pat <:+: l := by
  induction ls with
  | nil => simpa [joinWith] using hne
  | cons l ls ih =>
    cases ls with
    | nil => simp [joinWith]
    | cons m ms =>
      have hj : joinWith [sep] (l :: m :: ms) = l ++ sep :: joinWith [sep] (m :: ms) := by
        simp [joinWith]
      rw [hj]
      constructor
      · intro h
        rcases infix_append_cons_of_not_mem hp h with h | h
        · exact ⟨l, by simp, h⟩
        · obtain ⟨k, hk, hin⟩ := ih.1 h
          exact ⟨k, List.mem_cons_of_mem _ hk, hin⟩
      · rintro ⟨k, hk, hin⟩
        rcases List.mem_cons.1 hk with rfl | hk
        · exact hin.trans ⟨[], _, rfl⟩
        · exact (ih.2 ⟨k, hk, hin⟩).trans ⟨l ++ [sep], [], by simp⟩

theorem infix_joinLines_iff {pat : Text} (hp : '\n' ∉ pat) (hne : pat ≠ []) (ls : List Text) :
    pat <:+: joinLines ls ↔ ∃ l ∈ ls, pat <:+: l := infix_joinWith_iff hp hne ls

/-- A pattern without a line feed occurs in a text exactly when it occurs in one of its lines. -/
theorem infix_iff_line {pat : Text} (hp : '\n' ∉ pat) (hne : pat ≠ []) (t : Text) :
    pat <:+: t ↔ ∃ l ∈ splitLines t, pat <:+: l := by
  rw [← infix_joinLines_iff hp hne, joinLines_splitLines]

/-- A text either has no line feed or is cut at its first one. -/
theorem first_line_cases (t : Text) :
    '\n' ∉ t ∨ ∃ l u, t = l ++ '\n' :: u ∧ '\n' ∉ l := by
  by_cases h : '\n' ∈ t
  · obtain ⟨l, u, rfl, hl⟩ := List.eq_append_cons_of_mem h
    exact .inr ⟨l, u, rfl, hl⟩
  · exact .inl h

/-- A text either has no line feed or is cut at its last one. -/
theorem last_line_cases (t : Text) :
    '\n' ∉ t ∨ ∃ u l, t = u ++ '\n' :: l ∧ '\n' ∉ l := by
  rcases first_line_cases t.reverse with h | ⟨l, u, h, hl⟩
  · exact .inl (by simpa using h)
  · exact .inr ⟨u.reverse, l.reverse, by rw [← List.reverse_reverse t, h]; simp, by simpa using hl⟩

end Javadoc.Text
