import Javadoc.Text.Search
import Mathlib.Data.List.Infix

/-! Occurrences of a pattern: searching finds one exactly when the pattern is an infix, and the
first one found lies before every other. -/
namespace Javadoc.Text

theorem breakOn?_isSome_iff (pat t : Text) : (breakOn? pat t).isSome ↔ pat <:+: t := by
  induction t with
  | nil =>
    simp only [breakOn?]
    split
    · next h => simp [List.isEmpty_iff.1 h]
    · next h => simpa [List.isEmpty_iff] using h
  | cons c cs ih =>
    simp only [breakOn?]
    rw [List.infix_cons_iff, ← List.isPrefixOf_iff_prefix]
    split
    · next h => simp [h]
    · next h => simp [h, ih]

theorem includes_iff {pat t : Text} : includes pat t = true ↔ pat <:+: t := breakOn?_isSome_iff pat t

theorem includes_eq_false_iff {pat t : Text} : includes pat t = false ↔ ¬ pat <:+: t := by
  rw [← includes_iff, Bool.not_eq_true]

theorem breakOn?_eq_none_iff {pat t : Text} : breakOn? pat t = none ↔ ¬ pat <:+: t := by
  rw [← breakOn?_isSome_iff, Option.not_isSome_iff_eq_none]

/-- The occurrence found is the first one. -/
theorem breakOn?_first {pat t before after : Text} (h : breakOn? pat t = some (before, after))
    {b a : Text} (ht : t = b ++ pat ++ a) : before.length ≤ b.length := by
  induction t generalizing before b with
  | nil =>
    have := congrArg List.length (breakOn?_eq_some h)
    simp only [List.length_append, List.length_nil] at this
    omega
  | cons c cs ih =>
    simp only [breakOn?] at h
    split at h
    · cases h; simp
    · next hp =>
      obtain ⟨⟨b', a'⟩, hb, he⟩ := Option.map_eq_some_iff.1 h
      cases he
      cases b with
      | nil => exact absurd (List.isPrefixOf_iff_prefix.2 ⟨a, by simpa using ht.symm⟩) hp
      | cons d ds =>
        simp only [List.cons_append, List.cons.injEq] at ht
        simpa using ih hb ht.2

/-- No occurrence starts before the first one. -/
theorem not_infix_before {pat t before after : Text} (h : breakOn? pat t = some (before, after))
    (hp : pat ≠ []) : ¬ pat <:+: before := by
  rintro ⟨b, a, rfl⟩
  have ht := breakOn?_eq_some h
  have := breakOn?_first h (b := b) (a := a ++ pat ++ after) (by rw [ht]; simp)
  have hpos := List.length_pos_iff.2 hp
  simp only [List.length_append] at this
  omega

/-- Searching finds the only occurrence that no other one starts before. -/
theorem breakOn?_eq_some_iff {pat t before after : Text} (hp : pat ≠ []) :
    breakOn? pat t = some (before, after) ↔
      t = before ++ pat ++ after ∧ ¬ pat <:+: before ++ pat.dropLast := by
  have hlen : pat.dropLast.length + 1 = pat.length := by
    have := List.length_pos_iff.2 hp
    simp only [List.length_dropLast]
    omega
  constructor
  · intro h
    refine ⟨breakOn?_eq_some h, ?_⟩
    rintro ⟨b, a, hb⟩
    have ht := breakOn?_eq_some h
    have := breakOn?_first h (b := b) (a := a ++ [pat.getLast hp] ++ after) (by
      rw [ht]
      conv_lhs => rw [← List.dropLast_append_getLast hp]
      simp only [← List.append_assoc, hb])
    have := congrArg List.length hb
    simp only [List.length_append] at this
    omega
  · rintro ⟨rfl, hno⟩
    cases h : breakOn? pat (before ++ pat ++ after) with
    | none => exact absurd ⟨before, after, rfl⟩ (breakOn?_eq_none_iff.1 h)
    | some found =>
      obtain ⟨b, a⟩ := found
      have hle := breakOn?_first h rfl
      have he := breakOn?_eq_some h
      rcases Nat.lt_or_ge b.length before.length with hlt | hge
      · refine absurd ?_ hno
        refine List.IsInfix.trans ⟨b, [], List.append_nil _⟩ (List.IsPrefix.isInfix ?_)
        refine @List.prefix_of_prefix_length_le Char _ _ (before ++ pat ++ after) ⟨a, he.symm⟩ ?_ ?_
        · refine ⟨[pat.getLast hp] ++ after, ?_⟩
          conv_rhs => rw [← List.dropLast_append_getLast hp]
          simp
        · simp only [List.length_append]
          omega
      · obtain ⟨rfl, he⟩ := List.append_inj (by simpa using he) (by omega : before.length = b.length)
        simpa using he.symm

/-- An infix of two texts put together lies in one of them or across the place where they meet. -/
theorem infix_append_cases {pat x y : Text} (h : pat <:+: x ++ y) :
    pat <:+: x ∨ pat <:+: y ∨ ∃ p q, pat = p ++ q ∧ p ≠ [] ∧ q ≠ [] ∧ p <:+ x ∧ q <+: y := by
  obtain ⟨b, a, h⟩ := h
  rw [List.append_assoc] at h
  rcases List.append_eq_append_iff.1 h with ⟨x', rfl, h'⟩ | ⟨b', rfl, rfl⟩
  · rcases List.append_eq_append_iff.1 h' with ⟨x'', rfl, rfl⟩ | ⟨p', rfl, rfl⟩
    · exact .inl ⟨b, x'', by simp⟩
    · cases x' with
      | nil => exact .inr (.inl ⟨[], a, by simp⟩)
      | cons c cs =>
        cases p' with
        | nil => exact .inl ⟨b, [], by simp⟩
        | cons d ds => exact .inr (.inr ⟨c :: cs, d :: ds, rfl, by simp, by simp, ⟨b, rfl⟩, ⟨a, rfl⟩⟩)
  · exact .inr (.inl ⟨b', a, by simp⟩)

/-- A pattern without the character at which two texts meet lies in one of them. -/
theorem infix_append_cons_of_not_mem {pat x y : Text} {c : Char} (hc : c ∉ pat)
    (h : pat <:+: x ++ c :: y) : pat <:+: x ∨ pat <:+: y := by
  rcases infix_append_cases h with h | h | ⟨p, q, rfl, -, hq, -, hy⟩
  · exact .inl h
  · rcases List.infix_cons_iff.1 h with h | h
    · cases pat with
      | nil => exact .inl List.nil_infix
      | cons d ds => exact absurd (by simp [(List.cons_prefix_cons.1 h).1]) hc
    · exact .inr h
  · cases q with
    | nil => exact absurd rfl hq
    | cons d ds => exact absurd (by simp [(List.cons_prefix_cons.1 hy).1]) hc

theorem infix_of_append_left {pat g x : Text} (hp : pat ≠ []) (hg : ∀ c ∈ g, c ∉ pat)
    (h : pat <:+: g ++ x) : pat <:+: x := by
  induction g with
  | nil => exact h
  | cons c g ih =>
    refine ih (fun d hd => hg d (List.mem_cons_of_mem _ hd)) ?_
    rcases infix_append_cons_of_not_mem (x := []) (hg c List.mem_cons_self) h with h | h
    · exact absurd (List.infix_nil.1 h) hp
    · exact h

theorem infix_of_append_right {pat g x : Text} (hp : pat ≠ []) (hg : ∀ c ∈ g, c ∉ pat)
    (h : pat <:+: x ++ g) : pat <:+: x := by
  cases g with
  | nil => simpa using h
  | cons c g =>
    rcases infix_append_cons_of_not_mem (hg c List.mem_cons_self) h with h | h
    · exact h
    · have := infix_of_append_left (x := []) hp (fun d hd => hg d (List.mem_cons_of_mem _ hd))
        (by simpa using h)
      exact absurd (List.infix_nil.1 this) hp

theorem suffix_append_cases {s x y : Text} (h : s <:+ x ++ y) :
    s <:+ y ∨ ∃ t, t ≠ [] ∧ t <:+ x ∧ s = t ++ y := by
  rcases List.suffix_or_suffix_of_suffix h (List.suffix_append x y) with h' | ⟨t, rfl⟩
  · exact .inl h'
  · cases t with
    | nil => exact .inl (List.suffix_refl _)
    | cons c t =>
      obtain ⟨z, hz⟩ := h
      rw [← List.append_assoc] at hz
      exact .inr ⟨c :: t, by simp, ⟨z, List.append_cancel_right hz⟩, rfl⟩

/-- A front without the first character of what follows it is the front of what precedes that. -/
theorem prefix_of_prefix_append {p x y : Text} (h : p <+: x ++ y) (hy : ∀ c ∈ y.head?, c ∉ p) :
    p <+: x := by
  rcases List.prefix_or_prefix_of_prefix h (List.prefix_append x y) with h' | ⟨q, rfl⟩
  · exact h'
  · cases q with
    | nil => simp
    | cons c q =>
      have hq : c :: q <+: y := (List.prefix_append_right_inj x).1 h
      obtain ⟨z, rfl⟩ := hq
      exact absurd (by simp) (hy c (by simp))

/-- An end without a character is an end of what follows that. -/
theorem suffix_of_suffix_cons {s x y : Text} {c : Char} (h : s <:+ x ++ c :: y) (hc : c ∉ s) :
    s <:+ y := by
  rw [List.append_cons] at h
  rcases suffix_append_cases h with h' | ⟨t, hne, ht, rfl⟩
  · exact h'
  · obtain ⟨z, hz⟩ := ht
    rcases List.eq_nil_or_concat t with rfl | ⟨t, d, rfl⟩
    · exact absurd rfl hne
    · have hd : d = c := by
        have := congrArg List.getLast? hz
        simpa using this
      exact absurd (by simp [hd]) hc

private theorem breakOnLast?_isSome_iff (pat t : Text) :
    (breakOnLast? pat t).isSome ↔ pat <:+: t := by
  induction t with
  | nil =>
    simp only [breakOnLast?]
    split
    · next h => simp [List.isEmpty_iff.1 h]
    · next h => simpa [List.isEmpty_iff] using h
  | cons c cs ih =>
    simp only [breakOnLast?]
    rw [List.infix_cons_iff, ← List.isPrefixOf_iff_prefix, ← ih]
    split
    · next h => simp [h]
    · next h =>
      rw [h]
      split <;> simp_all

/-- The last occurrence is looked for from the end: what stands before it does not matter. -/
theorem breakOnLast?_append_iff {pat before after : Text} (x y : Text) :
    breakOnLast? pat (x ++ y) = some (x ++ before, after) ↔
      breakOnLast? pat y = some (before, after) := by
  induction x with
  | nil => rfl
  | cons c x ih =>
    rw [← ih, List.cons_append, List.cons_append, breakOnLast?]
    split
    · next b a hb => simp [hb]
    · next hb =>
      rw [hb]
      split <;> simp

theorem breakOnLast?_eq_none_iff {pat t : Text} : breakOnLast? pat t = none ↔ ¬ pat <:+: t := by
  rw [← breakOnLast?_isSome_iff, Option.not_isSome_iff_eq_none]

/-- Replacing goes from the first occurrence on. -/
theorem replaceAll_eq (pat value : Text) (hp : pat ≠ []) (t : Text) :
    replaceAll pat value t = match breakOn? pat t with
      | none => t
      | some (before, after) => before ++ (value ++ replaceAll pat value after) := by
  induction t with
  | nil => simp [replaceAll, replaceFrom, breakOn?, hp]
  | cons c cs ih =>
    rw [breakOn?, replaceAll, replaceFrom]
    split
    · rw [replaceFrom_eq_drop]
      obtain ⟨d, pat, rfl⟩ := List.exists_cons_of_ne_nil hp
      rfl
    · rw [← replaceAll, ih]
      cases breakOn? pat cs <;> simp

theorem replaceAll_eq_self {pat value t : Text} (hp : pat ≠ []) (h : ¬ pat <:+: t) :
    replaceAll pat value t = t := by
  rw [replaceAll_eq _ _ hp, breakOn?_eq_none_iff.2 h]

theorem replaceAll_append (pat value t : Text) (hp : pat ≠ []) :
    replaceAll pat value (pat ++ t) = value ++ replaceAll pat value t := by
  obtain ⟨c, cs, rfl⟩ := List.exists_cons_of_ne_nil hp
  have h : (c :: cs).isPrefixOf (c :: (cs ++ t)) :=
    List.isPrefixOf_iff_prefix.2 (List.prefix_append (c :: cs) t)
  rw [List.cons_append, replaceAll, replaceFrom, if_pos h, replaceFrom_eq_drop]
  simp

theorem replaceAll_cons_of_not_prefix {pat value t : Text} {c : Char} (h : ¬ pat <+: c :: t) :
    replaceAll pat value (c :: t) = c :: replaceAll pat value t := by
  rw [← List.isPrefixOf_iff_prefix] at h
  rw [replaceAll, replaceFrom, if_neg h]
  rfl

/-- Nothing is replaced where the pattern does not start. -/
theorem replaceAll_append_of_not_mem {d : Char} {pat value a : Text} (h : d ∉ a) (t : Text) :
    replaceAll (d :: pat) value (a ++ t) = a ++ replaceAll (d :: pat) value t := by
  induction a with
  | nil => rfl
  | cons c a ih =>
    simp only [List.mem_cons, not_or] at h
    have hp : ¬ d :: pat <+: c :: (a ++ t) := fun hp => h.1 (List.cons_prefix_cons.1 hp).1
    rw [List.cons_append, replaceAll_cons_of_not_prefix hp, ih h.2, List.cons_append]

end Javadoc.Text
