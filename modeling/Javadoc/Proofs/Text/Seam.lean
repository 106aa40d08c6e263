import Javadoc.Proofs.Text.Pattern

/-! The place where two texts meet: when no occurrence of a pattern can lie across it, searching and
replacing go on in each of the two texts alone. -/
namespace Javadoc.Text

def Apart (pat x y : Text) : Prop :=
  ∀ p q, pat = p ++ q → p ≠ [] → q ≠ [] → p <:+ x → ¬ q <+: y

variable {pat value x y : Text}

/-- Only the first character of the pattern may start the second text. -/
theorem apart_of_head (h : ∀ c ∈ y.head?, c ∉ pat.tail) : Apart pat x y := by
  rintro p q rfl hp hq - ⟨z, rfl⟩
  obtain ⟨c, p, rfl⟩ := List.exists_cons_of_ne_nil hp
  obtain ⟨d, q, rfl⟩ := List.exists_cons_of_ne_nil hq
  exact h d rfl (by simp)

/-- Only the last character of the pattern may end the first text. -/
theorem apart_of_getLast (h : ∀ c ∈ x.getLast?, c ∉ pat.dropLast) : Apart pat x y := by
  rintro p q rfl hp hq ⟨z, rfl⟩ -
  rcases List.eq_nil_or_concat p with rfl | ⟨p, c, rfl⟩
  · exact hp rfl
  · refine h c (by simp) ?_
    rw [List.dropLast_append_of_ne_nil hq]
    simp

/-- A pattern does not start in a text without its first character. -/
theorem apart_of_not_mem {c : Char} (hc : c ∉ x) : Apart (c :: pat) x y := by
  intro p q hpq hp _ hx _
  obtain ⟨d, p, rfl⟩ := List.exists_cons_of_ne_nil hp
  obtain ⟨rfl, -⟩ := List.cons_eq_cons.1 hpq
  exact hc (hx.subset List.mem_cons_self)

private theorem Apart.of_cons {c : Char} (h : Apart pat (c :: x) y) : Apart pat x y :=
  fun p q hpq hp hq hx => h p q hpq hp hq (hx.trans (List.suffix_cons c x))

private theorem Apart.infix_append_iff (h : Apart pat x y) :
    pat <:+: x ++ y ↔ pat <:+: x ∨ pat <:+: y := by
  refine ⟨fun hin => ?_, ?_⟩
  · rcases infix_append_cases hin with hin | hin | ⟨p, q, hpq, hp, hq, hx, hy⟩
    · exact .inl hin
    · exact .inr hin
    · exact absurd hy (h p q hpq hp hq hx)
  · rintro (hin | hin)
    · exact hin.trans (List.prefix_append x y).isInfix
    · exact hin.trans (List.suffix_append x y).isInfix

private theorem Apart.prefix_of_prefix_append (h : Apart pat x y) (hx : x ≠ [])
    (hp : pat <+: x ++ y) :
    pat <+: x := by
  rcases List.prefix_or_prefix_of_prefix hp (List.prefix_append x y) with h' | ⟨q, rfl⟩
  · exact h'
  · by_cases hq : q = []
    · simp [hq]
    · exact absurd ((List.prefix_append_right_inj x).1 hp) (h x q rfl hx hq (List.suffix_refl x))

/-- A replacement goes on behind the place as at the start of a text. -/
theorem Apart.replaceAll_append (hp : pat ≠ []) (h : Apart pat x y) :
    replaceAll pat value (x ++ y) = replaceAll pat value x ++ replaceAll pat value y := by
  induction hn : x.length using Nat.strong_induction_on generalizing x with
  | _ n ih =>
  cases x with
  | nil => rfl
  | cons c x =>
    by_cases hpre : pat <+: c :: x
    · obtain ⟨r, hr⟩ := hpre
      have hlen : r.length < n := by
        have := List.length_pos_iff.2 hp
        rw [← hn, ← hr, List.length_append]
        omega
      have hrest : Apart pat r y := fun p q hpq hp' hq hs =>
        h p q hpq hp' hq (hs.trans ⟨pat, hr⟩)
      rw [← hr, List.append_assoc, Text.replaceAll_append _ _ _ hp, Text.replaceAll_append _ _ _ hp,
        ih r.length hlen hrest rfl, List.append_assoc]
    · have hlonger : ¬ pat <+: c :: (x ++ y) := fun hlong =>
        hpre (h.prefix_of_prefix_append (by simp) hlong)
      rw [List.cons_append, replaceAll_cons_of_not_prefix hlonger,
        replaceAll_cons_of_not_prefix hpre, ih x.length (by simp [← hn]) h.of_cons rfl,
        List.cons_append]

/-- Where a pattern meets neither what is replaced nor what is put in its place, it occurs in the
outcome if it does in the text, or in a value that is put there. -/
theorem infix_replaceAll_iff {other : Text} (hp : pat ≠ []) (hfirst : ∀ c ∈ pat.head?, c ∉ other)
    (hlast : ∀ c ∈ pat.getLast?, c ∉ other) (hin : ¬ other <:+: pat)
    (hbefore : ∀ x z, Apart other x (value ++ z)) (hafter : ∀ z, Apart other value z) (t : Text) :
    other <:+: replaceAll pat value t ↔ other <:+: t ∨ pat <:+: t ∧ other <:+: value := by
  induction hn : t.length using Nat.strong_induction_on generalizing t with
  | _ n ih =>
  rw [replaceAll_eq _ _ hp]
  cases h : breakOn? pat t with
  | none => simp [breakOn?_eq_none_iff.1 h]
  | some cut =>
    obtain ⟨before, after⟩ := cut
    obtain rfl := breakOn?_eq_some h
    have hshort : after.length < n := by
      have := List.length_pos_iff.2 hp
      simp only [List.length_append] at hn
      omega
    have hfront : Apart other before (pat ++ after) := apart_of_head fun c hc hmem => by
      obtain ⟨d, ds, rfl⟩ := List.exists_cons_of_ne_nil hp
      exact hfirst c hc (List.mem_of_mem_tail hmem)
    have hback : Apart other pat after := apart_of_getLast fun c hc hmem =>
      hlast c hc (List.mem_of_mem_dropLast hmem)
    have hoccurs : pat <:+: before ++ pat ++ after := ⟨before, after, rfl⟩
    have hrest := ih after.length hshort after rfl
    simp only [hoccurs, true_and]
    rw [(hbefore before _).infix_append_iff, (hafter _).infix_append_iff, hrest, List.append_assoc,
      hfront.infix_append_iff, hback.infix_append_iff]
    tauto

end Javadoc.Text
