import Javadoc.Proofs.Text.Line
import Javadoc.Template.Directive

/-! The markers of tags in a line. They do not overlap, so the first one is found where it was
written. Cutting out a directive puts nothing behind the line that is part of a marker. -/
namespace Javadoc.Template
open Text Comment

theorem mem_all (tag : Tag) : tag ∈ Tag.all := by cases tag <;> decide

/-- The characters that no marker holds. -/
theorem not_mem_marker (tag : Tag) : ' ' ∉ tag.marker ∧ '*' ∉ tag.marker ∧ '\r' ∉ tag.marker ∧
    '\n' ∉ tag.marker ∧ '\x7b' ∉ tag.marker := by
  cases tag <;> decide

theorem marker_ne_nil (tag : Tag) : tag.marker ≠ [] := by simp [Tag.marker]

theorem marker_eq (tag : Tag) : tag.marker = '<' :: (tag.name ++ ['>']) := rfl

theorem not_mem_name (tag : Tag) : '<' ∉ tag.name ++ ['>'] := by
  cases tag <;> decide

/-- An opening bracket in a marker is its first character. -/
theorem eq_nil_of_marker_eq {tag : Tag} {p q : Text} (h : tag.marker = p ++ q)
    (hq : q.head? = some '<') : p = [] := by
  cases p with
  | nil => rfl
  | cons c p =>
    rw [marker_eq, List.cons_append, List.cons.injEq] at h
    exact absurd (by rw [h.2]; exact List.mem_append_right _ (List.mem_of_mem_head? hq))
      (not_mem_name tag)

theorem eq_of_prefix_marker {s t : Tag} (h : s.marker <+: t.marker) : s = t := by
  cases s <;> cases t <;> first | rfl | exact absurd h (by decide)

theorem breakOn?_marker {tag : Tag} {before : Text} (h : ¬ tag.marker <:+: before) (after : Text) :
    breakOn? tag.marker (before ++ (tag.marker ++ after)) = some (before, after) := by
  rw [breakOn?_eq_some_iff (marker_ne_nil tag), List.append_assoc]
  refine ⟨rfl, fun hin => ?_⟩
  rcases infix_append_cases hin with hin | hin | ⟨p, q, hm, hp, hq, -, hpre⟩
  · exact h hin
  · have := hin.length_le
    have := tag.marker_length_pos
    rw [List.length_dropLast] at *
    omega
  · refine hp (eq_nil_of_marker_eq hm ?_)
    obtain ⟨c, q, rfl⟩ := List.exists_cons_of_ne_nil hq
    have hc := hpre.trans (List.dropLast_prefix _)
    rw [marker_eq, List.cons_prefix_cons] at hc
    rw [hc.1, List.head?_cons]

private theorem prefix_of_first {tag : Tag} {b a b' y : Text}
    (h : b ++ (tag.marker ++ a) = b' ++ y) (hy : y.head? = some '<')
    (hb' : ¬ tag.marker <:+: b') : b' <+: b := by
  rcases List.append_eq_append_iff.1 h with ⟨e, rfl, he⟩ | ⟨e, rfl, -⟩
  · rcases List.append_eq_append_iff.1 he with ⟨x, rfl, -⟩ | ⟨x, hm, rfl⟩
    · exact absurd ⟨b, x, by simp⟩ hb'
    · cases x with
      | nil => exact absurd ⟨b, [], by simp [hm]⟩ hb'
      | cons c x =>
        rw [eq_nil_of_marker_eq hm hy, List.append_nil]
  · exact List.prefix_append b' e

/-- The first marker of a line is one only, and stands at one place. -/
theorem first_marker_unique {s t : Tag} {b a b' a' : Text}
    (h : b ++ (s.marker ++ a) = b' ++ (t.marker ++ a')) (hb : ¬ t.marker <:+: b)
    (hb' : ¬ s.marker <:+: b') : b = b' ∧ a = a' := by
  have hbb : b = b' :=
    (prefix_of_first h.symm rfl hb).sublist.antisymm (prefix_of_first h rfl hb').sublist
  subst hbb
  have h := List.append_cancel_left h
  have hst : s = t := by
    rcases List.prefix_or_prefix_of_prefix (List.prefix_append s.marker a)
      (h ▸ List.prefix_append t.marker a') with hp | hp
    · exact eq_of_prefix_marker hp
    · exact (eq_of_prefix_marker hp).symm
  subst hst
  exact ⟨rfl, List.append_cancel_left h⟩

def closing (after : Text) : Text :=
  match breakOnLast? blockClose after with
  | some (_, rest) => ' ' :: (blockClose ++ rest)
  | none => if after.getLast? == some '\r' then ['\r'] else []

/-- A cut looks at nothing else behind the directive: decoration goes away, or stays as the
indentation of a closing delimiter. -/
theorem cutDirective_eq (before after : Text) : cutDirective before after =
    if isDecorative (trimEnd before) then
      match closing after with
      | ' ' :: rest => some (before.takeWhile isBlank ++ rest)
      | _ => none
    else some (trimEnd before ++ closing after) := by
  rw [cutDirective, closing]
  cases breakOnLast? blockClose after with
  | some found => simp
  | none =>
    by_cases hr : after.getLast? = some '\r'
    · simp [hr]
    · simp [hr]

theorem closing_cases (after : Text) :
    (¬ blockClose <:+: after ∧ (closing after = [] ∨ closing after = ['\r'])) ∨
      ∃ front rest, after = front ++ (blockClose ++ rest) ∧
        closing after = ' ' :: (blockClose ++ rest) := by
  rw [closing]
  split
  · next front rest hb =>
    exact .inr ⟨front, rest, by rw [breakOnLast?_eq_some hb, List.append_assoc], rfl⟩
  · next hb =>
    refine .inl ⟨breakOnLast?_eq_none_iff.1 hb, ?_⟩
    split
    · exact .inr rfl
    · exact .inl rfl

/-- Cutting out a directive keeps a front part of the text before it, and what stands in the line
from its last closing delimiter on. -/
theorem cutDirective_eq_some {before after kept : Text}
    (h : cutDirective before after = some kept) :
    ∃ k w, kept = k ++ w ∧ k <+: before ∧ (w = [] ∨ w = ['\r'] ∨
      ∃ front rest, after = front ++ (blockClose ++ rest) ∧
        (w = blockClose ++ rest ∨ w = ' ' :: (blockClose ++ rest))) := by
  rw [cutDirective_eq] at h
  rcases closing_cases after with ⟨-, hc⟩ | ⟨front, rest, ha, hc⟩
  · split at h
    · rcases hc with hc | hc <;> simp [hc] at h
    · cases h
      exact ⟨_, _, rfl, isPrefix_trimEnd before, hc.imp_right .inl⟩
  · rw [hc] at h
    split at h
    · cases h
      exact ⟨_, _, rfl, List.takeWhile_prefix _, .inr (.inr ⟨front, rest, ha, .inl rfl⟩)⟩
    · cases h
      exact ⟨_, _, rfl, isPrefix_trimEnd before, .inr (.inr ⟨front, rest, ha, .inr rfl⟩)⟩

theorem newline_not_mem_cutDirective {before after kept : Text} {tag : Tag}
    (h : cutDirective before after = some kept) (hn : '\n' ∉ before ++ (tag.marker ++ after)) :
    '\n' ∉ kept := by
  obtain ⟨k, w, rfl, hk, hw⟩ := cutDirective_eq_some h
  have hkn : '\n' ∉ k := fun hm => hn (by simp [hk.subset hm])
  rcases hw with rfl | rfl | ⟨front, rest, rfl, rfl | rfl⟩ <;> simp_all [blockClose]

theorem newline_not_mem_cutFromLine {tag : Tag} {line kept : Text}
    (h : cutFromLine tag line = some kept) (hn : '\n' ∉ line) : '\n' ∉ kept := by
  rw [cutFromLine] at h
  split at h
  · next before after hb =>
    rw [breakOn?_eq_some hb, List.append_assoc] at hn
    exact newline_not_mem_cutDirective h hn
  · cases h
    exact hn

/-- The directives of a line start at the first marker of one. -/
theorem splitAtMarkers_eq {line before after : Text} {condition : Condition}
    {rest : List (Condition × Text)}
    (h : CustomBody.splitAtMarkers line = (before, (condition, after) :: rest)) :
    line = before ++ (condition.tag.marker ++
      line.drop (before.length + condition.tag.marker.length)) := by
  induction line generalizing before with
  | nil => cases h
  | cons c cs ih =>
    simp only [CustomBody.splitAtMarkers] at h
    split at h
    · next found hat =>
      simp only [Prod.mk.injEq, List.cons.injEq] at h
      obtain ⟨rfl, ⟨rfl, -⟩, -⟩ := h
      have hmarker : found.tag.marker.isPrefixOf (c :: cs) := by
        simpa using List.find?_some hat
      obtain ⟨z, hz⟩ := List.isPrefixOf_iff_prefix.1 hmarker
      rw [← hz]
      simp
    · simp only [Prod.mk.injEq] at h
      obtain ⟨rfl, hfound⟩ := h
      have hcs := ih (Prod.ext rfl hfound)
      rw [List.cons_append, List.length_cons, Nat.add_right_comm, List.drop_succ_cons, ← hcs]

theorem splitAtMarkers_of_nil {line : Text} (h : (CustomBody.splitAtMarkers line).2 = []) :
    (CustomBody.splitAtMarkers line).1 = line := by
  induction line with
  | nil => rfl
  | cons c cs ih =>
    simp only [CustomBody.splitAtMarkers] at h ⊢
    split at h
    · cases h
    · exact congrArg (c :: ·) (ih h)

/-- No directive stands before the first marker of one. -/
theorem splitAtMarkers_free (line : Text) : (CustomBody.splitAtMarkers line).1 <+: line ∧
    ∀ c : Condition, ¬ c.tag.marker <:+: (CustomBody.splitAtMarkers line).1 := by
  induction line with
  | nil => exact ⟨List.nil_prefix, fun c h => marker_ne_nil c.tag (List.infix_nil.1 h)⟩
  | cons e line ih =>
    simp only [CustomBody.splitAtMarkers]
    split
    · exact ⟨List.nil_prefix, fun c h => marker_ne_nil c.tag (List.infix_nil.1 h)⟩
    · next hat =>
      have hfront := (List.prefix_cons_inj e).2 ih.1
      refine ⟨hfront, fun c hin => ?_⟩
      rcases List.infix_cons_iff.1 hin with hpre | hin
      · refine List.find?_eq_none.1 hat c (by cases c <;> decide) ?_
        exact List.isPrefixOf_iff_prefix.2 (hpre.trans hfront)
      · exact ih.2 c hin

end Javadoc.Template
