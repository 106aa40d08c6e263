import Javadoc.Template.Resolve
import Javadoc.Proofs.Sync.Encoding
import Javadoc.Proofs.Template.Markers
import Mathlib.Data.List.TakeWhile

/-! The order in which a name is entered for two tags. It does not matter exactly if the name entered
for one of them spells the other one nowhere. A parameter is then described as a field of its name
is. -/
namespace Javadoc

/-- A blank text describes nothing. -/
theorem Comment.description_of_isBlankText {t : Text} (h : Text.isBlankText t) :
    description t = [] := by
  have htrim : Text.trim t = [] := Text.trim_of_blank (by simpa [Text.isBlankText] using h)
  have hinner : inner t = [] := by
    rw [inner, htrim]
    decide
  rw [description, hinner]
  rfl

namespace Template
open Text

def spells (tag other : Tag) (value t : Text) : Bool :=
  t.tails.any fun u => other.marker.isPrefixOf (enter tag value u) && !other.marker.isPrefixOf u

private theorem spells_eq_false_iff {tag other : Tag} {value t : Text} :
    spells tag other value t = false ↔
      ∀ u, u <:+ t → other.marker <+: enter tag value u → other.marker <+: u := by
  simp [spells, List.mem_tails]

private theorem spells_cons {tag other : Tag} {value t : Text} (c : Char) :
    spells tag other value (c :: t) = false ↔
      (other.marker <+: enter tag value (c :: t) → other.marker <+: c :: t) ∧
        spells tag other value t = false := by
  simp only [spells_eq_false_iff, List.suffix_cons_iff, forall_eq_or_imp]

private theorem enter_marker (tag : Tag) (value t : Text) :
    enter tag value (tag.marker ++ t) = value ++ enter tag value t :=
  replaceAll_append _ _ _ (by simp [Tag.marker])

/-- Nothing is entered before the first opening bracket. -/
theorem enter_append {a : Text} (ha : '<' ∉ a) (tag : Tag) (value t : Text) :
    enter tag value (a ++ t) = a ++ enter tag value t := replaceAll_append_of_not_mem ha t

private theorem enter_cons {tag : Tag} {value t : Text} {c : Char} (h : ¬ tag.marker <+: c :: t) :
    enter tag value (c :: t) = c :: enter tag value t := replaceAll_cons_of_not_prefix h

section

variable {a b : Tag} {value : Text} (hne : value ≠ []) (hv : '<' ∉ value)
include hne hv

/-- Where a text starts with a tag once values were entered, an opening bracket was left alone. -/
theorem exists_of_marker_prefix {t : Text} (h : b.marker <+: enter a value t) :
    ∃ u, t = '<' :: u ∧ ¬ a.marker <+: t := by
  cases t with
  | nil => exact absurd (List.prefix_nil.1 h) (by simp [Tag.marker])
  | cons c u =>
    have hno : ¬ a.marker <+: c :: u := by
      rintro ⟨r, hr⟩
      obtain ⟨d, value, rfl⟩ := List.exists_cons_of_ne_nil hne
      rw [← hr, enter_marker, marker_eq, List.cons_append, List.cons_prefix_cons] at h
      exact hv (h.1 ▸ List.mem_cons_self)
    rw [enter_cons hno, marker_eq, List.cons_prefix_cons] at h
    exact ⟨u, by rw [h.1], hno⟩

private theorem spells_append {x : Text} (hx : '<' ∉ x) (t : Text) :
    spells a b value (x ++ t) = false ↔ spells a b value t = false := by
  induction x with
  | nil => rfl
  | cons c x ih =>
    simp only [List.mem_cons, not_or] at hx
    rw [List.cons_append, spells_cons, ih hx.2, and_iff_right]
    intro h
    obtain ⟨u, hu, -⟩ := exists_of_marker_prefix hne hv h
    exact absurd (List.cons.inj hu).1.symm hx.1

/-- The letters of a tag that a value is entered for, or that is looked for, spell nothing new. -/
theorem spells_marker {c : Tag} (hc : c = a ∨ c = b) (t : Text) :
    spells a b value (c.marker ++ t) = false ↔ spells a b value t = false := by
  rw [marker_eq, List.cons_append, spells_cons, spells_append hne hv (not_mem_name c),
    and_iff_right]
  intro h
  obtain ⟨u, -, hno⟩ := exists_of_marker_prefix hne hv h
  rcases hc with rfl | rfl
  · exact absurd ⟨t, rfl⟩ hno
  · exact ⟨t, rfl⟩

variable (hab : a.marker.take 2 ≠ b.marker.take 2)
include hab

omit hne hv in
private theorem not_marker_prefix {t : Text} (ha : a.marker <+: t) :
    ¬ b.marker <+: t := fun hb => by
  have htake {c : Tag} (h : c.marker <+: t) : c.marker.take 2 = t.take 2 := by
    obtain ⟨r, rfl⟩ := h
    rw [List.take_append_of_le_length (by simp [Tag.marker])]
  exact hab ((htake ha).trans (htake hb).symm)

omit hne in
/-- A tag in front is filled in the same way whichever is entered first. -/
theorem enter_enter_marker (t : Text) :
    enter b value (enter a value (a.marker ++ t)) = value ++ enter b value (enter a value t) ∧
      enter a value (enter b value (a.marker ++ t)) = value ++ enter a value (enter b value t) := by
  have hskip : enter b value (a.marker ++ t) = a.marker ++ enter b value t := by
    have hno : ¬ b.marker <+: '<' :: (a.name ++ ['>'] ++ t) :=
      not_marker_prefix hab (List.prefix_append a.marker t)
    rw [marker_eq a, List.cons_append, enter_cons hno, enter_append (not_mem_name a),
      List.cons_append]
  rw [enter_marker, enter_append hv, hskip, enter_marker]
  exact ⟨rfl, rfl⟩

omit hne hv in
/-- At one place one of the tags is spelled at most: the letters behind the bracket tell which. -/
theorem not_spelled_twice {c : Char} {t : Text} (hb : b.marker <+: c :: enter a value t) :
    ¬ a.marker <+: c :: enter b value t := by
  intro ha
  have hsecond {d e : Tag} (h : d.marker <+: c :: enter e value t) : ∃ x,
      (enter e value t).head? = some x ∧ d.marker.take 2 = [c, x] ∧ x ≠ '<' := by
    obtain ⟨r, hr⟩ := h
    obtain ⟨x, n, hn⟩ := List.exists_cons_of_ne_nil (l := d.name ++ ['>']) (by simp)
    rw [marker_eq, hn, List.cons_append, List.cons_append, List.cons.injEq] at hr
    refine ⟨x, by rw [← hr.2]; rfl, by rw [marker_eq, hn, hr.1]; rfl, fun hx => ?_⟩
    exact not_mem_name d (hn ▸ hx ▸ List.mem_cons_self)
  obtain ⟨x, hx, hbx, hx'⟩ := hsecond hb
  obtain ⟨y, hy, hay, hy'⟩ := hsecond ha
  have hhead {d : Tag} {z : Char} (hz : (enter d value t).head? = some z) :
      d.marker <+: t ∨ t.head? = some z := by
    cases t with
    | nil => exact .inr hz
    | cons u t =>
      by_cases hd : d.marker <+: u :: t
      · exact .inl hd
      · exact .inr (by simpa [enter_cons hd] using hz)
  have hopen {d : Tag} {z : Char} (h : d.marker <+: t) (hz : t.head? = some z) : z = '<' := by
    obtain ⟨r, rfl⟩ := h
    simpa [marker_eq, eq_comm] using hz
  rcases hhead hx with hma | hx <;> rcases hhead hy with hmb | hy
  · exact not_marker_prefix hab hma hmb
  · exact hy' (hopen hma hy)
  · exact hx' (hopen hmb hx)
  · exact hab (by rw [hay, hbx, Option.some.inj (hy.symm.trans hx)])

/-- A tag that the value entered for the other one spells is filled in one of the orders only. -/
theorem enter_enter_ne {c : Char} {t : Text} (hb : b.marker <+: c :: enter a value t) :
    enter b value (c :: enter a value t) ≠ enter a value (c :: enter b value t) := by
  intro h
  rw [enter_cons (not_spelled_twice hab hb)] at h
  obtain ⟨r, hr⟩ := hb
  obtain ⟨d, value, rfl⟩ := List.exists_cons_of_ne_nil hne
  rw [← hr, enter_marker, List.cons_append] at h
  obtain rfl : '<' = c := (List.cons.inj hr).1
  exact hv ((List.cons.inj h).1 ▸ List.mem_cons_self)

/-- It does not matter which of two tags a value is entered for first exactly if it spells neither of
them. -/
theorem enter_comm_iff (t : Text) :
    enter b value (enter a value t) = enter a value (enter b value t) ↔
      spells a b value t = false ∧ spells b a value t = false := by
  obtain ⟨n, hn⟩ : ∃ n, t.length ≤ n := ⟨_, Nat.le_refl _⟩
  induction n generalizing t with
  | zero =>
    obtain rfl : t = [] := List.length_eq_zero_iff.1 (by omega)
    simp [enter, replaceAll, replaceFrom, spells_eq_false_iff]
  | succ n ih =>
    by_cases ha : a.marker <+: t
    · obtain ⟨t, rfl⟩ := ha
      have hlen : t.length ≤ n := by
        have := a.marker_length_pos
        simp only [List.length_append] at hn
        omega
      rw [(enter_enter_marker hv hab t).1, (enter_enter_marker hv hab t).2,
        List.append_cancel_left_eq, spells_marker hne hv (.inl rfl), spells_marker hne hv (.inr rfl), ih t hlen]
    · by_cases hb : b.marker <+: t
      · obtain ⟨t, rfl⟩ := hb
        have hlen : t.length ≤ n := by
          have := b.marker_length_pos
          simp only [List.length_append] at hn
          omega
        rw [(enter_enter_marker hv hab.symm t).1, (enter_enter_marker hv hab.symm t).2,
          List.append_cancel_left_eq, spells_marker hne hv (.inl rfl),
          spells_marker hne hv (.inr rfl), ih t hlen]
      · cases t with
        | nil => simp [enter, replaceAll, replaceFrom, spells_eq_false_iff]
        | cons c t =>
          rw [enter_cons ha, enter_cons hb, spells_cons, spells_cons, enter_cons ha, enter_cons hb]
          by_cases hsb : b.marker <+: c :: enter a value t
          · exact iff_of_false (enter_enter_ne hne hv hab hsb) fun h => hb (h.1.1 hsb)
          · by_cases hsa : a.marker <+: c :: enter b value t
            · exact iff_of_false (enter_enter_ne hne hv hab.symm hsa).symm fun h => ha (h.2.1 hsa)
            · rw [enter_cons hsb, enter_cons hsa, List.cons_inj_right, ih t (by simpa using hn)]
              simp [hsb, hsa]

example : spells .className .subject "i".toList "<<className>nstance>".toList := by decide

end

/-- Whether a name entered for one of the two tags that fields have spells the other one nowhere. -/
def entersApart (name template : Text) : Bool :=
  !spells .className .subject name template && !spells .subject .className name template

/-- A parameter is described as a field of its name is, unless the name entered for one tag spells
the other one; then, and only then, the two texts that are described differ. -/
theorem parameterDescription_eq_description (fields? : Option Text) (template : Text) {name : Text}
    (hne : name ≠ []) (hv : '<' ∉ name) :
    (enter .className name (enter .subject name template) = fill fields? (.field name) template ↔
        entersApart name template) ∧
      (entersApart name template → parameterDescription (some template) name =
        ((comment? fields? template (.field name)).map Comment.description).getD []) := by
  have hiff : enter .className name (enter .subject name template) =
      fill fields? (.field name) template ↔ entersApart name template := by
    rw [fill, eq_comm, enter_comm_iff hne hv (by decide)]
    simp [entersApart]
  refine ⟨hiff, fun h => ?_⟩
  simp only [parameterDescription, hiff.2 h, comment?]
  split
  · next hblank => rw [Comment.description_of_isBlankText hblank, Option.map_none, Option.getD_none]
  · rw [Option.map_some, Option.getD_some]

/-- Tags in brackets of their own, and a name that is the name of a tag. -/
theorem parameterDescription_eq_description_brackets :
    let template := "/**\n * <<instance> of <className>>\r\n * @since <instance>\n */".toList
    let name := "className".toList
    name ≠ [] ∧ '<' ∉ name ∧ entersApart name template ∧
      parameterDescription (some template) name = "<className of className>".toList ∧
      parameterDescription (some template) name =
        ((comment? none template (.field name)).map Comment.description).getD [] := by
  intro template name
  have hne : name ≠ [] := by decide
  have hv : '<' ∉ name := by decide
  have h : entersApart name template := by decide
  exact ⟨hne, hv, h, by decide +kernel,
    (parameterDescription_eq_description none template hne hv).2 h⟩

end Template
end Javadoc
