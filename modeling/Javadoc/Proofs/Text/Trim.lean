import Javadoc.Text.Basic
import Mathlib.Data.List.TakeWhile

/-! Trimming: what is dropped at the ends of a text, and when an end of two texts put together is
an end of one of them. -/
namespace Javadoc.Text

theorem isBlankText_iff {t : Text} : isBlankText t ↔ ∀ c ∈ t, isBlank c := List.all_eq_true

/-- A text is cut where the first character that is not of the class stands. -/
theorem span_append {p : Char → Bool} {l r : Text} (hl : ∀ c ∈ l, p c)
    (hr : ∀ c ∈ r.head?, p c = false) :
    (l ++ r).takeWhile p = l ∧ (l ++ r).dropWhile p = r := by
  rw [List.takeWhile_append_of_pos hl, List.dropWhile_append_of_pos hl]
  cases r with
  | nil => simp
  | cons c r => simp [hr c rfl]

theorem stripPrefix?_eq_some_iff {lead t r : Text} :
    stripPrefix? lead t = some r ↔ t = lead ++ r := by
  constructor
  · intro h
    unfold stripPrefix? at h
    split at h
    · next hp =>
      obtain ⟨z, rfl⟩ := List.isPrefixOf_iff_prefix.1 hp
      obtain rfl := Option.some.inj h
      simp
    · cases h
  · rintro rfl
    rw [stripPrefix?, if_pos (List.isPrefixOf_iff_prefix.2 (List.prefix_append lead r)),
      List.drop_left]

private theorem dropEndWhile_prefix (p : Char → Bool) (t : Text) : dropEndWhile p t <+: t := by
  induction t with
  | nil => simp [dropEndWhile]
  | cons c cs ih =>
    unfold dropEndWhile
    split
    · split <;> simp
    · next d ds h => simpa [← h] using ih

theorem isPrefix_trimEnd (t : Text) : trimEnd t <+: t := dropEndWhile_prefix _ t

theorem dropEndWhile_append (p : Char → Bool) (t : Text) :
    ∃ b, t = dropEndWhile p t ++ b ∧ ∀ c ∈ b, p c := by
  induction t with
  | nil => exact ⟨[], rfl, by simp⟩
  | cons c t ih =>
    obtain ⟨b, hb, hp⟩ := ih
    unfold dropEndWhile
    split
    · next h =>
      rw [h] at hb
      split
      · next hc =>
        refine ⟨c :: b, by rw [List.nil_append, hb, List.nil_append], fun d hd => ?_⟩
        rcases List.mem_cons.1 hd with rfl | hd
        · exact hc
        · exact hp d hd
      · exact ⟨b, by simp [← hb], hp⟩
    · next d ds h => exact ⟨b, by rw [← h, List.cons_append, ← hb], hp⟩

theorem getLast?_dropEndWhile (p : Char → Bool) (t : Text) :
    ∀ c ∈ (dropEndWhile p t).getLast?, p c = false := by
  induction t with
  | nil => simp [dropEndWhile]
  | cons c t ih =>
    unfold dropEndWhile
    split
    · split
      · simp
      · next hc => simpa using hc
    · next d ds h =>
      rw [h] at ih
      simpa [List.getLast?_cons_cons] using ih

/-- What trimming takes away is blank. -/
theorem trim_spec (t : Text) :
    ∃ a b, t = a ++ (trim t ++ b) ∧ (∀ c ∈ a, isBlank c) ∧ ∀ c ∈ b, isBlank c := by
  obtain ⟨b, hb, hp⟩ := dropEndWhile_append isBlank (trimStart t)
  refine ⟨t.takeWhile isBlank, b, ?_, fun c hc => ?_, hp⟩
  · rw [trim, trimEnd, ← hb, trimStart, List.takeWhile_append_dropWhile]
  · simpa using List.all_takeWhile (p := isBlank) (l := t) |> List.all_eq_true.1 |> (· c hc)

private theorem dropEndWhile_eq_nil {p : Char → Bool} {t : Text} (h : ∀ c ∈ t, p c) :
    dropEndWhile p t = [] := by
  induction t with
  | nil => rfl
  | cons c t ih =>
    rw [dropEndWhile, ih fun d hd => h d (List.mem_cons_of_mem c hd)]
    exact if_pos (h c List.mem_cons_self)

private theorem dropEndWhile_append_right {p : Char → Bool} {b : Text} (hb : ∀ c ∈ b, p c)
    (t : Text) :
    dropEndWhile p (t ++ b) = dropEndWhile p t := by
  induction t with
  | nil => exact dropEndWhile_eq_nil hb
  | cons c t ih => rw [List.cons_append, dropEndWhile, dropEndWhile, ih]

private theorem dropEndWhile_append_left {p : Char → Bool} {t : Text} (ht : dropEndWhile p t ≠ [])
    (a : Text) : dropEndWhile p (a ++ t) = a ++ dropEndWhile p t := by
  obtain ⟨d, ds, hd⟩ := List.exists_cons_of_ne_nil ht
  induction a with
  | nil => rfl
  | cons c a ih =>
    rw [List.cons_append, dropEndWhile, ih]
    cases a with
    | nil => rw [hd]; rfl
    | cons e a => rfl

/-- Nothing is dropped before a character that is not of the class. -/
theorem dropEndWhile_append_cons {p : Char → Bool} {c : Char} (hc : p c = false) (a t : Text) :
    dropEndWhile p (a ++ c :: t) = a ++ c :: dropEndWhile p t := by
  have hcons : dropEndWhile p (c :: t) = c :: dropEndWhile p t := by
    rw [dropEndWhile]
    cases dropEndWhile p t <;> simp [hc]
  rw [dropEndWhile_append_left (by simp [hcons]), hcons]

theorem trim_append_left {a : Text} (ha : ∀ c ∈ a, isBlank c) (t : Text) :
    trim (a ++ t) = trim t := by
  rw [trim, trimStart, List.dropWhile_append_of_pos ha, ← trimStart, ← trim]

theorem trim_of_blank {t : Text} (h : ∀ c ∈ t, isBlank c) : trim t = [] := by
  rw [trim, trimStart, List.dropWhile_eq_nil_iff.2 h]
  rfl

theorem trim_append_right {b : Text} (hb : ∀ c ∈ b, isBlank c) (t : Text) :
    trim (t ++ b) = trim t := by
  rw [trim, trimStart, List.dropWhile_append]
  split
  · next h =>
    rw [List.isEmpty_iff] at h
    rw [List.dropWhile_eq_nil_iff.2 hb, trim, trimStart, h]
  · rw [trimEnd, dropEndWhile_append_right hb]
    rfl

theorem trim_trim (t : Text) : trim (trim t) = trim t := by
  obtain ⟨a, b, ht, ha, hb⟩ := trim_spec t
  have h := congrArg trim ht
  rw [trim_append_left ha, trim_append_right hb] at h
  exact h.symm

/-- Trimming a text goes on at its ends alone, unless they are blank. -/
theorem trim_append_append {x y : Text} (hx : trimStart x ≠ []) (hy : trimEnd y ≠ []) (z : Text) :
    trim (x ++ (z ++ y)) = trimStart x ++ (z ++ trimEnd y) := by
  have hx' : (trimStart x).isEmpty = false := by simpa using hx
  rw [trimStart] at hx'
  rw [trim, trimStart, List.dropWhile_append, hx', if_neg (by simp), ← List.append_assoc, trimEnd,
    dropEndWhile_append_left hy, List.append_assoc]
  rfl

end Javadoc.Text
