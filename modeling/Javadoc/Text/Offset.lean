import Javadoc.Text.Basic

/-! Byte offsets into the UTF-8 form of a text. Cutting at an offset fails inside a character. -/
namespace Javadoc.Text

def size : Text → Nat
  | [] => 0
  | c :: cs => c.utf8Size + size cs

def splitAtByte? : Nat → Text → Option (Text × Text)
  | 0, t => some ([], t)
  | _ + 1, [] => none
  | n + 1, c :: cs =>
    if c.utf8Size ≤ n + 1 then
      (splitAtByte? (n + 1 - c.utf8Size) cs).map fun (before, after) => (c :: before, after)
    else none

def isBoundary : Nat → Text → Bool
  | 0, _ => true
  | _ + 1, [] => false
  | n + 1, c :: cs => c.utf8Size ≤ n + 1 && isBoundary (n + 1 - c.utf8Size) cs

def slice? (start stop : Nat) (t : Text) : Option Text :=
  if start ≤ stop then do
    let (_, rest) ← splitAtByte? start t
    let (piece, _) ← splitAtByte? (stop - start) rest
    some piece
  else none

theorem size_append (t u : Text) : size (t ++ u) = size t + size u := by
  induction t with
  | nil => simp [size]
  | cons c cs ih => simp [size, ih, Nat.add_assoc]

theorem splitAtByte?_eq_some {n : Nat} {t before after : Text}
    (h : splitAtByte? n t = some (before, after)) : t = before ++ after ∧ size before = n := by
  fun_induction splitAtByte? n t generalizing before with
  | case1 t =>
    simp only [Option.some.injEq, Prod.mk.injEq] at h
    obtain ⟨rfl, rfl⟩ := h
    simp [size]
  | case2 => cases h
  | case3 n c cs hle ih =>
    obtain ⟨⟨b, a⟩, hb, he⟩ := Option.map_eq_some_iff.1 h
    simp only [Prod.mk.injEq] at he
    obtain ⟨rfl, rfl⟩ := he
    obtain ⟨h₁, h₂⟩ := ih hb
    constructor
    · simp [h₁]
    · simp only [size, h₂]; omega
  | case4 => cases h

theorem splitAtByte?_size (t u : Text) : splitAtByte? (size t) (t ++ u) = some (t, u) := by
  induction t with
  | nil => cases u <;> rfl
  | cons c cs ih =>
    have hpos : 0 < c.utf8Size := Char.utf8Size_pos c
    obtain ⟨m, hm⟩ : ∃ m, size (c :: cs) = m + 1 := ⟨size (c :: cs) - 1, by simp [size]; omega⟩
    rw [hm]
    simp only [List.cons_append, splitAtByte?]
    have hs : c.utf8Size + size cs = m + 1 := by simpa [size] using hm
    rw [if_pos (by omega), show m + 1 - c.utf8Size = size cs by omega, ih]
    rfl

theorem slice?_size (x m y : Text) : slice? (size x) (size x + size m) (x ++ (m ++ y)) = some m := by
  rw [slice?, if_pos (Nat.le_add_right _ _), Nat.add_sub_cancel_left, splitAtByte?_size]
  simp only [Option.bind_eq_bind, Option.bind_some, splitAtByte?_size]

/-- A text can be cut exactly at its boundaries. -/
theorem isBoundary_eq_isSome (n : Nat) (t : Text) : isBoundary n t = (splitAtByte? n t).isSome := by
  fun_induction splitAtByte? n t with
  | case1 t => simp [isBoundary]
  | case2 => rfl
  | case3 n c cs hle ih => simp [isBoundary, hle, ih]
  | case4 n c cs hle => simp [isBoundary, hle]

theorem isBoundary_size (t u : Text) : isBoundary (size t) (t ++ u) := by
  rw [isBoundary_eq_isSome, splitAtByte?_size]
  rfl

/-- Of two starts of a text, the smaller one starts the other one. -/
theorem exists_append_of_size_le {a b c d : Text} (h : a ++ b = c ++ d) (hle : size a ≤ size c) :
    ∃ m, c = a ++ m ∧ b = m ++ d := by
  rcases List.append_eq_append_iff.1 h with ⟨m, hc, hb⟩ | ⟨m, rfl, rfl⟩
  · exact ⟨m, hc, hb⟩
  · cases m with
    | nil => exact ⟨[], by simp, by simp⟩
    | cons x m =>
      have hpos : 0 < x.utf8Size := Char.utf8Size_pos x
      simp only [size_append, size] at hle
      omega

/-- A slice is what stands in the text between its two offsets. -/
theorem slice?_eq_some_iff {start stop : Nat} {t piece : Text} :
    slice? start stop t = some piece ↔ ∃ before after, t = before ++ (piece ++ after) ∧
      start = size before ∧ stop = size before + size piece := by
  constructor
  · intro h
    rw [slice?] at h
    split at h
    · next hle =>
      simp only [Option.bind_eq_bind, Option.bind_eq_some_iff, Option.some.injEq] at h
      obtain ⟨⟨before, rest⟩, hbefore, ⟨p, after⟩, hpiece, rfl⟩ := h
      obtain ⟨rfl, rfl⟩ := splitAtByte?_eq_some hbefore
      obtain ⟨rfl, hsize⟩ := splitAtByte?_eq_some hpiece
      refine ⟨before, after, rfl, rfl, ?_⟩
      rw [hsize, Nat.add_sub_cancel' hle]
    · cases h
  · rintro ⟨before, after, rfl, rfl, rfl⟩
    exact slice?_size before piece after

theorem size_slice? {start stop : Nat} {t piece : Text} (h : slice? start stop t = some piece) :
    start + size piece = stop := by
  obtain ⟨before, after, -, rfl, rfl⟩ := slice?_eq_some_iff.1 h
  rfl

theorem infix_of_slice? {start stop : Nat} {t piece : Text} (h : slice? start stop t = some piece) :
    piece <:+: t := by
  obtain ⟨before, after, rfl, -⟩ := slice?_eq_some_iff.1 h
  exact ⟨before, after, by simp⟩

/-- There is a slice between two boundaries. -/
theorem exists_slice? {start stop : Nat} {t : Text} (hle : start ≤ stop)
    (hstart : isBoundary start t) (hstop : isBoundary stop t) :
    ∃ piece, slice? start stop t = some piece := by
  rw [isBoundary_eq_isSome] at hstart hstop
  obtain ⟨⟨before, rest⟩, hbefore⟩ := Option.isSome_iff_exists.1 hstart
  obtain ⟨⟨front, after⟩, hfront⟩ := Option.isSome_iff_exists.1 hstop
  obtain ⟨hcut, rfl⟩ := splitAtByte?_eq_some hbefore
  obtain ⟨hcut', rfl⟩ := splitAtByte?_eq_some hfront
  obtain ⟨piece, rfl, rfl⟩ := exists_append_of_size_le (hcut.symm.trans hcut') hle
  exact ⟨piece, slice?_eq_some_iff.2 ⟨before, after, hcut, rfl, size_append _ _⟩⟩

/-- Slices that meet are one slice. -/
theorem slice?_append {start middle stop : Nat} {t u v : Text} (hu : slice? start middle t = some u)
    (hv : slice? middle stop t = some v) : slice? start stop t = some (u ++ v) := by
  obtain ⟨before, rest, ht, rfl, rfl⟩ := slice?_eq_some_iff.1 hu
  obtain ⟨front, after, ht', hfront, rfl⟩ := slice?_eq_some_iff.1 hv
  rw [← List.append_assoc] at ht
  rw [← size_append] at hfront
  have hcut := splitAtByte?_size (before ++ u) rest
  have hcut' := splitAtByte?_size front (v ++ after)
  rw [← ht] at hcut
  rw [← ht', ← hfront, hcut] at hcut'
  cases hcut'
  refine slice?_eq_some_iff.2 ⟨before, after, ?_, rfl, ?_⟩
  · rw [ht, List.append_assoc, List.append_assoc]
  · rw [size_append, size_append, Nat.add_assoc]

end Javadoc.Text
