import Javadoc.Proofs.Text.Line
import Mathlib.Data.List.Chain

/-! Carriage returns and line feeds. A text is fed when its carriage returns stand directly before
line feeds only. It is in CRLF when its line feeds stand directly behind carriage returns, too. Both
are told by the lines of the text, and are rules that putting texts together and cutting them inside a
line cannot break. -/
namespace Javadoc.Text

structure IsFed (t : Text) : Prop where
  next : t.IsChain fun c d => c = '\r' → d = '\n'
  last : '\r' ∉ t.getLast?

/-- Every carriage return of the text stands directly before a line feed, and every line feed directly
behind a carriage return. -/
structure IsCrlf (t : Text) : Prop where
  next : t.IsChain fun c d => c = '\r' ↔ d = '\n'
  first : '\n' ∉ t.head?
  last : '\r' ∉ t.getLast?

theorem IsCrlf.isFed {t : Text} (h : IsCrlf t) : IsFed t := ⟨h.next.imp fun _ _ h => h.1, h.last⟩

private theorem mem_getLast?_append {c : Char} {x y : Text} (h : c ∈ (x ++ y).getLast?) :
    c ∈ x.getLast? ∨ c ∈ y.getLast? := by
  by_cases hy : y = []
  · exact .inl (by simpa [hy] using h)
  · exact .inr (by rwa [List.getLast?_append_of_ne_nil x hy] at h)

theorem mem_getLast?_cons {c d : Char} {y : Text} (h : c ∈ y.getLast?) : c ∈ (d :: y).getLast? := by
  cases y with
  | nil => cases h
  | cons e y => rwa [List.getLast?_cons_cons]

theorem isFed_of_not_mem {t : Text} (h : '\r' ∉ t) : IsFed t where
  next := List.Pairwise.isChain <|
    List.pairwise_of_forall_mem_list fun _ hc _ _ hr => absurd (hr ▸ hc) h
  last hl := h (List.mem_of_getLast? hl)

/-- Within a line no carriage return is followed by a line feed. -/
theorem isChain_line_iff {R : Char → Char → Prop} (hR : ∀ {c d}, d ≠ '\n' → (R c d ↔ c ≠ '\r'))
    {l : Text} (hl : '\n' ∉ l) : l.IsChain R ↔ '\r' ∉ l.dropLast := by
  induction l with
  | nil => simp
  | cons c l ih =>
    cases l with
    | nil => simp
    | cons d l =>
      have hd : d ≠ '\n' := fun h => hl (by simp [h])
      rw [List.isChain_cons_cons, hR hd, ih fun h => hl (List.mem_cons_of_mem c h),
        List.dropLast_cons_cons, List.mem_cons, not_or, ne_comm]

/-- A line in front of a fed text holds a carriage return at its end at most. -/
theorem isFed_line_iff {l : Text} (hl : '\n' ∉ l) (t : Text) :
    IsFed (l ++ '\n' :: t) ↔ '\r' ∉ l.dropLast ∧ IsFed t := by
  rw [← isChain_line_iff (R := fun c d => c = '\r' → d = '\n') (by grind) hl]
  constructor
  · rintro ⟨h, hlast⟩
    obtain ⟨hline, h, -⟩ := List.isChain_append.1 h
    refine ⟨hline, (List.isChain_cons.1 h).2, fun hm => hlast ?_⟩
    rw [List.getLast?_append_of_ne_nil l (List.cons_ne_nil _ t)]
    exact mem_getLast?_cons hm
  · rintro ⟨hline, h, hlast⟩
    refine ⟨List.isChain_append.2 ⟨hline, List.isChain_cons.2 ⟨by simp, h⟩, by simp⟩, fun hm => ?_⟩
    rw [List.append_cons] at hm
    exact (mem_getLast?_append hm).elim (by simp) hlast

private theorem isCrlf_line_iff {l : Text} (hl : '\n' ∉ l) (t : Text) :
    IsCrlf (l ++ '\n' :: t) ↔ ('\r' ∉ l.dropLast ∧ l.getLast? = some '\r') ∧ IsCrlf t := by
  rw [← isChain_line_iff (R := fun c d => c = '\r' ↔ d = '\n') (by grind) hl]
  constructor
  · rintro ⟨h, hfirst, hlast⟩
    obtain ⟨hline, h, hseam⟩ := List.isChain_append.1 h
    obtain ⟨hnext, h⟩ := List.isChain_cons.1 h
    refine ⟨⟨hline, ?_⟩, h, fun hm => absurd ((hnext _ hm).2 rfl) (by decide), fun hm => hlast ?_⟩
    · rcases List.eq_nil_or_concat l with rfl | ⟨l, c, rfl⟩
      · exact absurd rfl hfirst
      · rw [List.concat_eq_append, List.getLast?_concat] at *
        exact congrArg some ((hseam c rfl '\n' rfl).2 rfl)
    · rw [List.getLast?_append_of_ne_nil l (List.cons_ne_nil _ t)]
      exact mem_getLast?_cons hm
  · rintro ⟨⟨hline, hreturn⟩, h, hfirst, hlast⟩
    refine ⟨List.isChain_append.2 ⟨hline, List.isChain_cons.2 ⟨fun d hd => ?_, h⟩, ?_⟩, fun hm => ?_,
      fun hm => ?_⟩
    · exact iff_of_false (by decide) fun hn => hfirst (hn ▸ hd)
    · simp [hreturn]
    · rw [List.head?_append, Option.mem_def, Option.or_eq_some_iff] at hm
      rcases hm with hm | ⟨hm, -⟩
      · exact hl (List.mem_of_mem_head? hm)
      · rw [List.head?_eq_none_iff.1 hm] at hreturn
        cases hreturn
    · rw [List.append_cons] at hm
      exact (mem_getLast?_append hm).elim (by simp) hlast

private theorem isFed_iff_of_line {t : Text} (h : '\n' ∉ t) : IsFed t ↔ '\r' ∉ t := by
  refine ⟨fun hf hm => ?_, isFed_of_not_mem⟩
  have hfront := (isChain_line_iff (by grind) h).1 hf.next
  have hne : t ≠ [] := List.ne_nil_of_mem hm
  rw [← List.dropLast_append_getLast hne, List.mem_append, List.mem_singleton] at hm
  exact hm.elim hfront fun hm => hf.last (by rw [List.getLast?_eq_some_getLast hne, hm]; rfl)

private theorem isCrlf_iff_of_line {t : Text} (h : '\n' ∉ t) : IsCrlf t ↔ '\r' ∉ t := by
  refine ⟨fun ht => (isFed_iff_of_line h).1 ht.isFed, fun hr => ⟨?_, fun hm => ?_, fun hm => ?_⟩⟩
  · exact (isChain_line_iff (by grind) h).2 fun hm => hr (List.dropLast_subset t hm)
  · exact h (List.mem_of_mem_head? hm)
  · exact hr (List.mem_of_getLast? hm)

theorem joinLines_cons_concat (l : Text) (front : List Text) (last : Text) :
    joinLines (l :: front ++ [last]) = l ++ '\n' :: joinLines (front ++ [last]) := by
  cases front <;> exact joinLines_cons_cons _ _ _

/-- The lines of a fed text hold carriage returns at their ends alone, and the last one holds none. -/
theorem isFed_joinLines_iff {front : List Text} {last : Text} (hf : ∀ l ∈ front, '\n' ∉ l)
    (hl : '\n' ∉ last) : IsFed (joinLines (front ++ [last])) ↔
      (∀ l ∈ front, '\r' ∉ l.dropLast) ∧ '\r' ∉ last := by
  induction front with
  | nil => simpa [joinLines, joinWith] using isFed_iff_of_line hl
  | cons l front ih =>
    rw [List.forall_mem_cons] at hf
    rw [joinLines_cons_concat, isFed_line_iff hf.1, ih hf.2, List.forall_mem_cons, and_assoc]

/-- In a text in CRLF each line but the last one ends with its only carriage return, and the last one
holds none. -/
theorem isCrlf_joinLines_iff {front : List Text} {last : Text} (hf : ∀ l ∈ front, '\n' ∉ l)
    (hl : '\n' ∉ last) : IsCrlf (joinLines (front ++ [last])) ↔
      (∀ l ∈ front, '\r' ∉ l.dropLast ∧ l.getLast? = some '\r') ∧ '\r' ∉ last := by
  induction front with
  | nil => simpa [joinLines, joinWith] using isCrlf_iff_of_line hl
  | cons l front ih =>
    rw [List.forall_mem_cons] at hf
    rw [joinLines_cons_concat, isCrlf_line_iff hf.1, ih hf.2,
      List.forall_mem_cons (p := fun l : Text => '\r' ∉ l.dropLast ∧ l.getLast? = some '\r'),
      and_assoc (c := '\r' ∉ last)]

theorem isFed_iff_lines {t last : Text} {front : List Text} (h : splitLines t = front ++ [last]) :
    IsFed t ↔ (∀ l ∈ front, '\r' ∉ l.dropLast) ∧ '\r' ∉ last := by
  have hlines : ∀ l ∈ front ++ [last], '\n' ∉ l := fun l hl => not_mem_of_mem_splitLines (h ▸ hl)
  rw [← joinLines_splitLines t, h]
  exact isFed_joinLines_iff (fun l hl => hlines l (List.mem_append_left _ hl))
    (hlines last (by simp))

theorem isCrlf_iff_lines {t last : Text} {front : List Text} (h : splitLines t = front ++ [last]) :
    IsCrlf t ↔ (∀ l ∈ front, '\r' ∉ l.dropLast ∧ l.getLast? = some '\r') ∧ '\r' ∉ last := by
  have hlines : ∀ l ∈ front ++ [last], '\n' ∉ l := fun l hl => not_mem_of_mem_splitLines (h ▸ hl)
  rw [← joinLines_splitLines t, h]
  exact isCrlf_joinLines_iff (fun l hl => hlines l (List.mem_append_left _ hl))
    (hlines last (by simp))

instance (t : Text) : Decidable (IsCrlf t) :=
  decidable_of_iff ((∀ l ∈ (splitLines t).dropLast, '\r' ∉ l.dropLast ∧ l.getLast? = some '\r') ∧
      '\r' ∉ (splitLines t).getLast (splitLines_ne_nil t))
    (isCrlf_iff_lines (List.dropLast_append_getLast (splitLines_ne_nil t)).symm).symm

theorem dropLast_sublist_dropLast {s t : Text} (h : s.Sublist t) : s.dropLast.Sublist t.dropLast := by
  have h := h.reverse.tail
  rwa [List.tail_reverse, List.tail_reverse, List.reverse_sublist] at h

/-- A text without a carriage return has none before its end, and does not end with one. -/
theorem return_not_mem_iff {t : Text} :
    '\r' ∉ t ↔ '\r' ∉ t.dropLast ∧ t.getLast? ≠ some '\r' := by
  rcases List.eq_nil_or_concat t with rfl | ⟨t, c, rfl⟩
  · simp
  · simp [ne_comm]

theorem newline_not_mem_iff {t : Text} : '\n' ∉ t ↔ ∃ l, splitLines t = [l] := by
  refine ⟨fun h => ⟨t, splitLines_of_not_mem h⟩, fun ⟨l, hl⟩ => ?_⟩
  rw [← joinLines_splitLines t, hl]
  exact not_mem_of_mem_splitLines (t := t) (l := l) (by simp [hl])

/-- A line feed in a text in CRLF stands behind a carriage return. -/
theorem IsCrlf.returned {x y : Text} (h : IsCrlf (x ++ '\n' :: y)) : x.getLast? = some '\r' := by
  obtain ⟨-, -, hseam⟩ := List.isChain_append.1 h.next
  rcases List.eq_nil_or_concat x with rfl | ⟨x, c, rfl⟩
  · exact absurd rfl h.first
  · rw [List.concat_eq_append, List.getLast?_concat] at *
    exact congrArg some ((hseam c rfl '\n' rfl).2 rfl)

/-- A rule about the line breaks of a text: texts that keep it keep it when they are put together, and
a text that keeps it does so on both sides of a character that is no part of a line break. -/
structure BreakRule (P : Text → Prop) : Prop where
  nil : P []
  single : ∀ {c : Char}, c ≠ '\r' → c ≠ '\n' → P [c]
  append : ∀ {x y : Text}, P x → P y → P (x ++ y)
  cut : ∀ {c : Char} {x y : Text}, c ≠ '\r' → c ≠ '\n' → P (x ++ c :: y) → P x ∧ P y

theorem breakRule_isFed : BreakRule IsFed where
  nil := ⟨.nil, by simp⟩
  single hr _ := ⟨.singleton _, by simpa using hr⟩
  append := by
    intro x y hx hy
    refine ⟨List.isChain_append.2 ⟨hx.next, hy.next, fun c hc d _ hr => ?_⟩, fun h => ?_⟩
    · exact absurd (hr ▸ hc) hx.last
    · exact (mem_getLast?_append h).elim hx.last hy.last
  cut := by
    rintro c x y hr hn ⟨h, hl⟩
    obtain ⟨hx, hy, hseam⟩ := List.isChain_append.1 h
    refine ⟨⟨hx, fun hm => hn (hseam _ hm c rfl rfl)⟩, (List.isChain_cons.1 hy).2, fun hm => hl ?_⟩
    rw [List.getLast?_append_of_ne_nil x (List.cons_ne_nil c y)]
    exact mem_getLast?_cons hm

theorem breakRule_isCrlf : BreakRule IsCrlf where
  nil := ⟨.nil, by simp, by simp⟩
  single hr hn := ⟨.singleton _, by simpa using hn, by simpa using hr⟩
  append := by
    intro x y hx hy
    refine ⟨List.isChain_append.2 ⟨hx.next, hy.next, fun c hc d hd => ?_⟩, fun h => ?_, fun h => ?_⟩
    · exact iff_of_false (fun hr => hx.last (hr ▸ hc)) fun hn => hy.first (hn ▸ hd)
    · rw [List.head?_append, Option.mem_def, Option.or_eq_some_iff] at h
      exact h.elim hx.first fun h => hy.first h.2
    · exact (mem_getLast?_append h).elim hx.last hy.last
  cut := by
    rintro c x y hr hn ⟨h, hf, hl⟩
    obtain ⟨hx, hy, hseam⟩ := List.isChain_append.1 h
    obtain ⟨hcy, hy⟩ := List.isChain_cons.1 hy
    refine ⟨⟨hx, fun hm => hf ?_, fun hm => hn ((hseam _ hm c rfl).1 rfl)⟩,
      hy, fun hm => hr ((hcy _ hm).2 rfl), fun hm => hl ?_⟩
    · rw [List.head?_append, Option.mem_def.1 hm]
      rfl
    · rw [List.getLast?_append_of_ne_nil x (List.cons_ne_nil c y)]
      exact mem_getLast?_cons hm

theorem breakRule_not_mem (c : Char) (hc : c = '\r' ∨ c = '\n') : BreakRule fun t => c ∉ t where
  nil := by simp
  single hr hn := by
    rw [List.mem_singleton]
    rintro rfl
    exact hc.elim hr hn
  append hx hy := List.not_mem_append hx hy
  cut _ _ h := by
    simp only [List.mem_append, List.mem_cons, not_or] at h
    exact ⟨h.1, h.2.2⟩

namespace BreakRule

variable {P : Text → Prop} (hP : BreakRule P)
include hP

theorem cons {c : Char} {x : Text} (hr : c ≠ '\r') (hn : c ≠ '\n') (h : P x) : P (c :: x) :=
  hP.append (x := [c]) (hP.single hr hn) h

theorem of_plain {t : Text} (h : ∀ c ∈ t, c ≠ '\r' ∧ c ≠ '\n') : P t := by
  induction t with
  | nil => exact hP.nil
  | cons c t ih =>
    rw [List.forall_mem_cons] at h
    exact hP.cons h.1.1 h.1.2 (ih h.2)

/-- A stretch whose ends are no part of a line break keeps the rule. -/
theorem of_isInfix {x t : Text} (h : P t) (hin : x <:+: t)
    (hfirst : ∀ c ∈ x.head?, c ≠ '\r' ∧ c ≠ '\n') (hlast : ∀ c ∈ x.getLast?, c ≠ '\r' ∧ c ≠ '\n') :
    P x := by
  cases x with
  | nil => exact hP.nil
  | cons c x =>
    obtain ⟨hcr, hcn⟩ := hfirst c rfl
    obtain ⟨a, b, rfl⟩ := hin
    have hback : P (x ++ b) := (hP.cut (x := a) hcr hcn (by simpa using h)).2
    rcases List.eq_nil_or_concat x with rfl | ⟨x, d, rfl⟩
    · exact hP.single hcr hcn
    · rw [List.concat_eq_append] at *
      obtain ⟨hdr, hdn⟩ := hlast d (by rw [← List.cons_append, List.getLast?_concat]; rfl)
      have hx := (hP.cut hdr hdn (by simpa using hback)).1
      exact hP.cons hcr hcn (hP.append hx (hP.single hdr hdn))

/-- Trimming takes blanks from the ends, and cuts no line break in two. -/
theorem of_trim {x t : Text} (h : P t) (hin : x <:+: t) : P (trim x) := by
  have hsolid {c : Char} (hc : isBlank c = false) : c ≠ '\r' ∧ c ≠ '\n' := by
    constructor <;> rintro rfl <;> exact absurd hc (by decide)
  obtain ⟨a, b, hx, -⟩ := trim_spec x
  have htrim : trim x <:+: x := ⟨a, b, by rw [List.append_assoc, ← hx]⟩
  refine hP.of_isInfix h (htrim.trans hin) (fun c hc => hsolid ?_)
    fun c hc => hsolid (getLast?_dropEndWhile isBlank _ c hc)
  obtain ⟨r, hr⟩ := isPrefix_trimEnd (trimStart x)
  have hstart := List.head?_dropWhile_not isBlank x
  rw [← trimStart, ← hr, List.head?_append, ← trim, Option.mem_def.1 hc] at hstart
  exact hstart

theorem of_joinWith {sep : Text} (hs : P sep) {ts : List Text} (h : ∀ t ∈ ts, P t) :
    P (joinWith sep ts) := by
  induction ts with
  | nil => exact hP.nil
  | cons t ts ih =>
    rw [List.forall_mem_cons] at h
    cases ts with
    | nil => exact h.1
    | cons u ts => exact hP.append (hP.append h.1 hs) (ih h.2)

/-- A replacement keeps the rule if the value and the ends of the pattern do. -/
theorem of_replaceAll {pat value : Text} {c d : Char} {x : Text} (hpat : pat = c :: (x ++ [d]))
    (hc : c ≠ '\r' ∧ c ≠ '\n') (hd : d ≠ '\r' ∧ d ≠ '\n') (hv : P value) {t : Text} (h : P t) :
    P (replaceAll pat value t) := by
  induction hlen : t.length using Nat.strong_induction_on generalizing t with
  | _ n ih =>
    rw [replaceAll_eq pat value (by simp [hpat])]
    split
    · exact h
    · next before after hb =>
      have ht := breakOn?_eq_some hb
      have hbefore : P before := (hP.cut hc.1 hc.2 (y := x ++ d :: after) (by simpa [ht, hpat] using h)).1
      have hafter : P after := (hP.cut hd.1 hd.2 (x := before ++ c :: x) (by simpa [ht, hpat] using h)).2
      refine hP.append hbefore (hP.append hv (ih _ ?_ hafter rfl))
      rw [← hlen, ht, hpat]
      simp
      omega

end BreakRule

end Javadoc.Text
