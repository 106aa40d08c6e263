import Javadoc.Proofs.Sync.Generated
import Javadoc.Proofs.Template.Linewise
import Mathlib.Data.List.Flatten

/-! The lines of a template that hold no tag. Each step of filling it in leaves them alone, whatever is
entered, expanded or dropped in the lines between them, so that they stand in the comment as they are
and in order. -/
namespace Javadoc

namespace Text

/-- Two texts put together have the lines of both, with the last line of the first one and the first
line of the second one in one. -/
theorem splitLines_append {t u h k : Text} {above below : List Text}
    (ht : splitLines t = above ++ [h]) (hu : splitLines u = k :: below) :
    splitLines (t ++ u) = above ++ (h ++ k) :: below := by
  have hlines : ∀ l ∈ above ++ (h ++ k) :: below, '\n' ∉ l := by
    have hfront : ∀ l ∈ above ++ [h], '\n' ∉ l := fun l hl => not_mem_of_mem_splitLines (ht ▸ hl)
    have hback : ∀ l ∈ k :: below, '\n' ∉ l := fun l hl => not_mem_of_mem_splitLines (hu ▸ hl)
    simp only [List.mem_append, List.mem_cons]
    rintro l (hl | rfl | hl)
    · exact hfront l (by simp [hl])
    · simp [hfront h, hback k]
    · exact hback l (by simp [hl])
  have htext : t ++ u = joinLines (above ++ ([h ++ k] ++ below)) := by
    rw [joinLines_around above below (by simp), eq_of_splitLines above ht,
      eq_of_splitLines [] hu]
    simp [joinLines, joinWith]
  rw [htext]
  exact splitLines_joinLines hlines (by simp)

theorem exists_splitLines_concat (t : Text) : ∃ above h, splitLines t = above ++ [h] := by
  rcases List.eq_nil_or_concat (splitLines t) with hnil | ⟨above, h, hlines⟩
  · exact absurd hnil (splitLines_ne_nil t)
  · exact ⟨above, h, by rw [hlines, List.concat_eq_append]⟩

theorem filter_sublist_flatMap {p : Text → Bool} {g : Text → List Text} {ls : List Text}
    (h : ∀ l ∈ ls, p l → g l = [l]) : (ls.filter p).Sublist (ls.flatMap g) := by
  have hkept : (ls.filter p).flatMap g = ls.filter p := flatMap_eq_self fun l hl =>
    h l (List.mem_filter.1 hl).1 (List.mem_filter.1 hl).2
  rw [← hkept]
  exact List.filter_sublist.flatMap g

end Text

namespace Template
open Text Comment

/-- Whether a text holds no tag. -/
def isUntagged (t : Text) : Bool := Tag.all.all fun tag => !includes tag.marker t

theorem isUntagged_iff {t : Text} : isUntagged t ↔ ∀ tag : Tag, ¬ tag.marker <:+: t := by
  simp only [isUntagged, List.all_eq_true, Bool.not_eq_true', includes_eq_false_iff]
  exact ⟨fun h tag => h tag (mem_all tag), fun h tag _ => h tag⟩

private theorem isUntagged_iff_lines {t : Text} :
    isUntagged t ↔ ∀ l ∈ splitLines t, isUntagged l := by
  have hline (tag : Tag) := infix_iff_line (t := t) (not_mem_marker tag).2.2.2.1 (marker_ne_nil tag)
  constructor
  · intro h l hl
    exact isUntagged_iff.2 fun tag hin => isUntagged_iff.1 h tag ((hline tag).2 ⟨l, hl, hin⟩)
  · intro h
    refine isUntagged_iff.2 fun tag hin => ?_
    obtain ⟨l, hl, hin⟩ := (hline tag).1 hin
    exact isUntagged_iff.1 (h l hl) tag hin

/-- The lines of a text that hold no tag. -/
def untagged (t : Text) : List Text := (splitLines t).filter isUntagged

/-- A change of a text that leaves the lines without tags alone: they stay, in order, and a text of
such lines is not changed at all. -/
structure KeepsUntagged (f : Text → Text) : Prop where
  sublist : ∀ t, (untagged t).Sublist (splitLines (f t))
  eq_self : ∀ t, isUntagged t → f t = t

private theorem KeepsUntagged.comp {f f' : Text → Text} (h' : KeepsUntagged f')
    (h : KeepsUntagged f) :
    KeepsUntagged fun t => f' (f t) where
  sublist t := by
    have hkept : (untagged t).Sublist (untagged (f t)) := by
      simpa [untagged] using (h.sublist t).filter isUntagged
    exact hkept.trans (h'.sublist (f t))
  eq_self t ht := by rw [h.eq_self t ht, h'.eq_self t ht]

private theorem Linewise.keepsUntagged {f : Text → Text} {g : Text → List Text} (h : Linewise f g)
    (hg : ∀ line, '\n' ∉ line → isUntagged line → g line = [line]) : KeepsUntagged f where
  sublist t := by
    have hlines : ∀ l ∈ splitLines t, '\n' ∉ l := fun l hl => not_mem_of_mem_splitLines hl
    rw [h.apply]
    refine (filter_sublist_flatMap fun l hl => hg l (hlines l hl)).trans ?_
    exact sublist_splitLines_joinLines (h.lines_flatMap hlines)
  eq_self t ht := by
    have hkept : (splitLines t).flatMap g = splitLines t := flatMap_eq_self fun l hl =>
      hg l (not_mem_of_mem_splitLines hl) (isUntagged_iff_lines.1 ht l hl)
    rw [h.apply, hkept, joinLines_splitLines]

private theorem keepsUntagged_enter (tag : Tag) (value : Text) : KeepsUntagged (enter tag value) :=
  (linewise_enter tag value).keepsUntagged fun line hn hu => by
    rw [enter_eq_self (isUntagged_iff.1 hu tag), splitLines_of_not_mem hn]

private theorem keepsUntagged_enterValues (m : Method) (container? : Option ClassInfo) :
    KeepsUntagged (enterValues m container?) :=
  (linewise_enterValues m container?).keepsUntagged fun _ hn hu =>
    valueLines_eq_self hn (isUntagged_iff.1 hu _) (isUntagged_iff.1 hu _) m container?

/-- Clearing a line removes tags from it, if it holds any. -/
theorem clearLine_of_isUntagged {line : Text} (h : isUntagged line) : clearLine line = some line := by
  rw [clearLine]
  induction Tag.all with
  | nil => rfl
  | cons tag tags ih =>
    rw [List.foldlM_cons, clearOne_eq_self (isUntagged_iff.1 h tag)]
    exact ih

private theorem keepsUntagged_dropTags : KeepsUntagged dropTags :=
  linewise_dropTags.keepsUntagged fun line _ hu => by
    rw [clearLine_of_isUntagged hu]
    rfl

/-- A line is dropped together with one line feed: the others stay. -/
theorem dropLine_eq {before after : Text} {above below : List Text} {head tail : Text}
    (hbefore : splitLines before = above ++ [head]) (hafter : splitLines after = tail :: below) :
    dropLine before after = joinLines (above ++ below) := by
  have hb : before = above.flatMap (· ++ ['\n']) ++ head := by
    simpa using eq_of_splitLines above hbefore
  have ha : after = tail ++ below.flatMap ('\n' :: ·) := eq_of_splitLines [] hafter
  have hhead : lineHead before = head := by
    rw [hb]
    refine lineHead_of_not_mem (not_mem_of_mem_splitLines (t := before) (by simp [hbefore])) ?_
    rcases List.eq_nil_or_concat above with rfl | ⟨ls, l, rfl⟩ <;> simp
  have htail : ∀ c ∈ tail, c != '\n' := fun c hc => bne_iff_ne.2 fun h =>
    not_mem_of_mem_splitLines (t := after) (by simp [hafter]) (h ▸ hc)
  have htake : before.take (before.length - (lineHead before).length) =
      above.flatMap (· ++ ['\n']) := by
    rw [hhead, hb, List.length_append, Nat.add_sub_cancel, List.take_left]
  have hdrop : after.dropWhile (· != '\n') = below.flatMap ('\n' :: ·) := by
    rw [ha, List.dropWhile_append_of_pos htail]
    cases below <;> rfl
  rw [dropLine, htake, hdrop]
  cases below with
  | nil =>
    rcases List.eq_nil_or_concat above with rfl | ⟨ls, l, rfl⟩
    · rfl
    · have hjoin := @joinLines_around ls [] [l] (by simp)
      have hlast : (ls ++ [l]).flatMap (· ++ ['\n']) = ls.flatMap (· ++ ['\n']) ++ l ++ ['\n'] := by
        simp
      rw [List.concat_eq_append, List.append_nil, hlast]
      change (_ ++ ['\n']).dropLast = _
      rw [List.dropLast_concat]
      simpa [joinLines, joinWith] using hjoin.symm
  | cons l below =>
    have hjoin := @joinLines_around above below [l] (by simp)
    simpa [joinLines, joinWith] using hjoin.symm

/-- The lines around a tag stay when something is put in its place, of one line or of several ones. -/
theorem sublist_replaced {before after : Text} {above below : List Text} {head tail : Text}
    (hbefore : splitLines before = above ++ [head]) (hafter : splitLines after = tail :: below)
    (value : Text) : (above ++ below).Sublist (splitLines (before ++ (value ++ after))) := by
  obtain ⟨front, last, hvalue⟩ := exists_splitLines_concat value
  have hrest := splitLines_append hvalue hafter
  cases front with
  | nil =>
    rw [splitLines_append hbefore hrest]
    exact (List.Sublist.refl above).append (List.sublist_cons_self _ _)
  | cons first front =>
    rw [splitLines_append hbefore hrest]
    refine (List.Sublist.refl above).append (List.Sublist.cons _ ?_)
    exact (List.sublist_cons_self _ _).trans (List.sublist_append_right _ _)

private theorem keepsUntagged_enterParameters (fields? : Option Text)
    (parameters : List Parameter) :
    KeepsUntagged (enterParameters fields? parameters) where
  sublist t := by
    rw [enterParameters]
    split
    · exact List.filter_sublist
    · next before after hb =>
      obtain ⟨above, head, hbefore⟩ := exists_splitLines_concat before
      obtain ⟨tail, below, hafter⟩ := List.exists_cons_of_ne_nil (splitLines_ne_nil after)
      have hkept : (untagged t).Sublist (above ++ below) := by
        obtain ⟨l, ls, hl, hmarker⟩ :=
          splitLines_append_of_not_mem (not_mem_marker .params).2.2.2.1 after
        rw [hafter] at hl
        cases hl
        have htagged : isUntagged (head ++ (Tag.params.marker ++ tail)) = false :=
          Bool.eq_false_iff.2 fun h => isUntagged_iff.1 h .params ⟨head, tail, by simp⟩
        rw [breakOn?_eq_some hb, List.append_assoc, untagged, splitLines_append hbefore hmarker,
          List.filter_append, List.filter_cons_of_neg (by simp [htagged])]
        exact List.filter_sublist.append List.filter_sublist
      refine hkept.trans ?_
      have hlines : ∀ l ∈ above ++ below, '\n' ∉ l := by
        intro l hl
        rcases List.mem_append.1 hl with hl | hl
        · exact not_mem_of_mem_splitLines (t := before) (by rw [hbefore]; simp [hl])
        · exact not_mem_of_mem_splitLines (t := after) (by rw [hafter]; simp [hl])
      split
      · split
        · rw [dropLine_eq hbefore hafter]
          exact sublist_splitLines_joinLines hlines
        · exact sublist_replaced hbefore hafter []
      · rw [List.append_assoc]
        exact sublist_replaced hbefore hafter _
  eq_self t ht := by
    rw [enterParameters, breakOn?_eq_none_iff.2 (isUntagged_iff.1 ht .params)]

private theorem keepsUntagged_fill (fields? : Option Text) (target : Target) :
    KeepsUntagged (fill fields? target) := by
  cases target with
  | «class» name => exact (keepsUntagged_enter .subject name).comp (keepsUntagged_enter .className name)
  | field name => exact (keepsUntagged_enter .subject name).comp (keepsUntagged_enter .className name)
  | constructor m =>
    exact (keepsUntagged_enterParameters fields? m.parameters).comp
      (keepsUntagged_enter .className m.name)
  | method m container? =>
    exact (keepsUntagged_enterParameters fields? m.parameters).comp
      (keepsUntagged_enterValues m container?)

end Template

namespace Templates
open Template Text

/-- What a template holds in lines without tags is in the comment as it stands, whatever the target
is and whatever its values hold. A template without tags is the comment itself, and there is no
comment exactly when blanks alone are left, so that such a template has no words of its own. -/
theorem comment?_untagged (t : Templates) (template : Text) (target : Target) :
    (∀ text, t.comment? template target = some text →
      (untagged template).Sublist (splitLines text)) ∧
    ((∀ tag : Tag, ¬ tag.marker <:+: template) → isBlankText template = false →
      t.comment? template target = some template) ∧
    (t.comment? template target = none ↔
      isBlankText (dropTags (fill t.fields target template))) ∧
    (t.comment? template target = none → ∀ line ∈ untagged template, isBlankText line) := by
  have hkept := keepsUntagged_dropTags.comp (keepsUntagged_fill t.fields target)
  simp only [Templates.comment?, Template.comment?]
  have hsublist := hkept.sublist template
  have heq := hkept.eq_self template
  generalize dropTags (fill t.fields target template) = left at hsublist heq
  refine ⟨fun text htext => ?_, fun hno hblank => ?_, ?_, fun hnone line hline => ?_⟩
  · cases hb : isBlankText left with
    | true => simp [hb] at htext
    | false =>
      rw [hb] at htext
      cases htext
      exact hsublist
  · rw [heq (isUntagged_iff.2 hno), hblank]
    rfl
  · cases isBlankText left <;> simp
  · have hleft : isBlankText left := by
      cases hb : isBlankText left with
      | true => rfl
      | false => simp [hb] at hnone
    have hin := infix_of_mem_splitLines (hsublist.subset hline)
    exact List.all_eq_true.2 fun c hc => List.all_eq_true.1 hleft c (hin.subset hc)

/-- Lines that are equal stay, each of them, and so does a bare one, around a value of two lines with
tags in both. -/
theorem comment?_untagged_tags :
    let template := "/**\n * Words.\n * Gives <returnType> of <instance>\n *\n * Words.\n".toList ++
      " * <params>\n * @return <returnType>\n */".toList
    let m : Method := ⟨"run".toList, false, [⟨"a".toList, "int".toList⟩], some "Map<K,\nV>".toList,
      none, some "\"<params>\n<instance>\"".toList, .nothing, 0⟩
    ∃ text, Templates.comment? {} template (.method m none) = some text ∧
      (["/**", " * Words.", " *", " * Words.", " */"].map String.toList).Sublist
        (splitLines text) := by
  intro template m
  have huntagged : untagged template =
      ["/**", " * Words.", " *", " * Words.", " */"].map String.toList := by decide +kernel
  cases htext : Templates.comment? {} template (.method m none) with
  | some text =>
    exact ⟨text, rfl, huntagged ▸ (comment?_untagged {} template (.method m none)).1 text htext⟩
  | none =>
    have hblank := (comment?_untagged {} template (.method m none)).2.2.2 htext " * Words.".toList
      (by rw [huntagged]; decide)
    exact absurd hblank (by decide)

end Templates
end Javadoc
