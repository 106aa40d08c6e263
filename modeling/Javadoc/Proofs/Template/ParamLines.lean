import Javadoc.Proofs.Template.Untagged

/-! The entries for parameters in the comment of a method. The values of a method are entered before
the parameters are, so that the line of the tag for the parameters becomes their entries as long as the
lines above it do not come to hold such a tag by their values. -/
namespace Javadoc.Template
open Text

/-- The lines of the comment that a line of a method template becomes. -/
def commentLines (m : Method) (container? : Option ClassInfo) (line : Text) : List Text :=
  (valueLines m container? line).filterMap clearLine

private theorem flatMap_commentLines (m : Method) (container? : Option ClassInfo) (ls : List Text) :
    ls.flatMap (commentLines m container?) =
      (ls.flatMap (valueLines m container?)).flatMap fun line => (clearLine line).toList := by
  rw [List.flatMap_assoc]
  refine List.flatMap_congr fun line _ => ?_
  rw [commentLines, List.filterMap_eq_flatMap_toList]

namespace ParamsLine

variable {template : Text} (place : ParamsLine template)

private theorem not_mem_marker_of_mem_lead (tag : Tag) : ∀ c ∈ place.lead, c ∉ tag.marker := by
  have hmarker : (tag.marker.all fun c => !isGap c && c != '*') = true := by cases tag <;> decide
  intro c hc hm
  have hplain := List.all_eq_true.1 hmarker c hm
  simp only [Bool.and_eq_true, Bool.not_eq_true', bne_iff_ne] at hplain
  exact place.decoration.not_mem hplain.1 hplain.2 hc

private theorem not_mem_marker_of_mem_ending (tag : Tag) : ∀ c ∈ place.ending, c ∉ tag.marker := by
  rcases place.end_eq with h | h
  · simp [h]
  · simpa [h] using (not_mem_marker tag).2.2.1

/-- The line of the tag holds no other one. -/
theorem not_infix_tagLine {tag : Tag} (h : tag ≠ .params) :
    ¬ tag.marker <:+: place.lead ++ (Tag.params.marker ++ place.ending) := by
  intro hin
  have hin := infix_of_append_left (marker_ne_nil tag) (place.not_mem_marker_of_mem_lead tag) hin
  have hin := infix_of_append_right (marker_ne_nil tag) (place.not_mem_marker_of_mem_ending tag) hin
  revert h hin
  cases tag <;> decide

private theorem newline_not_mem_tagLine :
    '\n' ∉ place.lead ++ (Tag.params.marker ++ place.ending) :=
  not_mem_of_mem_splitLines (t := template) (by simp [place.lines_eq])

def entered (m : Method) (container? : Option ClassInfo)
    (h : includes Tag.params.marker (enterValues m container? (joinLines place.above)) = false) :
    ParamsLine (enterValues m container? template) where
  above := place.above.flatMap (valueLines m container?)
  lead := place.lead
  ending := place.ending
  below := place.below.flatMap (valueLines m container?)
  lines_eq := by
    have htag : valueLines m container? (place.lead ++ (Tag.params.marker ++ place.ending)) =
        [place.lead ++ (Tag.params.marker ++ place.ending)] :=
      valueLines_eq_self place.newline_not_mem_tagLine (place.not_infix_tagLine (by decide))
        (place.not_infix_tagLine (by decide)) m container?
    have hlines : (splitLines template).flatMap (valueLines m container?) =
        place.above.flatMap (valueLines m container?) ++
          (place.lead ++ (Tag.params.marker ++ place.ending)) ::
            place.below.flatMap (valueLines m container?) := by
      rw [place.lines_eq, List.flatMap_append, List.flatMap_cons, htag, List.singleton_append]
    rw [(linewise_enterValues m container?).apply, ← hlines, splitLines_joinLines]
    · exact (linewise_enterValues m container?).lines_flatMap fun l => not_mem_of_mem_splitLines
    · simp [hlines]
  first := by
    have habove : ∀ l ∈ place.above, '\n' ∉ l := fun l hl =>
      not_mem_of_mem_splitLines (place.mem_splitLines (List.mem_append_left _ hl))
    rw [includes_eq_false_iff, (linewise_enterValues m container?).joined _ habove,
      infix_joinLines_iff (not_mem_marker .params).2.2.2.1 (marker_ne_nil .params)] at h
    exact fun l hl hin => h ⟨l, hl, hin⟩
  decoration := place.decoration
  end_eq := place.end_eq

/-- The entry for a parameter holds no tag unless its description does. -/
theorem isUntagged_line {name description : Text} (hn : '<' ∉ name) (hd : isUntagged description) :
    isUntagged (place.line name description) := by
  refine isUntagged_iff.2 fun tag hin => ?_
  have hopen : '<' ∈ tag.marker := by simp [marker_eq]
  have hcolon : ':' ∉ tag.marker := by cases tag <;> decide
  have hline : place.line name description = (place.lead ++ ("@param ".toList ++ name)) ++
      ':' :: (Entry.written description ++ place.ending) := by
    simp [ParamsLine.line]
  rw [hline] at hin
  rcases infix_append_cons_of_not_mem hcolon hin with hin | hin
  · have hlead := place.decoration.not_mem (c := '<') (by decide) (by decide)
    have hfront : '<' ∉ place.lead ++ ("@param ".toList ++ name) := by simp [hlead, hn]
    exact hfront (hin.subset hopen)
  · have hin := infix_of_append_right (marker_ne_nil tag)
      (place.not_mem_marker_of_mem_ending tag) hin
    rw [Entry.written] at hin
    split at hin
    · exact marker_ne_nil tag (List.infix_nil.1 hin)
    · have hspace : ∀ c ∈ [' '], c ∉ tag.marker := by simpa using (not_mem_marker tag).1
      exact isUntagged_iff.1 hd tag (infix_of_append_left (marker_ne_nil tag) hspace hin)

end ParamsLine

/-- In the place of the line of the tag the comment of a method has one line for each parameter, in
order, and the other lines of the template are filled in around them, whatever the values of the method
are, unless the values in the lines above spell such a tag or a description keeps a tag. -/
theorem comment?_paramLines (t : Templates) {template : Text} (place : ParamsLine template)
    (m : Method) (container? : Option ClassInfo) (hne : m.parameters ≠ [])
    (hnames : ∀ p ∈ m.parameters, '\n' ∉ p.name ∧ '<' ∉ p.name)
    (hdescribed : ∀ p ∈ m.parameters, isUntagged (parameterDescription t.fields p.name))
    (habove : includes Tag.params.marker (enterValues m container? (joinLines place.above)) = false) :
    ∃ text, t.comment? template (.method m container?) = some text ∧
      splitLines text = place.above.flatMap (commentLines m container?) ++
        (m.parameters.map (place.lineFor t.fields) ++
          place.below.flatMap (commentLines m container?)) := by
  set entries := m.parameters.map (place.lineFor t.fields)
  set lines := place.above.flatMap (commentLines m container?) ++
    (entries ++ place.below.flatMap (commentLines m container?))
  have hfill : splitLines (fill t.fields (.method m container?) template) =
      place.above.flatMap (valueLines m container?) ++
        (entries ++ place.below.flatMap (valueLines m container?)) := by
    rw [fill, fillMethod_eq]
    exact (place.entered m container? habove).splitLines_enterParameters t.fields hne
      fun p hp => (hnames p hp).1
  have hkept : (entries.flatMap fun line => (clearLine line).toList) = entries := by
    refine flatMap_eq_self fun line hline => ?_
    obtain ⟨p, hp, rfl⟩ := List.mem_map.1 hline
    have huntagged := place.isUntagged_line (hnames p hp).2 (hdescribed p hp)
    exact congrArg Option.toList (clearLine_of_isUntagged huntagged)
  have hcleared : (splitLines (fill t.fields (.method m container?) template)).flatMap
      (fun line => (clearLine line).toList) = lines := by
    simp only [hfill, lines, List.flatMap_append, hkept, flatMap_commentLines]
  have hdropped : dropTags (fill t.fields (.method m container?) template) = joinLines lines := by
    rw [linewise_dropTags.apply, hcleared]
  have hsplit : splitLines (joinLines lines) = lines := by
    refine splitLines_joinLines ?_ (by simp [lines, entries, hne])
    rw [← hcleared]
    exact linewise_dropTags.lines_flatMap fun _ => not_mem_of_mem_splitLines
  -- an entry is not blank
  have hblank : isBlankText (joinLines lines) = false := by
    obtain ⟨p, hp⟩ := List.exists_mem_of_ne_nil _ hne
    have hline : place.lineFor t.fields p ∈ splitLines (joinLines lines) := by
      rw [hsplit]
      exact List.mem_append_right _ (List.mem_append_left _ (List.mem_map_of_mem hp))
    have hat : '@' ∈ joinLines lines := (infix_of_mem_splitLines hline).subset (by
      simp [ParamsLine.lineFor, ParamsLine.line])
    exact Bool.eq_false_iff.2 fun h => absurd (List.all_eq_true.1 h '@' hat) (by decide)
  refine ⟨joinLines lines, ?_, hsplit⟩
  rw [Templates.comment?, comment?, hdropped, hblank]
  rfl

def tagAboveReturn : Text := joinLines ["/**".toList, " * Finds it".toList,
  " * <params>".toList, " * @return <instance>".toList, " */".toList]

def tagAboveReturnLine : ParamsLine tagAboveReturn where
  above := ["/**".toList, " * Finds it".toList]
  lead := " * ".toList
  ending := []
  below := [" * @return <instance>".toList, " */".toList]
  lines_eq := by decide
  first := by decide
  decoration := tagAloneLine.decoration
  end_eq := tagAloneLine.end_eq

def returnsTags : Method :=
  ⟨"find".toList, false, [⟨"a".toList, "int".toList⟩, ⟨"b".toList, "int".toList⟩],
    some "String".toList, none, some "\"<params><hasP>\"".toList, .nothing, 0⟩

theorem comment?_paramLines_tagAboveReturn :
    ∃ text, Templates.comment? { fields := some "/** the <instance> */".toList } tagAboveReturn
        (.method returnsTags none) = some text ∧
      splitLines text = ["/**", " * Finds it", " * @param a: the a", " * @param b: the b", " */"].map String.toList := by
  obtain ⟨text, htext, hlines⟩ := comment?_paramLines { fields := some "/** the <instance> */".toList }
    tagAboveReturnLine returnsTags none (by decide) (by decide) (by decide +kernel)
    (by decide +kernel)
  exact ⟨text, htext, hlines.trans (by decide +kernel)⟩

/-- A value above the tag that spells it takes its place. -/
example : Templates.comment? {} "/**\n * Finds <instance>\n * <params>\n */".toList
    (.method returnsTags none) = some "/**\n * Finds \"@param a:\n * @param b:\n */".toList := by
  decide +kernel

end Javadoc.Template
