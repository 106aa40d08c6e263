import Javadoc.Proofs.Template.Braces
import Javadoc.Proofs.Text.LineBreaks

/-! Carriage returns when tags are removed. A line that a value is deleted from loses its carriage return,
and one that a directive is cut out of keeps it. What stays of a text in CRLF is in CRLF exactly if the last
line that stays is the only one that lacks its carriage return. -/
namespace Javadoc.Template
open Text Comment

/-- A change of single lines that puts no carriage return into a line with one at its end at most: there
is none inside what is left of the line, and none at its end unless there was one before. -/
structure KeepsReturns (h : Text → Option Text) : Prop where
  inside : ∀ {line kept}, h line = some kept → '\r' ∉ line.dropLast → '\r' ∉ kept.dropLast
  last : ∀ {line kept}, h line = some kept → '\r' ∉ line.dropLast → kept.getLast? = some '\r' →
    line.getLast? = some '\r'

theorem KeepsReturns.free {h : Text → Option Text} (hh : KeepsReturns h) {line kept : Text}
    (hk : h line = some kept) (hr : '\r' ∉ line) : '\r' ∉ kept := by
  rw [return_not_mem_iff] at hr ⊢
  exact ⟨hh.inside hk hr.1, fun hl => hr.2 (hh.last hk hr.1 hl)⟩

/-- A line that a tag is deleted from does not end with a blank. -/
theorem return_not_mem_dropFromLine {tag : Tag} {line kept : Text}
    (h : dropFromLine tag line = some kept) (hin : tag.marker <:+: line) (hr : '\r' ∉ line.dropLast) :
    '\r' ∉ kept := by
  rcases dropFromLine_cases h with ⟨hno, -⟩ | ⟨-, rfl⟩
  · exact absurd hin hno
  · have hsublist := (Text.isPrefix_trimEnd (removeTag tag line)).sublist.trans (removeTag_sublist tag line)
    refine return_not_mem_iff.2 ⟨fun hm => hr ((dropLast_sublist_dropLast hsublist).subset hm), ?_⟩
    exact fun hlast => absurd (getLast?_dropEndWhile isBlank _ _ hlast) (by decide)

private theorem keepsReturns_dropFromLine (tag : Tag) : KeepsReturns (dropFromLine tag) := by
  refine ⟨fun {line kept} h hr => ?_, fun {line kept} h hr hlast => ?_⟩
  · rcases dropFromLine_cases h with ⟨-, rfl⟩ | ⟨hin, -⟩
    · exact hr
    · exact (return_not_mem_iff.1 (return_not_mem_dropFromLine h hin hr)).1
  · rcases dropFromLine_cases h with ⟨-, rfl⟩ | ⟨hin, -⟩
    · exact hlast
    · exact absurd (List.mem_of_getLast? hlast) (return_not_mem_dropFromLine h hin hr)

private theorem closing_spec (after : Text) : (closing after).Sublist (' ' :: after) ∧
    ((closing after).getLast? = some '\r' ↔ after.getLast? = some '\r') := by
  rw [closing]
  split
  · next front rest hb =>
    have hafter := breakOnLast?_eq_some hb
    rw [List.append_assoc] at hafter
    have hne : blockClose ++ rest ≠ [] := by simp [blockClose]
    refine ⟨?_, ?_⟩
    · rw [hafter]
      exact (List.sublist_append_right front _).cons_cons ' '
    · rw [hafter, ← List.singleton_append, List.getLast?_append_of_ne_nil _ hne,
        List.getLast?_append_of_ne_nil _ hne]
  · split
    · next hr =>
      rw [beq_iff_eq] at hr
      exact ⟨(List.singleton_sublist.2 (List.mem_of_getLast? hr)).cons ' ', by simp [hr]⟩
    · next hr => exact ⟨List.nil_sublist _, by simpa using hr⟩

/-- What a cut leaves of a line is a front of the text before the directive, and what it puts behind
that. -/
theorem cutDirective_split {before after kept : Text} (h : cutDirective before after = some kept) :
    ∃ k w, kept = k ++ w ∧ k <+: before ∧ (w = closing after ∨ w ≠ [] ∧ ' ' :: w = closing after) := by
  rw [cutDirective_eq] at h
  split at h
  · split at h
    · next rest hrest =>
      cases h
      refine ⟨_, rest, rfl, List.takeWhile_prefix _, .inr ⟨?_, hrest.symm⟩⟩
      rcases closing_cases after with ⟨-, hc | hc⟩ | ⟨front, rest', -, hc⟩
      · simp [hc] at hrest
      · simp [hc] at hrest
      · rintro rfl
        simp [hc, blockClose] at hrest
    · cases h
  · cases h
    exact ⟨_, _, rfl, isPrefix_trimEnd before, .inl rfl⟩

theorem getLast?_behind_marker (before after : Text) (tag : Tag) :
    (before ++ tag.marker ++ after).getLast? = some '\r' ↔ after.getLast? = some '\r' := by
  by_cases ha : after = []
  · rw [ha, List.append_nil, List.getLast?_append_of_ne_nil _ (marker_ne_nil tag), marker_eq,
      ← List.cons_append, List.getLast?_concat]
    simp
  · rw [List.getLast?_append_of_ne_nil _ ha]

theorem cutDirective_returns {tag : Tag} {before after kept : Text}
    (h : cutDirective before after = some kept)
    (hr : '\r' ∉ (before ++ (tag.marker ++ after)).dropLast) :
    '\r' ∉ kept.dropLast ∧
      (kept.getLast? = some '\r' ↔ (before ++ (tag.marker ++ after)).getLast? = some '\r') := by
  have hline := getLast?_behind_marker before after tag
  rw [List.append_assoc] at hline
  rw [List.dropLast_append_of_ne_nil (by simp [marker_ne_nil]), List.mem_append, not_or] at hr
  have hafter : '\r' ∉ after.dropLast := fun hm => hr.2 <|
    (dropLast_sublist_dropLast (List.sublist_append_right tag.marker after)).subset hm
  obtain ⟨k, w, rfl, hk, hw⟩ := cutDirective_split h
  have hkr : '\r' ∉ k := fun hm => hr.1 (hk.subset hm)
  obtain ⟨hsublist, hlast⟩ := closing_spec after
  have hwr : '\r' ∉ w.dropLast ∧ (w.getLast? = some '\r' ↔ after.getLast? = some '\r') := by
    have hspace : '\r' ∉ (' ' :: after).dropLast := by
      cases after with
      | nil => simp
      | cons c after => simpa using hafter
    have hclosing : '\r' ∉ (closing after).dropLast := fun hm =>
      hspace ((dropLast_sublist_dropLast hsublist).subset hm)
    rcases hw with rfl | ⟨hne, hw⟩
    · exact ⟨hclosing, hlast⟩
    · rw [← hw] at hclosing hlast
      rw [← List.singleton_append, List.getLast?_append_of_ne_nil _ hne] at hlast
      exact ⟨fun hm => hclosing ((dropLast_sublist_dropLast (List.sublist_cons_self ' ' w)).subset hm),
        hlast⟩
  rw [hline, ← hwr.2]
  by_cases hne : w = []
  · rw [hne, List.append_nil]
    exact ⟨fun hm => hkr (List.dropLast_subset k hm), by simpa using fun hl => hkr (List.mem_of_getLast? hl)⟩
  · rw [List.dropLast_append_of_ne_nil hne, List.getLast?_append_of_ne_nil _ hne]
    exact ⟨List.not_mem_append hkr hwr.1, Iff.rfl⟩

private theorem cutFromLine_cases {tag : Tag} {line kept : Text}
    (h : cutFromLine tag line = some kept) :
    kept = line ∨ ∃ before after, line = before ++ (tag.marker ++ after) ∧
      cutDirective before after = some kept := by
  rw [cutFromLine] at h
  split at h
  · next before after hb => exact .inr ⟨before, after, by simpa using breakOn?_eq_some hb, h⟩
  · exact .inl (Option.some.inj h).symm

/-- A line that a directive is cut out of keeps its carriage return. -/
theorem getLast?_cutFromLine {tag : Tag} {line kept : Text} (h : cutFromLine tag line = some kept)
    (hr : '\r' ∉ line.dropLast) : '\r' ∉ kept.dropLast ∧
      (kept.getLast? = some '\r' ↔ line.getLast? = some '\r') := by
  rcases cutFromLine_cases h with rfl | ⟨before, after, rfl, hcut⟩
  · exact ⟨hr, Iff.rfl⟩
  · exact cutDirective_returns hcut hr

private theorem keepsReturns_cutFromLine (tag : Tag) : KeepsReturns (cutFromLine tag) :=
  ⟨fun h hr => (getLast?_cutFromLine h hr).1, fun h hr => (getLast?_cutFromLine h hr).2.1⟩

def clearWith (tags : List Tag) (line : Text) : Option Text :=
  tags.foldlM (fun line tag => clearOne tag line) line

theorem keepsReturns_clearWith (tags : List Tag) : KeepsReturns (clearWith tags) := by
  have hone (tag : Tag) : KeepsReturns (clearOne tag) := by
    unfold clearOne
    cases tag.isDirective
    · exact keepsReturns_dropFromLine tag
    · exact keepsReturns_cutFromLine tag
  induction tags with
  | nil =>
    refine ⟨fun h hr => ?_, fun h _ hl => ?_⟩ <;> cases h
    · exact hr
    · exact hl
  | cons tag tags ih =>
    refine ⟨fun {line kept} h hr => ?_, fun {line kept} h hr hlast => ?_⟩ <;>
      rw [clearWith, List.foldlM_cons] at h <;>
      obtain ⟨mid, hmid, h⟩ := Option.bind_eq_some_iff.1 h
    · exact ih.inside h ((hone tag).inside hmid hr)
    · exact (hone tag).last hmid hr (ih.last h ((hone tag).inside hmid hr) hlast)

def holdsValue (tags : List Tag) (line : Text) : Bool :=
  tags.any fun tag => !tag.isDirective && includes tag.marker line

/-- A line keeps its carriage return exactly when no value is deleted from it. The directives go last:
one that is cut out could take a value along. -/
theorem getLast?_clearWith {tags : List Tag}
    (horder : tags.Pairwise fun s t => s.isDirective → t.isDirective) {line kept : Text}
    (h : clearWith tags line = some kept) (hr : '\r' ∉ line.dropLast) :
    kept.getLast? = some '\r' ↔ line.getLast? = some '\r' ∧ holdsValue tags line = false := by
  induction tags generalizing line with
  | nil =>
    cases h
    simp [holdsValue]
  | cons tag tags ih =>
    rw [clearWith, List.foldlM_cons] at h
    obtain ⟨mid, hmid, h⟩ := Option.bind_eq_some_iff.1 h
    rw [List.pairwise_cons] at horder
    rw [clearOne] at hmid
    cases hd : tag.isDirective with
    | true =>
      rw [if_pos hd] at hmid
      obtain ⟨hin, hlast⟩ := getLast?_cutFromLine hmid hr
      have hnone (line : Text) : holdsValue tags line = false :=
        List.any_eq_false.2 fun t ht => by simp [horder.1 t ht hd]
      rw [ih horder.2 h hin, hlast, hnone, holdsValue, List.any_cons, ← holdsValue, hnone]
      simp [hd]
    | false =>
      rw [if_neg (by simp [hd])] at hmid
      rw [holdsValue, List.any_cons, ← holdsValue, hd]
      by_cases hm : tag.marker <:+: line
      · have hfree := (keepsReturns_clearWith tags).free h (return_not_mem_dropFromLine hmid hm hr)
        rw [includes_iff.2 hm]
        simpa using fun hl => hfree (List.mem_of_getLast? hl)
      · rw [dropFromLine_eq_self hm] at hmid
        cases hmid
        rw [ih horder.2 h hr, includes_eq_false_iff.2 hm]
        simp

def removeTags (tags : List Tag) (t : Text) : Text :=
  joinLines ((splitLines t).filterMap (clearWith tags))

theorem linewise_removeTags (tags : List Tag) :
    Linewise (removeTags tags) fun line => (clearWith tags line).toList := by
  have hone (tag : Tag) : clearOne tag [] = some [] := by cases tag <;> decide
  have hnewline {tag : Tag} {line kept : Text} (h : clearOne tag line = some kept) :
      '\n' ∉ line → '\n' ∉ kept := by
    rw [clearOne] at h
    split at h
    · exact newline_not_mem_cutFromLine h
    · exact newline_not_mem_dropFromLine h
  refine .of_filterMap ?_ ?_
  · induction tags with
    | nil => rfl
    | cons tag tags ih =>
      rw [clearWith, List.foldlM_cons, hone]
      exact ih
  · induction tags with
    | nil =>
      intro line kept h hn
      cases h
      exact hn
    | cons tag tags ih =>
      intro line kept h hn
      rw [clearWith, List.foldlM_cons] at h
      obtain ⟨mid, hmid, h⟩ := Option.bind_eq_some_iff.1 h
      exact ih h (hnewline hmid hn)

theorem removeTags_all (t : Text) : dropTags t = removeTags Tag.all t := by
  rw [linewise_dropTags.apply, (linewise_removeTags Tag.all).apply]
  rfl

theorem removeTags_subject (t : Text) :
    dropTag .returnType (dropTag .subject t) = removeTags [.subject, .returnType] t := by
  rw [((linewise_dropTag .returnType).comp (linewise_dropTag .subject)).apply,
    (linewise_removeTags _).apply]
  refine congrArg joinLines (List.flatMap_congr fun line _ => ?_)
  rw [clearWith, List.foldlM_cons, clearOne, if_neg (by decide)]
  cases dropFromLine .subject line with
  | none => rfl
  | some kept =>
    simp [clearOne, Tag.isDirective]

def keepsReturn (tags : List Tag) (line : Text) : Bool :=
  line.getLast? == some '\r' && !holdsValue tags line

/-- Whether a text in CRLF is one still when tags are removed from it: of the lines that stay the last
one is the only one that lacks a carriage return then. -/
def keepsCrlf (tags : List Tag) (t : Text) : Bool :=
  let kept := (splitLines t).filter fun line => (clearWith tags line).isSome
  kept.dropLast.all (keepsReturn tags) && !kept.getLast?.any (keepsReturn tags)

theorem isCrlf_removeTags_iff {tags : List Tag}
    (horder : tags.Pairwise fun s t => s.isDirective → t.isDirective) {t : Text} (h : IsCrlf t) :
    IsCrlf (removeTags tags t) ↔ keepsCrlf tags t := by
  have hinside : ∀ line ∈ splitLines t, '\r' ∉ line.dropLast := by
    obtain ⟨front, last, hlines⟩ := exists_splitLines_concat t
    obtain ⟨hfront, hlast⟩ := (isCrlf_iff_lines hlines).1 h
    rw [hlines, List.forall_mem_append, List.forall_mem_singleton]
    exact ⟨fun line hline => (hfront line hline).1, fun hm => hlast (List.dropLast_subset last hm)⟩
  have hreturn {line kept : Text} (hline : line ∈ splitLines t)
      (hkept : clearWith tags line = some kept) :
      kept.getLast? = some '\r' ↔ keepsReturn tags line := by
    rw [getLast?_clearWith horder hkept (hinside line hline), keepsReturn]
    simp
  have hstay : ∀ line ∈ (splitLines t).filter fun line => (clearWith tags line).isSome,
      line ∈ splitLines t ∧ ∃ kept, clearWith tags line = some kept := by
    intro line hline
    obtain ⟨hline, hsome⟩ := List.mem_filter.1 hline
    exact ⟨hline, Option.isSome_iff_exists.1 hsome⟩
  have hkept : (splitLines t).filterMap (clearWith tags) =
      ((splitLines t).filter fun line => (clearWith tags line).isSome).filterMap (clearWith tags) := by
    rw [List.filterMap_filter]
    refine List.filterMap_congr fun line _ => ?_
    cases clearWith tags line <;> rfl
  rw [removeTags, hkept, keepsCrlf]
  rcases List.eq_nil_or_concat ((splitLines t).filter fun line => (clearWith tags line).isSome) with
    hnil | ⟨ls, l, hconcat⟩
  · rw [hnil]
    exact iff_of_true breakRule_isCrlf.nil rfl
  · rw [hconcat, List.concat_eq_append, List.forall_mem_append, List.forall_mem_singleton] at hstay
    obtain ⟨hls, hl, last, hlast⟩ := hstay
    have hnewline {line kept : Text} (hline : line ∈ splitLines t)
        (hkept : clearWith tags line = some kept) : '\n' ∉ kept :=
      (linewise_removeTags tags).lines line (not_mem_of_mem_splitLines hline) kept (by simp [hkept])
    have hfront : ∀ kept ∈ ls.filterMap (clearWith tags), '\n' ∉ kept := by
      intro kept hk
      obtain ⟨line, hline, hk⟩ := List.mem_filterMap.1 hk
      exact hnewline (hls line hline).1 hk
    simp only [hconcat, List.concat_eq_append, List.filterMap_append, List.filterMap_cons, hlast,
      List.filterMap_nil, List.dropLast_concat, List.getLast?_concat, Option.any_some]
    rw [isCrlf_joinLines_iff hfront (hnewline hl hlast), Bool.and_eq_true, List.all_eq_true,
      Bool.not_eq_true']
    refine and_congr ⟨fun hall line hline => ?_, fun hall kept hk => ?_⟩ ?_
    · obtain ⟨hline', kept, hk⟩ := hls line hline
      exact (hreturn hline' hk).1 (hall kept (List.mem_filterMap.2 ⟨line, hline, hk⟩)).2
    · obtain ⟨line, hline, hk⟩ := List.mem_filterMap.1 hk
      have hline' := (hls line hline).1
      exact ⟨(keepsReturns_clearWith tags).inside hk (hinside line hline'),
        (hreturn hline' hk).2 (hall line hline)⟩
    · rw [return_not_mem_iff, ← Bool.not_eq_true, ← hreturn hl hlast]
      exact and_iff_right ((keepsReturns_clearWith tags).inside hlast (hinside l hl))

end Javadoc.Template
