import Javadoc.Proofs.Template.LineBreaks

/-! Carriage returns in comments whose values bring line breaks along. A template that ends with the
closing delimiter keeps its last line whatever is removed from it. No line break that a value has put into
the text is cut in two then, and every carriage return stands before a line feed still. -/
namespace Javadoc

namespace Comment
open Text

/-- The lines of a description are trimmed, and hold no carriage return then. -/
theorem return_not_mem_description {comment : Text} (h : IsFed comment) :
    '\r' ∉ description comment := by
  intro hm
  rw [description] at hm
  rcases TypeExpr.mem_joinWith hm with hm | ⟨content, hc, hm⟩
  · exact absurd hm (by decide)
  obtain ⟨line, hline, rfl⟩ := List.mem_map.1 ((List.takeWhile_prefix _).subset (List.mem_filter.1 hc).1)
  obtain ⟨p, hp, hl⟩ := exists_piece_of_mem_linesOfPieces hline
  have hinside : '\r' ∉ p.dropLast := by
    have hline := List.IsChain.infix h.next ((infix_of_mem_splitLines hp).trans (inner_isInfix comment))
    exact (isChain_line_iff (by grind) (not_mem_of_mem_splitLines hp)).1 hline
  have hsublist := (lineContent_isInfix line).sublist.trans hl.sublist
  refine return_not_mem_iff.2 ⟨fun hm => ?_, fun hlast => ?_⟩ hm
  · exact hinside ((dropLast_sublist_dropLast hsublist).subset hm)
  · exact absurd (getLast?_dropEndWhile isBlank _ _ hlast) (by decide)

end Comment

namespace Template
open Text Comment

/-- A text that ends with the closing delimiter of a comment, and whose carriage returns all stand before
line feeds. -/
structure Closed (t : Text) : Prop where
  fed : IsFed t
  closes : blockClose <:+ t

theorem Closed.ne_nil {t : Text} (h : Closed t) : t ≠ [] := by
  rintro rfl
  exact absurd h.closes (by decide)

private theorem closes_replaceAll {pat value : Text} (hp : pat ≠ []) (hstar : '*' ∉ pat)
    (hslash : '/' ∉ pat)
    {t : Text} (h : blockClose <:+ t) : blockClose <:+ replaceAll pat value t := by
  obtain ⟨x, rfl⟩ := h
  have hclose : replaceAll pat value (x ++ '*' :: ([] ++ ['/'])) =
      replaceAll pat value x ++ blockClose := by
    rw [replaceAll_append_cons hstar hp, replaceAll_append_cons hslash hp]
    rfl
  exact ⟨_, hclose.symm⟩

private theorem Closed.enter {t : Text} (h : Closed t) (tag : Tag) {value : Text}
    (hv : IsFed value) :
    Closed (enter tag value t) where
  fed := breakRule_enter breakRule_isFed tag hv h.fed
  closes := closes_replaceAll (marker_ne_nil tag) (not_mem_marker tag).2.1 (by cases tag <;> decide)
    h.closes

private theorem Closed.enterReturnType {t type : Text} (h : Closed t) (htype : IsFed type) :
    Closed (enterReturnType type t) where
  fed := breakRule_enterReturnType breakRule_isFed htype h.fed
  closes := closes_replaceAll (by decide) (by decide) (by decide)
    (closes_replaceAll (by decide) (by decide) (by decide) h.closes)

structure KeepsClose (h : Text → Option Text) : Prop extends KeepsReturns h where
  line : ∀ {line kept}, h line = some kept → '\n' ∉ line → '\n' ∉ kept
  closes : ∀ {line}, blockClose <:+ line → ∃ kept, h line = some kept ∧ blockClose <:+ kept

private theorem closes_joinLines_iff (front : List Text) (last : Text) :
    blockClose <:+ joinLines (front ++ [last]) ↔ blockClose <:+ last := by
  induction front with
  | nil => rfl
  | cons l front ih =>
    rw [joinLines_cons_concat, ← ih]
    refine ⟨fun h => suffix_of_suffix_cons h (by decide), fun h => h.trans ?_⟩
    exact ⟨l ++ ['\n'], by simp⟩

private theorem Closed.filterMap_lines {t : Text} (ht : Closed t) {h : Text → Option Text}
    (hh : KeepsClose h) : Closed (joinLines ((splitLines t).filterMap h)) := by
  obtain ⟨front, last, hlines⟩ := exists_splitLines_concat t
  obtain ⟨hfront, hlast⟩ := (isFed_iff_lines hlines).1 ht.fed
  have hcloses := ht.closes
  rw [← joinLines_splitLines t, hlines, closes_joinLines_iff] at hcloses
  have hn : ∀ l ∈ front ++ [last], '\n' ∉ l := fun l hl => not_mem_of_mem_splitLines (hlines ▸ hl)
  rw [List.forall_mem_append, List.forall_mem_singleton] at hn
  obtain ⟨kept, hkept, hclose⟩ := hh.closes hcloses
  rw [hlines, List.filterMap_append, List.filterMap_cons, hkept, List.filterMap_nil]
  refine ⟨(isFed_joinLines_iff (fun l hl => ?_) (hh.line hkept hn.2)).2 ⟨fun l hl => ?_, ?_⟩,
    (closes_joinLines_iff _ _).2 hclose⟩
  · obtain ⟨line, hline, hl⟩ := List.mem_filterMap.1 hl
    exact hh.line hl (hn.1 line hline)
  · obtain ⟨line, hline, hl⟩ := List.mem_filterMap.1 hl
    exact hh.inside hl (hfront line hline)
  · exact hh.free hkept hlast

private theorem closes_removeTag {tag : Tag} {line : Text} (h : blockClose <:+ line) :
    blockClose <:+ removeTag tag line := by
  fun_induction removeTag tag line with
  | case1 line => exact h
  | case2 line before after hb around ih =>
    obtain ⟨b, d, e, a, rfl, hcut, he, -⟩ := removed_once hb
    refine ih (hcut ▸ List.IsSuffix.trans ?_ (List.suffix_append b a))
    refine suffix_of_suffix_cons (x := b ++ d) (c := e) (by simpa using h) ?_
    rcases he with he | ⟨rfl, -⟩
    · exact not_mem_blockClose e he
    · decide

private theorem closes_dropFromLine (tag : Tag) {line : Text} (h : blockClose <:+ line) :
    ∃ kept, dropFromLine tag line = some kept ∧ blockClose <:+ kept := by
  by_cases hin : tag.marker <:+: line
  · obtain ⟨x, hx⟩ : blockClose <:+ removeTag tag line := closes_removeTag h
    have hdelimits : delimits line := by
      rw [delimits, includes_iff.2 h.isInfix, Bool.or_true]
    have hdecorative : isDecorative (removeTag tag line) = false := by
      rw [← Bool.not_eq_true]
      exact fun hd => not_mem_of_isDecorative hd (hx ▸ List.mem_append_right x (by decide))
    have htrim : trimEnd (x ++ blockClose) = x ++ blockClose := by
      have := dropEndWhile_append_cons (p := isBlank) (c := '/') (by decide) (x ++ ['*']) []
      simpa [trimEnd, blockClose, dropEndWhile] using this
    refine ⟨trimEnd (removeTag tag line), ?_, ?_⟩
    · simp [dropFromLine, includes_iff.2 hin, hdelimits, hdecorative]
    · rw [← hx, htrim]
      exact List.suffix_append x blockClose
  · exact ⟨line, dropFromLine_eq_self hin, h⟩

private theorem closes_cutDirective {tag : Tag} {before after : Text}
    (h : blockClose <:+ before ++ (tag.marker ++ after)) :
    ∃ kept, cutDirective before after = some kept ∧ blockClose <:+ kept := by
  have hafter : blockClose <:+ after :=
    suffix_of_suffix_cons (x := before ++ '<' :: tag.name) (c := '>') (by simpa [marker_eq] using h)
      (by decide)
  rcases closing_cases after with ⟨hno, -⟩ | ⟨front, rest, hsplit, hc⟩
  · exact absurd hafter.isInfix hno
  · have hclose : blockClose <:+ blockClose ++ rest := by
      rw [hsplit] at hafter
      exact List.suffix_of_suffix_length_le hafter (List.suffix_append front _) (by simp)
    rw [cutDirective_eq, hc]
    split
    · exact ⟨_, rfl, hclose.trans (List.suffix_append _ _)⟩
    · refine ⟨_, rfl, hclose.trans ?_⟩
      exact (List.suffix_cons ' ' _).trans (List.suffix_append _ _)

private theorem closes_clearWith (tags : List Tag) {line : Text} (h : blockClose <:+ line) :
    ∃ kept, clearWith tags line = some kept ∧ blockClose <:+ kept := by
  have hone (tag : Tag) {line : Text} (h : blockClose <:+ line) :
      ∃ kept, clearOne tag line = some kept ∧ blockClose <:+ kept := by
    rw [clearOne]
    split
    · rw [cutFromLine]
      split
      · next before after hb =>
        rw [breakOn?_eq_some hb, List.append_assoc] at h
        exact closes_cutDirective h
      · exact ⟨line, rfl, h⟩
    · exact closes_dropFromLine tag h
  induction tags generalizing line with
  | nil => exact ⟨line, rfl, h⟩
  | cons tag tags ih =>
    obtain ⟨mid, hmid, hclose⟩ := hone tag h
    obtain ⟨kept, hkept, hclose⟩ := ih hclose
    refine ⟨kept, ?_, hclose⟩
    rw [clearWith, List.foldlM_cons, hmid]
    exact hkept

private theorem Closed.removeTags {t : Text} (h : Closed t) (tags : List Tag) :
    Closed (removeTags tags t) :=
  h.filterMap_lines
    { toKeepsReturns := keepsReturns_clearWith tags
      line := fun hk hn => (linewise_removeTags tags).lines _ hn _ (by simp [hk])
      closes := closes_clearWith tags }

/-- A line of a custom template stays as it is, or a directive is cut out of it. -/
theorem bodyLine_cases (line : Text) : CustomBody.bodyLine line = some line ∨
    ∃ (tag : Tag) (before after : Text), line = before ++ (tag.marker ++ after) ∧
      CustomBody.bodyLine line = cutDirective before after := by
  rw [CustomBody.bodyLine]
  split
  · exact .inl rfl
  · next hsplit => exact .inr ⟨_, _, _, splitAtMarkers_eq hsplit, rfl⟩

private theorem keepsClose_bodyLine : KeepsClose CustomBody.bodyLine where
  inside := by
    intro line kept h hr
    rcases bodyLine_cases line with hline | ⟨tag, before, after, rfl, hline⟩ <;> rw [hline] at h
    · exact Option.some.inj h ▸ hr
    · exact (cutDirective_returns h hr).1
  last := by
    intro line kept h hr hlast
    rcases bodyLine_cases line with hline | ⟨tag, before, after, rfl, hline⟩ <;> rw [hline] at h
    · exact Option.some.inj h ▸ hlast
    · exact (cutDirective_returns h hr).2.1 hlast
  line := by
    intro line kept h hn
    rcases bodyLine_cases line with hline | ⟨tag, before, after, rfl, hline⟩ <;> rw [hline] at h
    · exact Option.some.inj h ▸ hn
    · exact newline_not_mem_cutDirective h hn
  closes := by
    intro line h
    rcases bodyLine_cases line with hline | ⟨tag, before, after, rfl, hline⟩ <;> rw [hline]
    · exact ⟨line, rfl, h⟩
    · exact closes_cutDirective h

private theorem Closed.body {t : Text} (h : Closed t) : Closed (CustomBody.ofTemplate t).body :=
  h.filterMap_lines keepsClose_bodyLine

private theorem Closed.dropLine {before after : Text} (h : Closed after) (hb : IsFed before)
    (hd : isDecorative (lineHead before ++ lineTail after)) : Closed (dropLine before after) := by
  obtain ⟨above, head, habove⟩ := exists_splitLines_concat before
  obtain ⟨tail, below, hbelow⟩ := List.exists_cons_of_ne_nil (splitLines_ne_nil after)
  rw [lineTail_of_splitLines hbelow] at hd
  -- the line of the closing delimiter is no decoration, so that it is another one
  obtain ⟨below, last, rfl⟩ : ∃ front last, below = front ++ [last] := by
    rcases List.eq_nil_or_concat below with rfl | ⟨front, last, rfl⟩
    · have hafter := joinLines_splitLines after
      rw [hbelow] at hafter
      refine absurd (h.closes.subset (by decide : '/' ∈ blockClose)) fun hm => ?_
      rw [← hafter] at hm
      exact not_mem_of_isDecorative hd (List.mem_append_right _ hm)
    · exact ⟨front, last, List.concat_eq_append⟩
  rw [dropLine_eq habove hbelow, ← List.append_assoc]
  rw [← List.cons_append] at hbelow
  have hcloses := h.closes
  rw [← joinLines_splitLines after, hbelow, closes_joinLines_iff] at hcloses
  have hn : ∀ l ∈ above ++ below ++ [last], '\n' ∉ l := by
    intro l hl
    rw [List.append_assoc, List.mem_append] at hl
    rcases hl with hl | hl
    · exact not_mem_of_mem_splitLines (t := before) (by simp [habove, hl])
    · exact not_mem_of_mem_splitLines (t := after) (hbelow ▸ List.mem_cons_of_mem tail hl)
  obtain ⟨hfront, -⟩ := (isFed_iff_lines habove).1 hb
  obtain ⟨hback, hlast⟩ := (isFed_iff_lines hbelow).1 h.fed
  refine ⟨(isFed_joinLines_iff (fun l hl => hn l (List.mem_append_left _ hl)) (hn last (by simp))).2
    ⟨?_, hlast⟩, (closes_joinLines_iff _ _).2 hcloses⟩
  rw [List.forall_mem_append]
  exact ⟨hfront, fun l hl => hback l (List.mem_cons_of_mem tail hl)⟩

private theorem Closed.enterParameters {fields? : Option Text} {parameters : List Parameter}
    (hentries : ∀ p ∈ parameters, IsFed (paramEntry fields? p.name)) {t : Text} (h : Closed t) :
    Closed (enterParameters fields? parameters t) := by
  rw [Template.enterParameters]
  split
  · exact h
  · next before after hb =>
    have ht : t = before ++ '<' :: (Tag.params.name ++ '>' :: after) := by
      simpa [marker_eq] using breakOn?_eq_some hb
    obtain ⟨hfed, hcloses⟩ := h
    rw [ht] at hfed
    obtain ⟨hbefore, hfed⟩ := breakRule_isFed.cut (by decide) (by decide) hfed
    have hafter : Closed after := by
      refine ⟨(breakRule_isFed.cut (by decide) (by decide) hfed).2, ?_⟩
      rw [ht, ← List.cons_append, ← List.append_assoc] at hcloses
      exact suffix_of_suffix_cons hcloses (by decide)
    have hjoin {front : Text} (hf : IsFed front) : Closed (front ++ after) :=
      ⟨breakRule_isFed.append hf hafter.fed, hafter.closes.trans (List.suffix_append front after)⟩
    split
    · split
      · next hd => exact hafter.dropLine hbefore hd
      · exact hjoin hbefore
    · refine hjoin (breakRule_isFed.append hbefore (breakRule_isFed.of_joinWith ?_ ?_))
      · obtain ⟨above, head, habove⟩ := exists_splitLines_concat before
        have hhead := ((isFed_iff_lines habove).1 hbefore).2
        rw [lineHead_of_splitLines habove]
        refine breakRule_isFed.append ?_ (isFed_of_not_mem fun hm =>
          hhead ((Template.decorationOf_prefix head _ .params).subset hm))
        split
        · exact IsCrlf.isFed (by decide)
        · exact isFed_of_not_mem (by decide)
      · intro entry hentry
        obtain ⟨p, hp, rfl⟩ := List.mem_map.1 hentry
        exact hentries p hp

private theorem isFed_paramEntry {fields? : Option Text} (hf : ∀ f ∈ fields?, Closed f)
    {name : Text}
    (hn : IsFed name) : IsFed (paramEntry fields? name) := by
  have hP := breakRule_isFed
  have hdescription : '\r' ∉ parameterDescription fields? name := by
    cases fields? with
    | none => simp [parameterDescription]
    | some fields =>
      have hfilled := ((hf fields rfl).enter .subject hn).enter .className hn
      rw [parameterDescription, removeTags_all]
      exact return_not_mem_description (hfilled.removeTags Tag.all).fed
  have hlead : IsFed ("@param ".toList ++ name ++ [':']) :=
    hP.append (hP.append (isFed_of_not_mem (by decide)) hn) (isFed_of_not_mem (by decide))
  rw [paramEntry]
  split
  · exact hlead
  · exact hP.append hlead (hP.cons (by decide) (by decide) (isFed_of_not_mem hdescription))

/-- A closed template stays closed when the values of a target are entered that have their carriage
returns before line feeds. -/
theorem Closed.fill {fields? : Option Text} (hf : ∀ f ∈ fields?, Closed f) {template : Text}
    (h : Closed template) {target : Target} (ht : ∀ x ∈ target.texts, IsFed x) :
    Closed (fill fields? target template) := by
  cases target with
  | «class» name | field name =>
    have hname := ht name (by simp [Target.texts])
    exact (h.enter .className hname).enter .subject hname
  | constructor m =>
    refine (h.enter .className (ht m.name (by simp [Target.texts]))).enterParameters fun p hp => ?_
    exact isFed_paramEntry hf (ht _ (List.mem_cons_of_mem _ (List.mem_map_of_mem hp)))
  | method m container? =>
    rw [Template.fill, fillMethod_eq]
    refine Closed.enterParameters (fun p hp => isFed_paramEntry hf (ht _ ?_)) ?_
    · exact List.mem_append_left _ (List.mem_append_left _ (List.mem_map_of_mem hp))
    refine enterValues_of (fun value hs => h.enter .subject ?_) (fun _ => ?_) fun type text hr h => ?_
    · rcases subject?_cases hs with hv | hw
      · exact ht value hv
      · exact isFed_of_not_mem fun hm => absurd (hw _ hm) (by decide)
    · rw [removeTags_subject]
      exact h.removeTags _
    · exact h.enterReturnType (ht type (by simp [Target.texts, hr]))

private theorem closed_of_comment? {fields? : Option Text} (hf : ∀ f ∈ fields?, Closed f)
    {template : Text}
    (h : Closed template) {target : Target} (ht : ∀ x ∈ target.texts, IsFed x) {text : Text}
    (hc : comment? fields? template target = some text) : Closed text := by
  simp only [comment?] at hc
  split at hc
  · cases hc
  · rw [← Option.some.inj hc, removeTags_all]
    exact (h.fill hf ht).removeTags Tag.all

end Template

namespace Templates
open Template Text

variable {t : Templates} (h : ∀ template ∈ t.texts, Closed template)
include h

private theorem closed_fields : ∀ f ∈ t.fields, Closed f := fun f hf =>
  h f (by simp [texts, Option.mem_def.1 hf])

theorem closed_classComment? {own : ClassInfo} (hn : IsFed own.name) :
    ∀ text ∈ t.classComment? own, Closed text := by
  intro text hc
  obtain ⟨template, hs, hc⟩ := Option.bind_eq_some_iff.1 (Option.mem_def.1 hc)
  exact closed_of_comment? (closed_fields h) (h template (by simp [texts, hs]))
    (by simpa [Target.texts] using hn) hc

theorem closed_fieldComment? {f : Field} (hn : IsFed f.name) :
    ∀ text ∈ t.fieldComment? f, Closed text := by
  intro text hc
  obtain ⟨template, hs, hc⟩ := Option.bind_eq_some_iff.1 (Option.mem_def.1 hc)
  exact closed_of_comment? (closed_fields h) (h template (by simp [texts, hs]))
    (by simpa [Target.texts] using hn) hc

theorem closed_constructorComment? {m : Method} (hm : ∀ x ∈ (Target.constructor m).texts, IsFed x) :
    ∀ text ∈ t.constructorComment? m, Closed text := by
  intro text hc
  obtain ⟨template, hs, hc⟩ := Option.bind_eq_some_iff.1 (Option.mem_def.1 hc)
  exact closed_of_comment? (closed_fields h) (h template (by simp [texts, hs])) hm hc

theorem closed_methodComment? {m : Method} {container? : Option ClassInfo}
    (hm : ∀ x ∈ (Target.method m container?).texts, IsFed x) :
    ∀ text ∈ t.methodComment? m container?, Closed text := by
  intro text hc
  obtain ⟨-, -, hc⟩ := Option.bind_eq_some_iff.1 (Option.mem_def.1 hc)
  split at hc
  · obtain ⟨selected, hs, hc⟩ := Option.bind_eq_some_iff.1 hc
    obtain ⟨template, hmem, hbody⟩ := select?_mem hs
    rw [hbody] at hc
    exact closed_of_comment? (closed_fields h) (h template hmem).body hm hc
  · obtain ⟨template, hrole, hc⟩ := Option.bind_eq_some_iff.1 hc
    rcases role?_cases hrole with hmem | rfl
    · exact closed_of_comment? (closed_fields h) (h template hmem) hm hc
    · exact closed_of_comment? (closed_fields h) ⟨isFed_of_not_mem (by decide), by decide⟩ hm hc

end Templates
end Javadoc
