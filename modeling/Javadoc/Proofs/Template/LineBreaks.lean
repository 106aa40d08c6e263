import Javadoc.Proofs.Template.Enclosure
import Javadoc.Proofs.Template.Returns
import Javadoc.Proofs.Template.Values

/-! The line breaks of a filled in template. Values are entered inside the lines, and the entries for
parameters take over the line break of the line of their tag. A template in CRLF gives a comment in CRLF
unless a line that is cut short stays in front of others, or the end of the text goes away. -/
namespace Javadoc

namespace Comment
open Text

theorem inner_isInfix (comment : Text) : inner comment <:+: comment := by
  have hsuffix (lead t : Text) : ∀ r ∈ stripPrefix? lead t, r <:+ t := by
    intro r hr
    rw [stripPrefix?, Option.mem_def] at hr
    split at hr
    · cases hr
      exact List.drop_suffix _ _
    · cases hr
  have hstart (tail t : Text) : (stripSuffix? tail t).getD t <+: t := by
    rw [stripSuffix?]
    split
    · exact List.take_prefix _ _
    · exact List.prefix_refl t
  rw [inner]
  refine (hstart _ _).isInfix.trans (List.IsInfix.trans ?_ (Text.isInfix_trim comment))
  split
  · next rest hrest => exact (hsuffix _ _ rest hrest).isInfix
  · cases hb : stripPrefix? blockOpen (Text.trim comment) with
    | none => exact List.infix_refl _
    | some rest => exact (hsuffix _ _ rest hb).isInfix

private theorem mem_of_mem_description {c : Char} (hc : c ≠ ' ') {comment : Text}
    (h : c ∈ description comment) : c ∈ comment := by
  have hin : [c] <:+: description comment := by
    obtain ⟨a, b, hab⟩ := List.append_of_mem h
    exact ⟨a, b, by rw [hab]; simp⟩
  obtain ⟨p, hp, hpat⟩ := exists_line_of_infix_description (by simpa using hc.symm) (by simp) hin
  exact (hpat.trans ((infix_of_mem_splitLines hp).trans (inner_isInfix comment))).subset
    List.mem_cons_self

end Comment

namespace Template
open Text Comment

theorem lineHead_of_splitLines {t head : Text} {above : List Text} (h : splitLines t = above ++ [head]) :
    lineHead t = head := by
  have ht : t = above.flatMap (· ++ ['\n']) ++ head := by simpa using eq_of_splitLines above h
  rw [ht]
  refine lineHead_of_not_mem (not_mem_of_mem_splitLines (t := t) (by simp [h])) ?_
  rcases List.eq_nil_or_concat above with rfl | ⟨ls, l, rfl⟩ <;> simp

theorem lineTail_of_splitLines {t tail : Text} {below : List Text} (h : splitLines t = tail :: below) :
    lineTail t = tail := by
  have ht : t = tail ++ below.flatMap ('\n' :: ·) := eq_of_splitLines [] h
  rw [ht]
  refine lineTail_of_not_mem (not_mem_of_mem_splitLines (t := t) (by simp [h])) ?_
  cases below <;> simp

/-- The decoration of a line stands in front of its tags. -/
theorem decorationOf_prefix (head tail : Text) (tag : Tag) :
    decorationOf (head ++ tag.marker ++ tail) <+: head := by
  have hblank (line : Text) : '<' ∉ line.takeWhile isBlank := fun hm =>
    absurd (List.all_eq_true.1 List.all_takeWhile '<' hm) (by decide)
  have hdecoration (line : Text) : decorationOf line <+: line ∧ '<' ∉ decorationOf line := by
    rw [decorationOf]
    split
    · next rest hrest =>
      split
      · exact ⟨List.takeWhile_prefix _, hblank line⟩
      · have hgap : '<' ∉ rest.takeWhile isGap := fun hm =>
          absurd (List.all_eq_true.1 List.all_takeWhile '<' hm) (by decide)
        refine ⟨?_, by simp [hblank, hgap]⟩
        conv_rhs => rw [← List.takeWhile_append_dropWhile (p := isBlank) (l := line), hrest]
        rw [List.prefix_append_right_inj, List.prefix_cons_inj]
        exact List.takeWhile_prefix _
    · exact ⟨List.takeWhile_prefix _, hblank line⟩
  rw [List.append_assoc]
  obtain ⟨hpre, hno⟩ := hdecoration (head ++ (tag.marker ++ tail))
  refine prefix_of_prefix_append hpre fun c hc => ?_
  obtain rfl : '<' = c := by simpa [marker_eq] using hc
  exact hno

/-- Whether a text in CRLF is one still when the parameters are entered. The line of the tag takes the
line feed behind it along when it is dropped, and passes its own line break on to the entries. At the
end of the text the one is dangling, and the other is a bare line feed. -/
def keepsParameters (parameters : List Parameter) (t : Text) : Bool :=
  match breakOn? Tag.params.marker t with
  | none => true
  | some (before, after) =>
    after.contains '\n' ||
      if parameters.isEmpty then
        !isDecorative (lineHead before ++ lineTail after) || !before.contains '\n'
      else parameters.length == 1

/-- A text without carriage returns gets none when tags are removed from it. -/
theorem return_not_mem_dropTags {t : Text} (h : '\r' ∉ t) : '\r' ∉ dropTags t := by
  rw [removeTags_all, removeTags]
  intro hm
  rcases TypeExpr.mem_joinWith hm with hm | ⟨kept, hk, hm⟩
  · exact absurd hm (by decide)
  · obtain ⟨line, hline, hk⟩ := List.mem_filterMap.1 hk
    exact (keepsReturns_clearWith Tag.all).free hk
      (fun hr => h ((infix_of_mem_splitLines hline).subset hr)) hm

private theorem return_not_mem_paramEntry {fields? : Option Text} (hf : ∀ f ∈ fields?, '\r' ∉ f)
    {name : Text} (hn : '\r' ∉ name) : '\r' ∉ paramEntry fields? name := by
  have hP := breakRule_not_mem '\r' (.inl rfl)
  have hdescription : '\r' ∉ parameterDescription fields? name := by
    cases fields? with
    | none => simp [parameterDescription]
    | some fields =>
      have hfilled := breakRule_enter hP .className hn (breakRule_enter hP .subject hn (hf fields rfl))
      exact fun hm => return_not_mem_dropTags hfilled (mem_of_mem_description (by decide) hm)
  have hlead : '\r' ∉ "@param ".toList ++ name ++ [':'] :=
    List.not_mem_append (List.not_mem_append (by decide) hn) (by decide)
  rw [paramEntry]
  split
  · exact hlead
  · exact List.not_mem_append hlead (List.not_mem_cons_of_ne_of_not_mem (by decide) hdescription)

private theorem newline_not_mem_paramEntry (fields? : Option Text) {name : Text}
    (hn : '\n' ∉ name) :
    '\n' ∉ paramEntry fields? name := by
  have hlead : '\n' ∉ "@param ".toList ++ name ++ [':'] :=
    List.not_mem_append (List.not_mem_append (by decide) hn) (by decide)
  rw [paramEntry]
  split
  · exact hlead
  · exact List.not_mem_append hlead (List.not_mem_cons_of_ne_of_not_mem (by decide)
      (newline_not_mem_parameterDescription fields? name))

private theorem isCrlf_dropLine_iff {before after head tail : Text} {above below : List Text}
    (habove : splitLines before = above ++ [head]) (hbelow : splitLines after = tail :: below)
    (hbefore : IsCrlf before) (hafter : IsCrlf after) :
    IsCrlf (dropLine before after) ↔ '\n' ∈ after ∨ '\n' ∉ before := by
  obtain ⟨hfront, -⟩ := (isCrlf_iff_lines habove).1 hbefore
  have hn : ∀ l ∈ above, '\n' ∉ l := fun l hl =>
    not_mem_of_mem_splitLines (t := before) (by simp [habove, hl])
  rw [dropLine_eq habove hbelow]
  rcases List.eq_nil_or_concat below with rfl | ⟨ls, last, rfl⟩
  · have hno : '\n' ∉ after := newline_not_mem_iff.2 ⟨tail, hbelow⟩
    rw [List.append_nil, or_iff_right hno]
    rcases List.eq_nil_or_concat above with rfl | ⟨ls, l, rfl⟩
    · exact iff_of_true breakRule_isCrlf.nil (newline_not_mem_iff.2 ⟨head, habove⟩)
    · rw [List.concat_eq_append] at *
      refine iff_of_false (fun h => ?_) fun h => ?_
      · have hl := ((isCrlf_joinLines_iff (fun l hl => hn l (List.mem_append_left _ hl))
          (hn l (by simp))).1 h).2
        exact hl (List.mem_of_getLast? (hfront l (by simp)).2)
      · obtain ⟨m, hm⟩ := newline_not_mem_iff.1 h
        have hlength := congrArg List.length (habove.symm.trans hm)
        simp at hlength
  · rw [List.concat_eq_append, ← List.cons_append] at hbelow
    obtain ⟨htail, hlast⟩ := (isCrlf_iff_lines hbelow).1 hafter
    have hm : '\n' ∈ after := by
      by_contra h
      obtain ⟨m, hm⟩ := newline_not_mem_iff.1 h
      simp [hbelow] at hm
    refine iff_of_true ?_ (.inl hm)
    have hn' : ∀ l ∈ ls ++ [last], '\n' ∉ l := fun l hl =>
      not_mem_of_mem_splitLines (t := after) (by
        rw [hbelow, List.cons_append]
        exact List.mem_cons_of_mem tail hl)
    rw [List.concat_eq_append, ← List.append_assoc, isCrlf_joinLines_iff ?_ (hn' last (by simp))]
    · refine ⟨fun l hl => ?_, hlast⟩
      rcases List.mem_append.1 hl with hl | hl
      · exact hfront l hl
      · exact htail l (List.mem_cons_of_mem tail hl)
    · intro l hl
      rcases List.mem_append.1 hl with hl | hl
      · exact hn l hl
      · exact hn' l (List.mem_append_left _ hl)

/-- The first line of a text in CRLF has a carriage return, unless it is the last one. -/
theorem getLast?_of_splitLines {t tail : Text} {below : List Text} (h : splitLines t = tail :: below)
    (ht : IsCrlf t) : tail.getLast? = some '\r' ↔ '\n' ∈ t := by
  rcases first_line_cases t with hno | ⟨l, u, rfl, hl⟩
  · rw [splitLines_of_not_mem hno, List.cons.injEq] at h
    exact iff_of_false (h.1 ▸ ht.last) hno
  · rw [splitLines_line_append hl, List.cons.injEq] at h
    exact iff_of_true (h.1 ▸ ht.returned) (by simp)

private theorem isCrlf_decorationOf {before head : Text} {above : List Text}
    (h : splitLines before = above ++ [head]) (hbefore : IsCrlf before) (tail : Text) (tag : Tag) :
    IsCrlf (decorationOf (head ++ tag.marker ++ tail)) := by
  have hpre := decorationOf_prefix head tail tag
  have hreturn : '\r' ∉ head := ((isCrlf_iff_lines h).1 hbefore).2
  have hnewline : '\n' ∉ head := not_mem_of_mem_splitLines (t := before) (by simp [h])
  exact breakRule_isCrlf.of_plain fun c hc =>
    ⟨fun h => hreturn (hpre.subset (h ▸ hc)), fun h => hnewline (hpre.subset (h ▸ hc))⟩

/-- Several entries on lines with bare line feeds break the rule, a single one does not. -/
theorem isCrlf_entries_iff {before after decoration entry : Text} {entries : List Text}
    (hbefore : IsCrlf before) (hafter : IsCrlf after) (hentry : IsCrlf entry) (hne : entry ≠ []) :
    IsCrlf (before ++ joinWith ('\n' :: decoration) (entry :: entries) ++ after) ↔
      entries = [] := by
  cases entries with
  | nil =>
    exact iff_of_true (breakRule_isCrlf.append (breakRule_isCrlf.append hbefore hentry) hafter) rfl
  | cons next entries =>
    refine iff_of_false (fun h => ?_) (by simp)
    simp only [joinWith, List.append_assoc, List.cons_append] at h
    rw [← List.append_assoc] at h
    have hreturn := h.returned
    rw [List.getLast?_append_of_ne_nil _ hne] at hreturn
    exact hentry.last hreturn

private theorem isCrlf_enterParameters_iff {fields? : Option Text} {parameters : List Parameter}
    (hentries : ∀ p ∈ parameters, '\r' ∉ paramEntry fields? p.name ∧ '\n' ∉ paramEntry fields? p.name)
    {t : Text} (h : IsCrlf t) :
    IsCrlf (enterParameters fields? parameters t) ↔ keepsParameters parameters t := by
  rw [enterParameters, keepsParameters]
  cases hb : breakOn? Tag.params.marker t with
  | none => exact iff_of_true h rfl
  | some found =>
    obtain ⟨before, after⟩ := found
    simp only
    have ht : t = before ++ '<' :: (Tag.params.name ++ '>' :: after) := by
      simpa [marker_eq] using breakOn?_eq_some hb
    rw [ht] at h
    have hbefore : IsCrlf before := (breakRule_isCrlf.cut (by decide) (by decide) h).1
    have hafter : IsCrlf after := (breakRule_isCrlf.cut (x := Tag.params.name) (by decide) (by decide)
      (breakRule_isCrlf.cut (by decide) (by decide) h).2).2
    obtain ⟨above, head, habove⟩ := exists_splitLines_concat before
    obtain ⟨tail, below, hbelow⟩ := List.exists_cons_of_ne_nil (splitLines_ne_nil after)
    rw [lineHead_of_splitLines habove, lineTail_of_splitLines hbelow]
    have hentries : ∀ entry ∈ parameters.map fun p => paramEntry fields? p.name, IsCrlf entry := by
      intro entry hentry
      obtain ⟨p, hp, rfl⟩ := List.mem_map.1 hentry
      exact breakRule_isCrlf.of_plain fun c hc =>
        ⟨fun h => (hentries p hp).1 (h ▸ hc), fun h => (hentries p hp).2 (h ▸ hc)⟩
    cases parameters with
    | nil =>
      simp only [List.isEmpty_nil, if_true]
      by_cases hd : isDecorative (head ++ tail)
      · rw [if_pos hd, isCrlf_dropLine_iff habove hbelow hbefore hafter]
        simp [hd]
      · rw [if_neg hd]
        exact iff_of_true (breakRule_isCrlf.append hbefore hafter) (by simp [hd])
    | cons p ps =>
      simp only [List.isEmpty_cons, if_false, Bool.false_eq_true]
      have hdecoration := isCrlf_decorationOf habove hbefore tail .params
      have hlast := (getLast?_behind_marker head tail .params).trans
        (getLast?_of_splitLines hbelow hafter)
      by_cases hm : '\n' ∈ after
      · rw [beq_iff_eq.2 (hlast.2 hm), if_pos rfl]
        have hsep := breakRule_isCrlf.append (x := ['\r', '\n']) (by decide) hdecoration
        refine iff_of_true ?_ (by simp [hm])
        exact breakRule_isCrlf.append (breakRule_isCrlf.append hbefore
          (breakRule_isCrlf.of_joinWith hsep hentries)) hafter
      · -- the line of the tag is the last one, and the entries are put on lines with bare line feeds
        rw [if_neg fun h => hm (hlast.1 (beq_iff_eq.1 h)), List.map_cons, List.singleton_append,
          isCrlf_entries_iff hbefore hafter (hentries _ List.mem_cons_self)]
        · simp [hm]
        · intro hnil
          have := head?_paramEntry fields? p.name
          simp [hnil] at this

/-- Whether a text in CRLF is one still when values are entered: nothing but what is deleted for want of
a subject, and the entries for the parameters, can break the rule. -/
def fillKeepsCrlf (target : Target) (template : Text) : Bool :=
  match target with
  | .class _ | .field _ => true
  | .constructor m => keepsParameters m.parameters (enter .className m.name template)
  | .method m container? =>
    ((subject? m container?).isSome || keepsCrlf [.subject, .returnType] template) &&
      keepsParameters m.parameters (enterValues m container? template)

/-- The texts of a target that are entered in a template: its names, the expression that it returns and
the type that it has. -/
def Target.texts : Target → List Text
  | .class name | .field name => [name]
  | .constructor m => m.name :: m.parameters.map (·.name)
  | .method m container? => m.parameters.map (·.name) ++ (m.returned?.toList ++ m.returnType?.toList) ++
      container?.toList.flatMap fun own => own.fields.map (·.name)

theorem subject?_cases {m : Method} {container? : Option ClassInfo} {value : Text}
    (h : subject? m container? = some value) :
    value ∈ (Target.method m container?).texts ∨ ∀ c ∈ value, isWord c := by
  rw [subject?] at h
  split at h
  · next name hname =>
    cases h
    split at hname
    · cases container? with
      | some own =>
        rcases Assignment.target?_cases hname with hw | ⟨f, hf, rfl⟩
        · exact .inr hw
        · exact .inl (List.mem_append_right _ (by simpa using ⟨f, hf, rfl⟩))
      | none =>
        rw [Assignment.target?] at hname
        split at hname
        · next word hword =>
          cases hname
          exact .inr (Assignment.firstThis?_isWord hword)
        · cases hname
    · cases hname
  · exact .inl (by simp [Target.texts, h])

/-- What holds of a template with its subject entered, or without the lines that ask for one, and stays
when the return type is entered holds of the template with its values entered. -/
theorem enterValues_of {P : Text → Prop} {m : Method} {container? : Option ClassInfo} {template : Text}
    (hsome : ∀ value, subject? m container? = some value → P (enter .subject value template))
    (hnone : subject? m container? = none → P (dropTag .returnType (dropTag .subject template)))
    (htype : ∀ type text, m.returnType? = some type → P text → P (enterReturnType type text)) :
    P (enterValues m container? template) := by
  rw [enterValues]
  cases hs : subject? m container? with
  | some value =>
    cases hr : m.returnType? with
    | some type => exact htype type _ hr (hsome value hs)
    | none => exact hsome value hs
  | none =>
    cases hr : m.returnType? with
    | some type => exact htype type _ hr (hnone hs)
    | none => exact hnone hs

private theorem isCrlf_enterValues {template : Text} (h : IsCrlf template) {m : Method}
    {container? : Option ClassInfo}
    (ht : ∀ x ∈ (Target.method m container?).texts, IsCrlf x)
    (hvalues : (subject? m container?).isSome ∨ keepsCrlf [.subject, .returnType] template) :
    IsCrlf (enterValues m container? template) := by
  refine enterValues_of (fun value hs => ?_) (fun hs => ?_) fun type text hr h => ?_
  · refine breakRule_enter breakRule_isCrlf .subject ?_ h
    rcases subject?_cases hs with hv | hw
    · exact ht value hv
    · exact breakRule_isCrlf.of_plain fun c hc => by
        constructor <;> rintro rfl <;> exact absurd (hw _ hc) (by decide)
  · rw [removeTags_subject, isCrlf_removeTags_iff (by decide) h]
    simpa [hs] using hvalues
  · exact breakRule_enterReturnType breakRule_isCrlf (ht type (by simp [Target.texts, hr])) h

private theorem isCrlf_fill {fields? : Option Text} {template : Text} (h : IsCrlf template)
    (hf : ∀ f ∈ fields?, '\r' ∉ f) {target : Target}
    (ht : ∀ x ∈ target.texts, '\r' ∉ x ∧ '\n' ∉ x) (hfill : fillKeepsCrlf target template) :
    IsCrlf (fill fields? target template) := by
  have hvalue : ∀ x ∈ target.texts, IsCrlf x := fun x hx =>
    breakRule_isCrlf.of_plain fun c hc => ⟨fun h => (ht x hx).1 (h ▸ hc), fun h => (ht x hx).2 (h ▸ hc)⟩
  have hentry {p : Parameter} (hp : p.name ∈ target.texts) :
      '\r' ∉ paramEntry fields? p.name ∧ '\n' ∉ paramEntry fields? p.name :=
    ⟨return_not_mem_paramEntry hf (ht _ hp).1, newline_not_mem_paramEntry fields? (ht _ hp).2⟩
  cases target with
  | «class» name | field name =>
    have hname := hvalue name (by simp [Target.texts])
    exact breakRule_enter breakRule_isCrlf .subject hname
      (breakRule_enter breakRule_isCrlf .className hname h)
  | constructor m =>
    have hname := hvalue m.name (by simp [Target.texts])
    refine (isCrlf_enterParameters_iff (fun p hp => hentry ?_)
      (breakRule_enter breakRule_isCrlf .className hname h)).2 hfill
    exact List.mem_cons_of_mem _ (List.mem_map_of_mem hp)
  | method m container? =>
    rw [fillKeepsCrlf, Bool.and_eq_true, Bool.or_eq_true] at hfill
    rw [fill, fillMethod_eq]
    refine (isCrlf_enterParameters_iff (fun p hp => hentry ?_)
      (isCrlf_enterValues h hvalue hfill.1)).2 hfill.2
    exact List.mem_append_left _ (List.mem_append_left _ (List.mem_map_of_mem hp))

/-- A template in CRLF gives a comment in CRLF, unless what a declaration has no value for is deleted from
a line that stays in front of others, or goes away at the end of the text: the lines that stay of the
filled in template all keep their carriage returns but the last one. -/
theorem comment?_isCrlf (t : Templates) {template : Text} (h : IsCrlf template)
    (hf : ∀ f ∈ t.fields, '\r' ∉ f) {target : Target}
    (ht : ∀ x ∈ target.texts, '\r' ∉ x ∧ '\n' ∉ x) (hfill : fillKeepsCrlf target template)
    {text : Text} (hc : t.comment? template target = some text) :
    IsCrlf text ↔ keepsCrlf Tag.all (fill t.fields target template) := by
  have htext : text = removeTags Tag.all (fill t.fields target template) := by
    simp only [Templates.comment?, comment?] at hc
    split at hc
    · cases hc
    · rw [← removeTags_all]
      exact (Option.some.inj hc).symm
  rw [htext]
  exact isCrlf_removeTags_iff (by decide) (isCrlf_fill h hf ht hfill)

def sums : Method :=
  ⟨"sum".toList, false, [⟨"a".toList, "int".toList⟩, ⟨"b".toList, "int".toList⟩], some "int".toList,
    none, some "a+b".toList, .nothing, 0⟩

/-- Entries for parameters, a line that goes away, and a directive that is cut out of a line. -/
theorem comment?_isCrlf_leftovers :
    let template := "/**\r\n * Gives <instance> <hasP> a\r\n * <params>\r\n * @return <className>\r\n */".toList
    IsCrlf template ∧ ∃ text, Templates.comment? {} template (.method sums none) = some text ∧
      text = "/**\r\n * Gives a+b\r\n * @param a:\r\n * @param b:\r\n */".toList ∧ IsCrlf text := by
  intro template
  have h : IsCrlf template := by decide +kernel
  have hc : Templates.comment? {} template (.method sums none) = some
      "/**\r\n * Gives a+b\r\n * @param a:\r\n * @param b:\r\n */".toList := by decide +kernel
  exact ⟨h, _, hc, rfl, (comment?_isCrlf {} h (by decide) (by decide) (by decide +kernel) hc).2
    (by decide +kernel)⟩

/-- A line that is cut short in front of another one, and a last line that goes away. -/
example : Templates.comment? {} "/**\r\n * A <returnType> b\r\n */\r\n<params>".toList (.class "A".toList) =
    some "/**\r\n * A b\n */\r".toList := by decide +kernel

end Template
end Javadoc
