import Javadoc.Template.Resolve
import Javadoc.Proofs.Sync.Descriptions

/-! Entries that a template generates are entries that a change of a description finds again. The
generated text has one such line for each parameter, and a change rewrites the line of its parameter
and no other. -/
namespace Javadoc

namespace Text

theorem joinLines_around (above below : List Text) {ls : List Text} (hne : ls ≠ []) :
    joinLines (above ++ (ls ++ below)) =
      above.flatMap (· ++ ['\n']) ++ (joinLines ls ++ below.flatMap ('\n' :: ·)) := by
  have hbelow : joinLines (ls ++ below) = joinLines ls ++ below.flatMap ('\n' :: ·) := by
    induction below generalizing ls with
    | nil => simp
    | cons m ms ih =>
      rw [List.append_cons, ih (by simp), joinLines_append hne (by simp)]
      simp [joinLines, joinWith]
  induction above with
  | nil => exact hbelow
  | cons l above ih =>
    obtain ⟨m, ms, hm⟩ := List.exists_cons_of_ne_nil (l := above ++ (ls ++ below)) (by simp [hne])
    rw [List.cons_append, hm, joinLines_cons_cons, ← hm, ih]
    simp

/-- The text that has given lines. -/
theorem eq_of_splitLines {t l : Text} (above : List Text) {below : List Text}
    (h : splitLines t = above ++ l :: below) :
    t = above.flatMap (· ++ ['\n']) ++ (l ++ below.flatMap ('\n' :: ·)) := by
  have hjoin := joinLines_splitLines t
  rw [h, ← List.singleton_append, joinLines_around above below (by simp)] at hjoin
  exact hjoin.symm

/-- The texts between whose starts and ends the same separator stands are lines of their own. -/
theorem joinWith_between {lead ending : Text} {ts : List Text} (hne : ts ≠ []) :
    lead ++ (joinWith (ending ++ '\n' :: lead) ts ++ ending) =
      joinLines (ts.map fun t => lead ++ (t ++ ending)) := by
  induction ts with
  | nil => exact absurd rfl hne
  | cons t ts ih =>
    cases ts with
    | nil => rfl
    | cons u us =>
      have ih := ih (by simp)
      simp only [List.map_cons, joinLines_cons_cons] at ih ⊢
      rw [← ih]
      simp [joinWith]

theorem lineTail_of_not_mem {t u : Text} (ht : '\n' ∉ t) (hu : u.head? = none ∨ u.head? = some '\n') :
    lineTail (t ++ u) = t := by
  have hall : ∀ c ∈ t, c != '\n' := fun c hc => bne_iff_ne.2 fun h => ht (h ▸ hc)
  rw [lineTail, List.takeWhile_append_of_pos hall]
  cases u with
  | nil => simp
  | cons c u =>
    have hc : c = '\n' := by simpa using hu
    simp [hc]

theorem lineHead_of_not_mem {t u : Text} (ht : '\n' ∉ t)
    (hu : u.getLast? = none ∨ u.getLast? = some '\n') : lineHead (u ++ t) = t := by
  rw [lineHead, List.reverse_append, lineTail_of_not_mem (by simpa using ht) (by simpa using hu),
    List.reverse_reverse]

private theorem getLast?_joinWith {c : Char} {ts : List Text} (hne : [] ∉ ts)
    (h : c ∈ (joinWith [' '] ts).getLast?) : ∃ t ∈ ts, c ∈ t.getLast? := by
  induction ts with
  | nil => cases h
  | cons t ts ih =>
    cases ts with
    | nil => exact ⟨t, List.mem_cons_self, h⟩
    | cons u us =>
      have hus : joinWith [' '] (u :: us) ≠ [] := by
        cases us with
        | nil => exact fun hu => hne (by rw [← hu]; simp [joinWith])
        | cons v vs => simp [joinWith]
      have hlast : (joinWith [' '] (t :: u :: us)).getLast? = (joinWith [' '] (u :: us)).getLast? := by
        rw [joinWith, List.getLast?_append_of_ne_nil _ hus]
      rw [hlast] at h
      obtain ⟨v, hv, hc⟩ := ih (fun hm => hne (List.mem_cons_of_mem _ hm)) h
      exact ⟨v, List.mem_cons_of_mem _ hv, hc⟩

end Text

/-- A description does not end with a blank. -/
theorem Comment.getLast?_description (comment : Text) :
    ∀ c ∈ (description comment).getLast?, Text.isBlank c = false := by
  intro c hc
  obtain ⟨content, hm, hc⟩ := Text.getLast?_joinWith (by simp) hc
  have hmem := (List.takeWhile_prefix _).subset (List.mem_filter.1 hm).1
  obtain ⟨line, -, rfl⟩ := List.mem_map.1 hmem
  exact Text.getLast?_dropEndWhile Text.isBlank _ c hc

namespace Entry

def IsDecoration (lead : Text) : Prop :=
  ∃ g₁ s g₂, lead = g₁ ++ (s ++ g₂) ∧ IsGaps g₁ ∧ (s = [] ∧ g₂ = [] ∨ s = ['*']) ∧ IsGaps g₂

theorem IsDecoration.not_mem {lead : Text} (h : IsDecoration lead) {c : Char}
    (hc : Text.isGap c = false) (hs : c ≠ '*') : c ∉ lead := by
  obtain ⟨g₁, s, g₂, rfl, h₁, hstar, h₂⟩ := h
  have hstar : c ∉ s := by
    rcases hstar with ⟨rfl, -⟩ | rfl
    · simp
    · simpa using hs
  simp only [List.mem_append, h₁.not_mem hc, hstar, h₂.not_mem hc, or_self, not_false_eq_true]

private theorem IsDecoration.isLead {lead field : Text} (h : IsDecoration lead) :
    IsLead ['*'] field (lead ++ ("@param ".toList ++ (field ++ [':']))) := by
  obtain ⟨g₁, s, g₂, rfl, h₁, hs, h₂⟩ := h
  exact ⟨g₁, s, g₂, [' '], by simp, h₁, hs, h₂, by simp [IsGaps, Text.isGap], by simp⟩

/-- Decoration is found again in front of anything but a gap, a star or the end of a comment. -/
theorem IsDecoration.decorationOf {lead t : Text} (h : IsDecoration lead) :
    Comment.decorationOf (lead ++ '<' :: t) = lead := by
  obtain ⟨g₁, s, g₂, rfl, h₁, hs, h₂⟩ := h
  have hblank : ∀ c ∈ g₁, Text.isBlank c := by
    intro c hc
    rcases (by simpa [Text.isGap] using h₁ c hc : c = ' ' ∨ c = '\t') with rfl | rfl <;> decide
  have hslash : ¬ (g₂ ++ '<' :: t).head? = some '/' := by
    cases g₂ with
    | nil => simp
    | cons c g =>
      intro h
      have hc : c = '/' := by simpa using h
      exact absurd (h₂ c List.mem_cons_self) (by rw [hc]; decide)
  rw [Comment.decorationOf]
  rcases hs with ⟨rfl, rfl⟩ | rfl
  · have hopen : Text.isBlank '<' = false := by decide
    simp [List.takeWhile_append_of_pos hblank, List.dropWhile_append_of_pos hblank, hopen]
  · have hstar : Text.isBlank '*' = false := by decide
    have hopen : Text.isGap '<' = false := by decide
    have hdrop : (g₁ ++ (['*'] ++ g₂) ++ '<' :: t).dropWhile Text.isBlank =
        '*' :: (g₂ ++ '<' :: t) := by
      simp [List.dropWhile_append_of_pos hblank, hstar]
    rw [hdrop]
    simp only [beq_iff_eq, hslash, if_false]
    simp [List.takeWhile_append_of_pos hblank, List.takeWhile_append_of_pos h₂, hstar, hopen]

/-- Lines that are no entries for the field with its old description are left alone. -/
theorem map_renewLine_of_not_isEntry {change : FieldChange} (hc : Readable change) {ls : List Text}
    (h : ∀ line ∈ ls, isPlain line ∧ ¬ IsEntry change.field change.old line) :
    ls.map (renewLine change) = ls :=
  (List.map_congr_left fun line hm => renewLine_of_not_isEntry hc (h line hm).1 (h line hm).2).trans
    (List.map_id ls)

/-- An update writes an entry in the way in which it finds it. -/
theorem renewLine_written {change : FieldChange} (hc : Readable change)
    (hlast : ∀ c ∈ change.old.getLast?, Text.isBlank c = false) {lead e : Text}
    (hl : IsLead ['*'] change.field lead) (he : IsEnding e) (hp : isPlain lead) :
    renewLine change (lead ++ (written change.old ++ e)) = lead ++ (written change.new ++ e) := by
  have hreturn : change.old.getLast? ≠ some '\r' := fun h => absurd (hlast _ h) (by decide)
  have hgaps : IsGaps [] := by simp [IsGaps]
  have hplain := isPlain_written hl hc.name he hp hc.old
  obtain ⟨g, hg, hwritten⟩ : ∃ g, IsGaps g ∧ written change.old = g ++ change.old := by
    rw [written]
    split
    · next h => exact ⟨[], hgaps, by simp [List.isEmpty_iff.1 h]⟩
    · exact ⟨[' '], by simp [IsGaps, Text.isGap], rfl⟩
  rw [hwritten, List.append_assoc, ← List.nil_append e] at hplain ⊢
  exact renewLine_eq hc hreturn hl hg hgaps he hplain

end Entry

namespace Template

open Entry (isPlain written IsName IsEntry)

/-- The first line of a template that holds the tag for the parameters, where it has nothing but
decoration before the tag and ends with it. -/
structure ParamsLine (template : Text) where
  above : List Text
  lead : Text
  ending : Text
  below : List Text
  lines_eq : Text.splitLines template = above ++ (lead ++ (Tag.params.marker ++ ending)) :: below
  first : ∀ line ∈ above, ¬ Tag.params.marker <:+: line
  decoration : Entry.IsDecoration lead
  end_eq : Entry.IsEnding ending

theorem newline_not_mem_parameterDescription (fields? : Option Text) (name : Text) :
    '\n' ∉ parameterDescription fields? name := by
  cases fields? with
  | none => simp [parameterDescription]
  | some fields => exact Comment.newline_not_mem_description _

private theorem getLast?_parameterDescription (fields? : Option Text) (name : Text) :
    ∀ c ∈ (parameterDescription fields? name).getLast?, Text.isBlank c = false := by
  cases fields? with
  | none => simp [parameterDescription]
  | some fields => exact Comment.getLast?_description _

namespace ParamsLine

variable {template : Text} (place : ParamsLine template)

/-- The line with an entry in the place of the tag. -/
def line (name description : Text) : Text :=
  place.lead ++ ("@param ".toList ++ (name ++ [':'])) ++ (written description ++ place.ending)

/-- The line that is generated for a parameter. -/
def lineFor (fields? : Option Text) (p : Parameter) : Text :=
  place.line p.name (parameterDescription fields? p.name)

theorem mem_splitLines {line : Text} (h : line ∈ place.above ++ place.below) :
    line ∈ Text.splitLines template := by
  rw [place.lines_eq]
  rcases List.mem_append.1 h with h | h <;> simp [h]

private theorem breakOn?_marker : Text.breakOn? Tag.params.marker template =
    some (place.above.flatMap (· ++ ['\n']) ++ place.lead,
      place.ending ++ place.below.flatMap ('\n' :: ·)) := by
  rw [Text.breakOn?_eq_some_iff (by decide)]
  constructor
  · simpa using Text.eq_of_splitLines place.above place.lines_eq
  · have hlines : place.above.flatMap (· ++ ['\n']) ++ place.lead ++ Tag.params.marker.dropLast =
        Text.joinLines (place.above ++ [place.lead ++ Tag.params.marker.dropLast]) := by
      have hjoin := @Text.joinLines_around place.above []
        [place.lead ++ Tag.params.marker.dropLast] (by simp)
      simpa [Text.joinLines, Text.joinWith] using hjoin.symm
    rw [hlines, Text.infix_joinLines_iff (by decide) (by decide)]
    rintro ⟨line, hm, hin⟩
    rcases List.mem_append.1 hm with hm | hm
    · exact place.first line hm hin
    · rw [List.mem_singleton.1 hm] at hin
      rcases List.mem_append.1 (hin.subset (by decide : '>' ∈ Tag.params.marker)) with h | h
      · exact place.decoration.not_mem (by decide) (by decide) h
      · exact absurd h (by decide)

private theorem lineHead_before : Text.lineHead (place.above.flatMap (· ++ ['\n']) ++ place.lead) =
    place.lead := by
  refine Text.lineHead_of_not_mem (place.decoration.not_mem (by decide) (by decide)) ?_
  rcases List.eq_nil_or_concat place.above with h | ⟨ls, l, h⟩
  · simp [h]
  · simp [h, List.getLast?_append]

private theorem lineTail_after : Text.lineTail (place.ending ++ place.below.flatMap ('\n' :: ·)) =
    place.ending := by
  have hnl : '\n' ∉ place.ending := by
    rcases place.end_eq with h | h <;> simp [h]
  refine Text.lineTail_of_not_mem hnl ?_
  cases place.below <;> simp

/-- The tag is replaced by one line for each parameter, in order. -/
theorem enterParameters_eq (fields? : Option Text) {params : List Parameter} (hne : params ≠ []) :
    enterParameters fields? params template =
      Text.joinLines (place.above ++ (params.map (place.lineFor fields?) ++ place.below)) := by
  have hnewline : (if (place.lead ++ Tag.params.marker ++ place.ending).getLast? == some '\r' then
      ['\r', '\n'] else ['\n'] : Text) = place.ending ++ ['\n'] := by
    rcases place.end_eq with h | h
    · have hlast : Tag.params.marker.getLast? = some '>' := by decide
      simp [h, hlast, List.getLast?_append]
    · simp [h]
  have hdecoration : Comment.decorationOf (place.lead ++ Tag.params.marker ++ place.ending) =
      place.lead := by
    rw [List.append_assoc]
    exact place.decoration.decorationOf
  rw [enterParameters, place.breakOn?_marker]
  simp only [List.isEmpty_iff, hne, if_false, place.lineHead_before, place.lineTail_after, hnewline,
    hdecoration]
  rw [Text.joinLines_around _ _ (by simpa using hne)]
  have hentries : params.map (place.lineFor fields?) =
      (params.map fun p => paramEntry fields? p.name).map fun t =>
        place.lead ++ (t ++ place.ending) := by
    rw [List.map_map]
    refine List.map_congr_left fun p _ => ?_
    rw [lineFor, line, Function.comp, paramEntry, written]
    split <;> simp
  rw [hentries, ← Text.joinWith_between (by simpa using hne)]
  simp only [List.append_assoc, List.singleton_append]

private theorem newline_not_mem_line {name description : Text} (hn : '\n' ∉ name)
    (hd : '\n' ∉ description) : '\n' ∉ place.line name description := by
  have hlead := place.decoration.not_mem (c := '\n') (by decide) (by decide)
  have hend : '\n' ∉ place.ending := by
    rcases place.end_eq with h | h <;> simp [h]
  have hwritten : '\n' ∉ written description := by
    rw [written]
    split <;> simp [hd]
  simp [line, hlead, hend, hwritten, hn]

private theorem isPlain_lead {name : Text} (h : isPlain template) (hn : IsName name) :
    isPlain (place.lead ++ ("@param ".toList ++ (name ++ [':']))) := by
  have hlead : isPlain place.lead := by
    refine Entry.isPlain_of_isInfix h (List.IsInfix.trans ?_ (Text.infix_of_mem_splitLines
      (l := place.lead ++ (Tag.params.marker ++ place.ending)) (by simp [place.lines_eq])))
    exact (List.prefix_append _ _).isInfix
  refine Entry.isPlain_append_cons (by decide) (by decide) hlead ?_
  refine Entry.isPlain_append_cons (a := "param".toList) (by decide) (by decide) (by decide) ?_
  exact Entry.isPlain_append_cons (by decide) (by decide) hn.1 (by decide)

private theorem isPlain_line {name description : Text} (h : isPlain template) (hn : IsName name)
    (hd : isPlain description) : isPlain (place.line name description) :=
  Entry.isPlain_written place.decoration.isLead hn place.end_eq (place.isPlain_lead h hn) hd

private theorem isEntry_line {name description : Text} :
    IsEntry name description (place.line name description) :=
  Entry.isEntry_written place.decoration.isLead place.end_eq

/-- The line that is generated for a parameter is no entry for another one. -/
theorem not_isEntry_lineFor (fields? : Option Text) {q : Parameter} (hq : IsName q.name)
    {name description : Text} (hn : IsName name) (hne : q.name ≠ name) :
    ¬ IsEntry name description (place.lineFor fields? q) :=
  fun he => hne (place.isEntry_line.field_unique he hq hn)

private theorem isPlain_of_mem (h : isPlain template) {line : Text}
    (hm : line ∈ place.above ++ place.below) :
    isPlain line :=
  Entry.isPlain_of_isInfix h (Text.infix_of_mem_splitLines (place.mem_splitLines hm))

include place in
private theorem isPlain_enterParameters (h : isPlain template) (fields? : Option Text)
    {params : List Parameter} (hne : params ≠ []) (hn : ∀ q ∈ params, IsName q.name)
    (hd : ∀ q ∈ params, isPlain (parameterDescription fields? q.name)) :
    isPlain (enterParameters fields? params template) := by
  rw [place.enterParameters_eq fields? hne]
  refine Entry.isPlain_joinLines fun line hm => ?_
  simp only [List.mem_append, List.mem_map] at hm
  rcases hm with hm | ⟨q, hq, rfl⟩ | hm
  · exact place.isPlain_of_mem h (List.mem_append_left _ hm)
  · exact place.isPlain_line h (hn q hq) (hd q hq)
  · exact place.isPlain_of_mem h (List.mem_append_right _ hm)

theorem splitLines_enterParameters (fields? : Option Text) {params : List Parameter}
    (hne : params ≠ []) (hn : ∀ p ∈ params, '\n' ∉ p.name) :
    Text.splitLines (enterParameters fields? params template) =
      place.above ++ (params.map (place.lineFor fields?) ++ place.below) := by
  rw [place.enterParameters_eq fields? hne, Text.splitLines_joinLines]
  · intro line hm
    simp only [List.mem_append, List.mem_map] at hm
    rcases hm with hm | ⟨p, hp, rfl⟩ | hm
    · exact Text.not_mem_of_mem_splitLines (place.mem_splitLines (List.mem_append_left _ hm))
    · exact place.newline_not_mem_line (hn p hp) (newline_not_mem_parameterDescription fields? p.name)
    · exact Text.not_mem_of_mem_splitLines (place.mem_splitLines (List.mem_append_right _ hm))
  · simp [hne]

end ParamsLine

/-- A change of the description of a parameter rewrites the line that was generated for it, and no
other. -/
theorem update_enterParameters {template : Text} (place : ParamsLine template)
    (fields? : Option Text) {before after : List Parameter} {p : Parameter}
    (hdistinct : ((before ++ p :: after).map (·.name)).Nodup)
    (hn : ∀ q ∈ before ++ p :: after, IsName q.name)
    (ht : isPlain template)
    (hd : ∀ q ∈ before ++ p :: after, isPlain (parameterDescription fields? q.name))
    (hother : ∀ line ∈ place.above ++ place.below,
      ¬ IsEntry p.name (parameterDescription fields? p.name) line)
    {new : Text} (hnew : isPlain new) (hline : '\n' ∉ new) (container : Text) :
    let text := enterParameters fields? (before ++ p :: after) template
    Text.splitLines text = place.above ++ (before.map (place.lineFor fields?) ++
        place.line p.name (parameterDescription fields? p.name) ::
          (after.map (place.lineFor fields?) ++ place.below)) ∧
      Text.splitLines (Entry.update [⟨container, p.name, parameterDescription fields? p.name, new⟩]
          text) = place.above ++ (before.map (place.lineFor fields?) ++
        place.line p.name new :: (after.map (place.lineFor fields?) ++ place.below)) := by
  intro text
  have hlines : Text.splitLines text = place.above ++ (before.map (place.lineFor fields?) ++
      place.line p.name (parameterDescription fields? p.name) ::
        (after.map (place.lineFor fields?) ++ place.below)) := by
    rw [place.splitLines_enterParameters fields? (by simp) fun p hp => (hn p hp).not_mem (by decide)]
    simp [ParamsLine.lineFor]
  refine ⟨hlines, ?_⟩
  set change : FieldChange := ⟨container, p.name, parameterDescription fields? p.name, new⟩
  have hp : p ∈ before ++ p :: after := by simp
  have hchange : Entry.Readable change :=
    ⟨hn p hp, hd p hp, newline_not_mem_parameterDescription fields? p.name, hnew, hline⟩
  have hplain : isPlain text := place.isPlain_enterParameters ht fields? (by simp) hn hd
  have hframe (line : Text) (hm : line ∈ place.above ++ place.below) :
      isPlain line ∧ ¬ IsEntry change.field change.old line :=
    ⟨place.isPlain_of_mem ht hm, hother line hm⟩
  rw [List.map_append, List.map_cons, List.nodup_middle, List.nodup_cons, ← List.map_append]
    at hdistinct
  have hothers (qs : List Parameter) (hqs : qs ⊆ before ++ after) : ∀ line ∈
      qs.map (place.lineFor fields?), isPlain line ∧ ¬ IsEntry change.field change.old line := by
    intro line hm
    obtain ⟨q, hq, rfl⟩ := List.mem_map.1 hm
    have hne : q.name ≠ p.name := fun h => hdistinct.1 (List.mem_map.2 ⟨q, hqs hq, h⟩)
    have hq : q ∈ before ++ p :: after := by
      rcases List.mem_append.1 (hqs hq) with h | h <;> simp [h]
    exact ⟨place.isPlain_line ht (hn q hq) (hd q hq),
      place.not_isEntry_lineFor fields? (hn q hq) (hn p hp) hne⟩
  have hown : Entry.renewLine change (place.line p.name (parameterDescription fields? p.name)) =
      place.line p.name new :=
    Entry.renewLine_written hchange (getLast?_parameterDescription fields? p.name)
      place.decoration.isLead place.end_eq (place.isPlain_lead ht (hn p hp))
  rw [Entry.update_eq_renewText (by simpa using hchange) hplain]
  refine (Entry.splitLines_renewed hchange hplain).trans ?_
  -- the line of the parameter gets the new description, the lines around it are no entries for it
  rw [hlines]
  simp only [List.map_append (f := Entry.renewLine change), List.map_cons, hown]
  rw [Entry.map_renewLine_of_not_isEntry hchange fun line hm =>
      hframe line (List.mem_append_left _ hm),
    Entry.map_renewLine_of_not_isEntry hchange (hothers before (List.subset_append_left _ _)),
    Entry.map_renewLine_of_not_isEntry hchange (hothers after (List.subset_append_right _ _)),
    Entry.map_renewLine_of_not_isEntry hchange fun line hm =>
      hframe line (List.mem_append_right _ hm)]

def tagAlone : Text := Text.joinLines ["/**".toList, " * <params>".toList, " */".toList]

def tagAloneLine : ParamsLine tagAlone where
  above := ["/**".toList]
  lead := " * ".toList
  ending := []
  below := [" */".toList]
  lines_eq := by decide
  first := by decide
  decoration := ⟨[' '], ['*'], [' '], rfl, by simp [Entry.IsGaps, Text.isGap], .inr rfl,
    by simp [Entry.IsGaps, Text.isGap]⟩
  end_eq := .inl rfl

private theorem not_isEntry_tagAlone {name description : Text} (hn : IsName name)
    (hne : name ≠ []) :
    ∀ line ∈ tagAloneLine.above ++ tagAloneLine.below, ¬ IsEntry name description line := by
  intro line hm he
  have hall : ∀ line ∈ tagAloneLine.above ++ tagAloneLine.below, Entry.fieldOf line = [] := by
    decide
  exact hne ((he.fieldOf_eq hn).symm.trans (hall line hm))

theorem update_enterParameters_tagAlone :
    Entry.update [⟨[], "x".toList, "the x".toList, "an x".toList⟩]
      (enterParameters (some "/** the <instance> */".toList)
        [⟨"x".toList, "int".toList⟩, ⟨"y".toList, "int".toList⟩] tagAlone) =
      Text.joinLines ["/**".toList, " * @param x: an x".toList, " * @param y: the y".toList,
        " */".toList] := by
  have hx : IsName "x".toList := ⟨by decide, List.all_eq_true.1 (by decide)⟩
  have hy : IsName "y".toList := ⟨by decide, List.all_eq_true.1 (by decide)⟩
  have hdescription : parameterDescription (some "/** the <instance> */".toList) "x".toList =
      "the x".toList := by decide +kernel
  have h := (@update_enterParameters tagAlone tagAloneLine (some "/** the <instance> */".toList)
    [] [⟨"y".toList, "int".toList⟩] ⟨"x".toList, "int".toList⟩ (by decide)
    (by simpa using ⟨hx, hy⟩) (by decide) (by decide +kernel)
    (not_isEntry_tagAlone hx (by decide)) "an x".toList (by decide) (by decide) []).2
  rw [hdescription] at h
  rw [← Text.joinLines_splitLines (Entry.update _ _)]
  refine (congrArg Text.joinLines h).trans ?_
  decide +kernel

/-- A description can hold the letters of a token that neither the template nor the name holds. The
change of another entry then ruins it. -/
theorem exists_misread : ∃ (fields : Text) (p q : Parameter) (new : Text),
    isPlain tagAlone ∧ isPlain fields ∧ IsName p.name ∧ IsName q.name ∧ p.name ≠ q.name ∧
      (∀ line ∈ tagAloneLine.above ++ tagAloneLine.below, ∀ name description, IsName name →
        name ≠ [] → ¬ IsEntry name description line) ∧
      isPlain new ∧ '\n' ∉ new ∧ Text.trim new = new ∧
      Entry.update [⟨[], q.name, parameterDescription (some fields) q.name, new⟩]
          (enterParameters (some fields) [p, q] tagAlone) ≠
        Text.joinLines (tagAloneLine.above ++
          tagAloneLine.line p.name (parameterDescription (some fields) p.name) ::
            tagAloneLine.line q.name new :: tagAloneLine.below) := by
  refine ⟨"/** \x7dOC<instance>\x7b */".toList, ⟨"BR".toList, "int".toList⟩,
    ⟨"x".toList, "int".toList⟩, "y".toList, by decide, by decide,
    ⟨by decide, List.all_eq_true.1 (by decide)⟩, ⟨by decide, List.all_eq_true.1 (by decide)⟩,
    by decide, ?_, by decide, by decide, by decide, by decide +kernel⟩
  exact fun line hm name description hn hne => not_isEntry_tagAlone hn hne line hm

end Template
end Javadoc
