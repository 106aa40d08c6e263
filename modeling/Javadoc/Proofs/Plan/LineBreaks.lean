import Javadoc.Proofs.Java.Breaks
import Javadoc.Proofs.Plan.Completion
import Javadoc.Proofs.Template.Closed

/-! Line breaks and indentation of documented sources. A comment is laid out with the line break of the
source and the indentation of its declaration. It is put in between two tokens, so that no line break is cut
in two, and so that the line of the next declaration starts as it did. -/
namespace Javadoc

namespace Text

private theorem lineHead_of_line {t : Text} (h : '\n' ∉ t) : lineHead t = t :=
  lineHead_of_not_mem (u := []) h (.inl rfl)

private theorem lineHead_append_of_mem {y : Text} (h : '\n' ∈ y) (x : Text) :
    lineHead (x ++ y) = lineHead y := by
  rcases last_line_cases y with hno | ⟨u, l, rfl, hl⟩
  · exact absurd h hno
  · rw [List.append_cons, ← List.append_assoc, lineHead_of_not_mem hl (by simp),
      lineHead_of_not_mem hl (by simp)]

private theorem lineHead_append_of_not_mem {y : Text} (h : '\n' ∉ y) (x : Text) :
    lineHead (x ++ y) = lineHead x ++ y := by
  rcases last_line_cases x with hno | ⟨u, l, rfl, hl⟩
  · rw [lineHead_of_line hno, lineHead_of_line (List.not_mem_append hno h)]
  · rw [List.append_cons, List.append_assoc, lineHead_of_not_mem (List.not_mem_append hl h) (by simp),
      lineHead_of_not_mem hl (by simp)]

/-- A line that starts with blanks alone starts behind everything that is not blank. -/
theorem lineHead_congr {c : Char} (hc : isBlank c = false) {x y : Text}
    (h : isBlankText (lineHead (x ++ c :: y))) (x' : Text) :
    lineHead (x' ++ c :: y) = lineHead (x ++ c :: y) := by
  have hn : c ≠ '\n' := by
    rintro rfl
    exact absurd hc (by decide)
  by_cases hy : '\n' ∈ y
  · have hy : '\n' ∈ c :: y := List.mem_cons_of_mem c hy
    rw [lineHead_append_of_mem hy, lineHead_append_of_mem hy]
  · rw [lineHead_append_of_not_mem (List.not_mem_cons_of_ne_of_not_mem hn.symm hy)] at h
    exact absurd (isBlankText_iff.1 h c (by simp)) (by simp [hc])

end Text

namespace Plan
open Text Java Template

section Layout

variable {P : Text → Prop} (hP : BreakRule P)
include hP

/-- Every line break of a text in which each carriage return stands before a line feed can be exchanged. -/
theorem breakRule_respace {sep : Text} (hs : P sep) {t : Text} (h : IsFed t) : P (respace sep t) := by
  induction t with
  | nil => exact hP.nil
  | cons c t ih =>
    have ih := ih ⟨(List.isChain_cons.1 h.next).2, fun hm => h.last (mem_getLast?_cons hm)⟩
    rw [respace]
    split
    · exact hP.append hs ih
    · next hn =>
      split
      · exact ih
      · next hr =>
        refine hP.cons (fun he => hr ⟨he, ?_⟩) hn ih
        cases t with
        | nil => exact absurd (by simp [he]) h.last
        | cons d t => exact congrArg some ((List.isChain_cons_cons.1 h.next).1 he)

private theorem breakRule_layOut {newline indent comment : Text} (hs : P (newline ++ indent))
    (h : Closed comment) : P (layOut newline indent comment) := by
  rw [layOut_eq newline indent h.ne_nil]
  refine hP.append (breakRule_respace hP hs h.fed) ?_
  rw [lastBreak]
  split
  · exact hP.nil
  · exact hs

/-- What is put before the first characters of tokens cuts no line break in two. -/
theorem breakRule_document {comments : Token → Option Text} {ts : List Token}
    (hsolid : ∀ u ∈ ts, ∃ c w, u.text = c :: w ∧ isBlank c = false)
    (hx : ∀ u ∈ ts, ∀ x ∈ comments u, P x) {front behind : Text}
    (h : P (front ++ (ts.flatMap Token.source ++ behind))) :
    P (front ++ ((ts.map fun u => u.document (comments u)).flatMap Token.source ++ behind)) := by
  induction ts generalizing front with
  | nil => exact h
  | cons u ts ih =>
    rw [List.forall_mem_cons] at hsolid hx
    obtain ⟨⟨c, w, hu, hc⟩, hsolid⟩ := hsolid
    have hbreak : c ≠ '\r' ∧ c ≠ '\n' := by
      constructor <;> rintro rfl <;> exact absurd hc (by decide)
    have hcut : front ++ ((u :: ts).flatMap Token.source ++ behind) =
        (front ++ u.lead.flatMap (·.text)) ++ c :: (w ++ (ts.flatMap Token.source ++ behind)) := by
      simp [Token.source, hu]
    rw [hcut] at h
    obtain ⟨hfront, hrest⟩ := hP.cut hbreak.1 hbreak.2 h
    have hgoal : front ++ (((u :: ts).map fun u => u.document (comments u)).flatMap Token.source ++
        behind) = (front ++ u.lead.flatMap (·.text)) ++ ((comments u).getD [] ++
          c :: (w ++ ((ts.map fun u => u.document (comments u)).flatMap Token.source ++ behind))) := by
      simp [Token.source_document, hu]
    rw [hgoal]
    refine hP.append hfront (hP.append ?_ (hP.cons hbreak.1 hbreak.2 (ih hsolid hx.2 hrest)))
    cases hcu : comments u with
    | none => exact hP.nil
    | some x => exact hx.1 x hcu

end Layout

/-- The lines of a laid out comment, and the line that goes on behind it. -/
theorem splitLines_layOut {ending indent comment tail : Text} (he : '\n' ∉ ending)
    (hi : '\n' ∉ indent) (hc : comment ≠ []) (ht : '\n' ∉ tail) :
    splitLines (indent ++ (layOut (ending ++ ['\n']) indent comment ++ tail)) =
      (lines comment).map (fun l => indent ++ (l ++ ending)) ++ [indent ++ tail] := by
  have hne := lines_ne_nil hc
  have hlay : indent ++ (layOut (ending ++ ['\n']) indent comment ++ tail) =
      joinLines ((lines comment).map (fun l => indent ++ (l ++ ending)) ++ [indent ++ tail]) := by
    rw [joinLines_append (by simpa using hne) (by simp), ← joinWith_between hne, layOut]
    simp [joinLines, joinWith]
  rw [hlay, splitLines_joinLines _ (by simp)]
  intro l hl
  rcases List.mem_append.1 hl with hl | hl
  · obtain ⟨line, hline, rfl⟩ := List.mem_map.1 hl
    obtain ⟨p, hp, hstart⟩ := exists_piece_of_mem_linesOfPieces hline
    refine List.not_mem_append hi (List.not_mem_append (fun hm => ?_) he)
    exact not_mem_of_mem_splitLines hp (hstart.subset hm)
  · rw [List.mem_singleton.1 hl]
    exact List.not_mem_append hi ht

section Source

variable {t : Templates} {source : Text}

private theorem closed_of_mem_ofOwn (ht : ∀ template ∈ t.texts, Closed template) {own : ClassInfo}
    (h : FedTexts own) : ∀ s ∈ Site.ofOwn t own, ∀ c ∈ s.comment?, Closed c := by
  intro s hs
  simp only [Site.ofOwn, List.cons_append, List.mem_cons, List.mem_append, List.mem_map] at hs
  rcases hs with rfl | (⟨f, hf, rfl⟩ | ⟨m, hm, rfl⟩) | ⟨m, hm, rfl⟩
  · exact Templates.closed_classComment? ht h.name
  · exact Templates.closed_fieldComment? ht (h.fields f hf)
  · exact Templates.closed_constructorComment? ht (h.constructors m hm)
  · exact Templates.closed_methodComment? ht (h.methods m hm)

/-- What is put before a token is a closed comment that is laid out there. -/
theorem closed_of_inserted? (ht : ∀ template ∈ t.texts, Closed template) (hfed : IsFed source)
    {u : Token} (hu : u ∈ Token.scan source) {x : Text} (hx : inserted? t source u = some x) :
    ∃ c, Closed c ∧ x = layOut (newlineOf source) (indentAt source u.start) c := by
  obtain ⟨s, hs, c, hc, -, rfl, -⟩ := inserted?_eq_some hu hx
  have hs := (List.mem_filter.1 (List.mem_of_find?_eq_some (Site.mem_firstOfEach.1 hs))).1
  rw [← Site.flatMap_ofClass t []] at hs
  obtain ⟨d, hd, hs⟩ := List.mem_flatMap.1 hs
  obtain ⟨p, hp, hs⟩ := List.mem_flatMap.1 hs
  have htexts := fedTexts_of_mem_read hfed (List.mem_flatMap.2 ⟨d, hd, hp⟩)
  exact ⟨c, closed_of_mem_ofOwn ht htexts s hs c hc, rfl⟩

private theorem exists_solid {u : Token} (hu : u ∈ Token.scan source) :
    ∃ c w, u.text = c :: w ∧ isBlank c = false := by
  obtain ⟨-, -, -, hproper, -⟩ := Token.scan_spec source
  obtain ⟨r, hr⟩ := Token.exists_reads_lexemes hu
  obtain ⟨c, w, hc⟩ := List.exists_cons_of_ne_nil (Token.text_ne_nil_of_mem_scan hu)
  refine ⟨c, w, hc, ?_⟩
  exact (Lexeme.reads_append.1 hr).2.1.isBlank_head (hproper u hu).2 c (by rw [← Token.text, hc]; rfl)

private theorem breakRule_indentAt {P : Text → Prop} (hP : BreakRule P) (hfed : IsFed source)
    {u : Token}
    (hu : u ∈ Token.scan source) : P (indentAt source u.start) := by
  obtain ⟨as, bs, hscan⟩ := List.append_of_mem hu
  obtain ⟨behind, hsource⟩ := Token.exists_behind hscan
  obtain ⟨c, w, hc, hblank⟩ := exists_solid hu
  rw [Token.start_eq hscan]
  generalize as.flatMap Token.source ++ u.lead.flatMap (·.text) = before at hsource
  have hbefore : IsFed before := by
    rw [hsource, hc] at hfed
    refine (breakRule_isFed.cut (c := c) ?_ ?_ hfed).1 <;> rintro rfl <;>
      exact absurd hblank (by decide)
  obtain ⟨above, head, habove⟩ := exists_splitLines_concat before
  have hhead := ((isFed_iff_lines habove).1 hbefore).2
  have hline : '\n' ∉ head := not_mem_of_mem_splitLines (t := before) (by simp [habove])
  rw [hsource, indentAt_eq, lineHead_of_splitLines habove]
  split
  · exact hP.of_plain fun c hc => ⟨fun h => hhead (h ▸ hc), fun h => hline (h ▸ hc)⟩
  · exact hP.nil

/-- Documenting a source keeps every rule about line breaks that the source and its line break keep. -/
theorem breakRule_documented {P : Text → Prop} (hP : BreakRule P)
    (ht : ∀ template ∈ t.texts, Closed template) (hfed : IsFed source) (hs : P source)
    (hn : P (newlineOf source)) {behind : Text}
    (hbehind : (Token.scan source).flatMap Token.source ++ behind = source) :
    P (((Token.scan source).map fun u => u.document (inserted? t source u)).flatMap Token.source ++
      behind) := by
  rw [← List.nil_append (List.flatMap _ _ ++ behind)]
  refine breakRule_document hP (fun u => exists_solid) (fun u hu x hx => ?_) ?_
  · obtain ⟨c, hc, rfl⟩ := closed_of_inserted? ht hfed hu hx
    exact breakRule_layOut hP (hP.append hn (breakRule_indentAt hP hfed hu)) hc
  · rwa [List.nil_append, hbehind]

/-- The comments before the earlier tokens are put in by the edits that start earlier. -/
theorem applyAll_front {as bs : List Token} {u : Token} (h : Token.scan source = as ++ u :: bs)
    (path : Text) :
    Edit.applyAll (as.flatMap Token.source ++ u.lead.flatMap (·.text))
        ((edits t (SourceFile.read path source)).filter fun e => e.start < u.start) =
      .ok ((as.map fun u => u.document (inserted? t source u)).flatMap Token.source ++
        u.lead.flatMap (·.text)) := by
  have hplace := Token.place_scan source
  rw [h] at hplace
  have hedits := @edits_patches (inserted? t source) _ _ (Token.place_append_eq hplace).1
    (u.lead.flatMap (·.text))
  have hstarts := Token.pairwise_start_scan source
  rw [h, List.pairwise_append] at hstarts
  obtain ⟨hfirst, hlater, hacross⟩ := hstarts
  have hperm := (perm_edits t path source []).filter fun e => e.start < u.start
  rw [edits_patches (Token.place_scan source), h, List.filterMap_append, List.filter_append] at hperm
  have hkept {v : Token} {e : Edit} (he : (inserted? t source v).map (Edit.insert v.start) = some e) :
      e.start = v.start := by
    obtain ⟨x, -, rfl⟩ := Option.map_eq_some_iff.1 he
    rfl
  have hearlier : (as.filterMap fun v => (inserted? t source v).map (Edit.insert v.start)).filter
      (fun e => e.start < u.start) =
        as.filterMap fun v => (inserted? t source v).map (Edit.insert v.start) := by
    refine List.filter_eq_self.2 fun e he => ?_
    obtain ⟨v, hv, he⟩ := List.mem_filterMap.1 he
    rw [decide_eq_true_eq, hkept he]
    exact hacross v hv u List.mem_cons_self
  have hnone : ((u :: bs).filterMap fun v => (inserted? t source v).map (Edit.insert v.start)).filter
      (fun e => e.start < u.start) = [] := by
    refine List.filter_eq_nil_iff.2 fun e he => ?_
    obtain ⟨v, hv, he⟩ := List.mem_filterMap.1 he
    rw [decide_eq_true_eq, hkept he]
    rcases List.mem_cons.1 hv with rfl | hv
    · exact Nat.lt_irrefl _
    · exact Nat.lt_asymm ((List.pairwise_cons.1 hlater).1 v hv)
  rw [hearlier, hnone, List.append_nil, ← hedits] at hperm
  rw [← @flatMap_old_patches (inserted? t source), ← flatMap_new_patches]
  refine Patch.applyAll_edits hperm ?_
  rw [hedits]
  refine hfirst.filterMap _ fun v w hvw e he f hf => ?_
  rw [hkept he, hkept hf]
  exact hvw

/-- No comment is put into the blanks before a declaration on its line. -/
theorem lineHead_documented {as bs : List Token} {u : Token} (h : Token.scan source = as ++ u :: bs)
    (comments : Token → Option Text)
    (hb : isBlankText (lineHead (as.flatMap Token.source ++ u.lead.flatMap (·.text)))) :
    lineHead ((as.map fun u => u.document (comments u)).flatMap Token.source ++
        u.lead.flatMap (·.text)) =
      lineHead (as.flatMap Token.source ++ u.lead.flatMap (·.text)) := by
  rcases List.eq_nil_or_concat as with rfl | ⟨as, v, rfl⟩
  · rfl
  · obtain ⟨c, w, hc, hblank⟩ := exists_solid (show v ∈ Token.scan source by simp [h])
    have hold : (as.concat v).flatMap Token.source ++ u.lead.flatMap (·.text) =
        (as.flatMap Token.source ++ v.lead.flatMap (·.text)) ++ c :: (w ++ u.lead.flatMap (·.text)) := by
      simp [Token.source, hc]
    have hnew : ((as.concat v).map fun u => u.document (comments u)).flatMap Token.source ++
        u.lead.flatMap (·.text) = ((as.map fun u => u.document (comments u)).flatMap Token.source ++
          (v.lead.flatMap (·.text) ++ (comments v).getD [])) ++
            c :: (w ++ u.lead.flatMap (·.text)) := by
      simp [Token.source_document, hc]
    rw [hold] at hb ⊢
    rw [hnew]
    exact lineHead_congr hblank hb _

private theorem exists_token_of_mem_edits {path : Text} {n : Nat} {x : Text}
    (h : .insert n x ∈ edits t (SourceFile.read path source)) :
    ∃ u ∈ Token.scan source, inserted? t source u = some x ∧ u.start = n := by
  have h := (perm_edits t path source []).subset h
  rw [edits_patches (Token.place_scan source)] at h
  obtain ⟨u, hu, he⟩ := List.mem_filterMap.1 h
  obtain ⟨y, hy, he⟩ := Option.map_eq_some_iff.1 he
  obtain ⟨rfl, rfl⟩ := Edit.insert.inj he
  exact ⟨u, hu, hy, rfl⟩

/-- Where blanks alone stand before a declaration on its line, the lines of its comment and its own line
start with them. -/
theorem exists_indented (ht : ∀ template ∈ t.texts, Closed template) (hfed : IsFed source)
    {path behind : Text} {n : Nat} {x : Text}
    (hx : .insert n x ∈ edits t (SourceFile.read path source)) :
    ∃ before after front back, source = before ++ after ∧ size before = n ∧
      ((Token.scan source).map fun u => u.document (inserted? t source u)).flatMap Token.source ++
        behind = front ++ (x ++ back) ∧
      Edit.applyAll before ((edits t (SourceFile.read path source)).filter fun e => e.start < n) =
        .ok front ∧
      (isBlankText (lineHead before) → lineHead front = lineHead before ∧
        ∃ ls, splitLines (lineHead front ++ (x ++ lineTail back)) =
            ls ++ [lineHead before ++ lineTail back] ∧
          ∀ l ∈ ls, lineHead before <+: l) := by
  obtain ⟨u, hu, hux, rfl⟩ := exists_token_of_mem_edits hx
  obtain ⟨as, bs, hscan⟩ := List.append_of_mem hu
  obtain ⟨after, hafter⟩ := Token.exists_behind hscan
  obtain ⟨c, hc, rfl⟩ := closed_of_inserted? ht hfed hu hux
  refine ⟨_, _, _, u.text ++ ((bs.map fun v => v.document (inserted? t source v)).flatMap
    Token.source ++ behind), hafter, (Token.start_eq hscan).symm, ?_, applyAll_front hscan path,
    fun hb => ?_⟩
  · simp [hscan, hux, Token.source_document]
  · have hindent : indentAt source u.start =
        lineHead (as.flatMap Token.source ++ u.lead.flatMap (·.text)) := by
      rw [Token.start_eq hscan]
      conv_lhs => rw [hafter, indentAt_eq, if_pos hb]
    have hhead := lineHead_documented hscan (inserted? t source) hb
    obtain ⟨ending, he, hn⟩ : ∃ ending, newlineOf source = ending ++ ['\n'] ∧ '\n' ∉ ending := by
      rcases newlineOf_cases source with h | h
      · exact ⟨[], h, by simp⟩
      · exact ⟨['\r'], h, by simp⟩
    have htail (t : Text) : '\n' ∉ lineTail t := fun hm =>
      absurd (List.all_eq_true.1 List.all_takeWhile _ hm) (by decide)
    refine ⟨hhead, (lines c).map fun l => indentAt source u.start ++ (l ++ ending), ?_, fun l hl => ?_⟩
    · rw [hhead, ← hindent, he]
      exact splitLines_layOut hn (newline_not_mem_indentAt source u.start) hc.ne_nil (htail _)
    · obtain ⟨line, -, rfl⟩ := List.mem_map.1 hl
      exact hindent ▸ List.prefix_append _ _

end Source

/-- Documenting keeps line breaks and indentation, if no template holds a carriage return and all end with
the closing delimiter. A source without carriage returns gets none. One whose line breaks are all made of
a carriage return and a line feed gets no others, whatever the values bring along. Where blanks alone stand
before a declaration on its line, they stand before its comment, and each line of that and the line of the
declaration start with them. -/
theorem complete_keepsLines (t : Templates)
    (ht : ∀ template ∈ t.texts, '\r' ∉ template ∧ Comment.blockClose <:+ template) (d : Document)
    (hd : '\r' ∉ d.text ∨ IsCrlf d.text ∧ '\n' ∈ d.text) :
    let edits := Plan.edits t (SourceFile.read d.path d.text)
    ∃ text, d.complete t = .ok (edits.length, { d with text }) ∧
      ('\r' ∉ d.text → '\r' ∉ text) ∧ (IsCrlf d.text → '\n' ∈ d.text → IsCrlf text) ∧
      ∀ n x, .insert n x ∈ edits → ∃ before after front back,
        d.text = before ++ after ∧ size before = n ∧ text = front ++ (x ++ back) ∧
        Edit.applyAll before (edits.filter fun e => e.start < n) = .ok front ∧
        (isBlankText (lineHead before) → lineHead front = lineHead before ∧
          ∃ ls, splitLines (lineHead front ++ (x ++ lineTail back)) =
              ls ++ [lineHead before ++ lineTail back] ∧
            ∀ l ∈ ls, lineHead before <+: l) := by
  obtain ⟨path, source⟩ := d
  intro edits
  have hclosed : ∀ template ∈ t.texts, Closed template := fun template hm =>
    ⟨isFed_of_not_mem (ht template hm).1, (ht template hm).2⟩
  have hfed : IsFed source := hd.elim isFed_of_not_mem fun h => h.1.isFed
  obtain ⟨behind, hsource⟩ := Token.exists_trailing source
  have happly := Patch.applyAll_edits (perm_edits t path source behind)
    (pairwise_start_patches source behind)
  rw [flatMap_old_patches, flatMap_new_patches, hsource] at happly
  refine ⟨_, by rw [Document.complete, Document.commit, happly], fun hr => ?_, fun hcrlf hn => ?_,
    fun n x => exists_indented hclosed hfed⟩
  · refine breakRule_documented (breakRule_not_mem '\r' (.inl rfl)) hclosed hfed hr ?_ hsource
    have hno : includes ['\r', '\n'] source = false :=
      includes_eq_false_iff.2 fun hin => hr (hin.subset List.mem_cons_self)
    simp [newlineOf, hno]
  · refine breakRule_documented breakRule_isCrlf hclosed hfed hcrlf ?_ hsource
    have hin : includes ['\r', '\n'] source := by
      obtain ⟨a, b, rfl⟩ := List.append_of_mem hn
      obtain ⟨a, rfl⟩ := List.getLast?_eq_some_iff.1 hcrlf.returned
      exact includes_iff.2 ⟨a, b, by simp⟩
    rw [newlineOf, if_pos hin]
    decide

def spread : Text :=
  "class A \x7b\r\n\tOuter<B>.\r\n\t\tInner getB() \x7b return b; \x7d\r\n\x7d".toList

def returnedTemplate : Text := "/**\n * Gives <instance>\n * @return <returnType>\n */".toList

def ofReturned : Templates where
  methods := some Templates.emptyComment
  roles := { getter := some returnedTemplate }

def spreadMethod : Method :=
  ⟨"getB".toList, false, [], some "Outer<B>.\r\n\t\tInner".toList, some "\x7b return b; \x7d".toList,
    some "b".toList, .nothing, 12⟩

def spreadText : Text := "/**\n * Gives b\n * @return Outer<B>.\r\n\t\tInner\n */".toList

def spreadComment : Text :=
  "/**\r\n\t * Gives b\r\n\t * @return Outer<B>.\r\n\t\t\tInner\r\n\t */\r\n\t".toList

private theorem edits_spread :
    edits ofReturned (SourceFile.read [] spread) = [.insert 12 spreadComment] := by
  let own : ClassInfo := ⟨"A".toList, .class, .nothing, 0, 54, [], [], [spreadMethod]⟩
  have hread : (SourceFile.read [] spread).classes.flatMap ClassDecl.withPaths = [("A".toList, own)] := by
    decide +kernel
  have hdescribe (linked : Bool) : describeType linked "Outer<B>.\r\n\t\tInner".toList =
      "Outer<B>.\r\n\t\tInner".toList := by
    cases linked <;> cbv
  have hvalues : enterValues spreadMethod (some own) returnedTemplate = spreadText := by
    have hsubject : subject? spreadMethod (some own) = some "b".toList := by decide +kernel
    rw [enterValues, hsubject]
    simp only [spreadMethod, enterReturnType, hdescribe]
    decide +kernel
  have hcomment : ofReturned.methodComment? spreadMethod (some own) = some spreadText := by
    have hrole : spreadMethod.role = .accessor := by decide +kernel
    have hmethods : ofReturned.methods = some Templates.emptyComment := rfl
    have htemplate : ofReturned.role? .accessor = some returnedTemplate := rfl
    have hfields : ofReturned.fields = none := rfl
    simp only [Templates.methodComment?, hrole, hmethods, htemplate, Option.bind_eq_bind,
      Option.bind_some, Templates.comment?, Template.comment?, fill, fillMethod_eq, hvalues, hfields]
    decide +kernel
  have hsites : (SourceFile.read [] spread).classes.flatMap (Site.ofClass ofReturned) =
      [⟨0, false, none⟩, ⟨12, false, some spreadText⟩] := by
    have hassoc : (SourceFile.read [] spread).classes.flatMap (Site.ofClass ofReturned) =
        ((SourceFile.read [] spread).classes.flatMap ClassDecl.withPaths).flatMap fun p =>
          Site.ofOwn ofReturned p.2 := List.flatMap_assoc.symm
    rw [hassoc, hread]
    simp only [List.flatMap_cons, List.flatMap_nil, Site.ofOwn, own, List.map_cons, List.map_nil,
      hcomment]
    decide +kernel
  simp only [edits, hsites]
  decide +kernel

theorem complete_keepsLines_spread :
    (∀ template ∈ ofReturned.texts, '\r' ∉ template ∧ Comment.blockClose <:+ template) ∧
      IsCrlf spread ∧ '\n' ∈ spread ∧ ∃ text front back,
        Document.complete ofReturned ⟨[], spread⟩ = .ok (1, ⟨[], text⟩) ∧ IsCrlf text ∧
        text = front ++ (spreadComment ++ back) ∧ lineHead front = ['\t'] ∧
        ∃ ls, splitLines (['\t'] ++ (spreadComment ++ lineTail back)) =
            ls ++ [['\t'] ++ lineTail back] ∧ ∀ l ∈ ls, ['\t'] <+: l := by
  have ht : ∀ template ∈ ofReturned.texts, '\r' ∉ template ∧ Comment.blockClose <:+ template := by
    decide +kernel
  have hcrlf : IsCrlf spread := by decide +kernel
  have hn : '\n' ∈ spread := by decide +kernel
  obtain ⟨text, hc, -, hkind, hlines⟩ :=
    complete_keepsLines ofReturned ht ⟨[], spread⟩ (.inr ⟨hcrlf, hn⟩)
  obtain ⟨before, after, front, back, hsource, hsize, htext, -, hindent⟩ :=
    hlines 12 spreadComment (by simp [edits_spread])
  have hhead : lineHead before = ['\t'] := by
    have hcut := splitAtByte?_size before after
    rw [hsize, ← hsource] at hcut
    have hspread : (splitAtByte? 12 spread).map (fun p => lineHead p.1) = some ['\t'] := by
      decide +kernel
    rw [hcut] at hspread
    exact Option.some.inj hspread
  rw [hhead] at hindent
  obtain ⟨hfront, ls, hls, hprefix⟩ := hindent (by decide)
  rw [hfront] at hls
  refine ⟨ht, hcrlf, hn, text, front, back, ?_, hkind hcrlf hn, htext, hfront, ls, hls, hprefix⟩
  rwa [edits_spread] at hc

end Plan
end Javadoc
