import Javadoc.Proofs.Template.Markers
import Mathlib.Data.Bool.AllAny

/-! Cutting the directives out of a template. A line can be cut once, at its first directive, or
once for every kind of directive, in any order: the later cuts take away what the first one takes,
as long as no directive stands behind a closing delimiter. -/
namespace Javadoc
namespace Template
open Text Comment

/-- No directive of the line stands behind a closing delimiter. -/
def ClosesLast (line : Text) : Prop :=
  ∀ before after, line = before ++ (blockClose ++ after) →
    ∀ c : Condition, ¬ c.tag.marker <:+: after

/-- Behind the first closing delimiter is behind every other one too. -/
theorem closesLast_iff {line : Text} :
    ClosesLast line ↔ (breakOn? blockClose line).all fun found =>
      Condition.all.all fun c => !includes c.tag.marker found.2 := by
  simp only [Option.all_eq_true, List.all_eq_true, Bool.not_eq_true', includes_eq_false_iff]
  constructor
  · rintro h ⟨before, after⟩ hb c -
    exact h before after (by rw [breakOn?_eq_some hb, List.append_assoc]) c
  · rintro h before after rfl c hin
    obtain ⟨⟨b, a⟩, hb⟩ := Option.isSome_iff_exists.1
      ((breakOn?_isSome_iff blockClose _).2 ⟨before, after, List.append_assoc _ _ _⟩)
    refine h (b, a) hb c (by cases c <;> decide) (hin.trans ?_)
    have hle := breakOn?_first hb (List.append_assoc before blockClose after).symm
    have he := breakOn?_eq_some hb
    refine (List.suffix_of_suffix_length_le ⟨before ++ blockClose, by simp⟩
      ⟨b ++ blockClose, he.symm⟩ ?_).isInfix
    have := congrArg List.length he
    simp only [List.length_append] at this
    omega

instance (line : Text) : Decidable (ClosesLast line) := decidable_of_iff' _ closesLast_iff

/-- What stays of a line when it is cut once, at the first directive with one of the given
conditions. -/
inductive CutOnce (among : List Condition) (line : Text) (kept? : Option Text) : Prop
  | whole (free : ∀ c ∈ among, ¬ c.tag.marker <:+: line) (kept : kept? = some line)
  | cut {before after : Text} {c : Condition} (mem : c ∈ among)
      (line_eq : line = before ++ (c.tag.marker ++ after))
      (first : ∀ d ∈ among, ¬ d.tag.marker <:+: before)
      (kept : kept? = cutDirective before after)

variable {among : List Condition} {line : Text} {kept? : Option Text}

private theorem CutOnce.congr {among' : List Condition} (h : CutOnce among line kept?)
    (hm : ∀ c, c ∈ among ↔ c ∈ among') : CutOnce among' line kept? := by
  cases h with
  | whole free kept => exact .whole (fun c hc => free c ((hm c).2 hc)) kept
  | cut mem line_eq first kept =>
    exact .cut ((hm _).1 mem) line_eq (fun d hd => first d ((hm d).2 hd)) kept

/-- There is one first directive, so there is one way to cut at it. -/
theorem CutOnce.unique {kept'? : Option Text} (h : CutOnce among line kept?)
    (h' : CutOnce among line kept'?) : kept? = kept'? := by
  cases h with
  | whole free kept =>
    cases h' with
    | whole _ kept' => rw [kept, kept']
    | cut mem line_eq => exact absurd ⟨_, _, by rw [line_eq, List.append_assoc]⟩ (free _ mem)
  | cut mem line_eq first kept =>
    cases h' with
    | whole free => exact absurd ⟨_, _, by rw [line_eq, List.append_assoc]⟩ (free _ mem)
    | cut mem' line_eq' first' kept' =>
      obtain ⟨rfl, rfl⟩ :=
        first_marker_unique (line_eq.symm.trans line_eq') (first _ mem') (first' _ mem)
      rw [kept, kept']

/-- Nothing that a cut puts behind the text before a directive holds a marker. -/
theorem not_infix_cutDirective {before after kept : Text} {c d : Condition}
    (hl : ClosesLast (before ++ (c.tag.marker ++ after))) (hd : ¬ d.tag.marker <:+: before)
    (h : cutDirective before after = some kept) : ¬ d.tag.marker <:+: kept := by
  intro hin
  obtain ⟨hspace, hstar, hreturn, -⟩ := not_mem_marker d.tag
  obtain ⟨k, w, rfl, hk, hw⟩ := cutDirective_eq_some h
  have hkd : ¬ d.tag.marker <:+: k := fun hin => hd (hin.trans hk.isInfix)
  have hclose {front rest : Text} (ha : after = front ++ (blockClose ++ rest)) :
      ¬ d.tag.marker <:+: blockClose ++ rest := by
    intro hin
    have hslash : '/' ∉ d.tag.marker := by cases d <;> decide
    refine hl (before ++ (c.tag.marker ++ front)) rest (by simp [ha]) d ?_
    exact infix_of_append_left (marker_ne_nil _) (by simp [blockClose, hstar, hslash]) hin
  rcases hw with rfl | rfl | ⟨front, rest, ha, rfl | rfl⟩
  · exact hkd (by simpa using hin)
  · exact hkd (infix_of_append_right (marker_ne_nil _) (by simpa using hreturn) hin)
  · rcases infix_append_cons_of_not_mem hstar hin with hin | hin
    · exact hkd hin
    · exact hclose ha (hin.trans (List.suffix_cons _ _).isInfix)
  · rcases infix_append_cons_of_not_mem hspace hin with hin | hin
    · exact hkd hin
    · exact hclose ha hin

private theorem closing_of_breakOnLast? {after inner rest : Text}
    (h : breakOnLast? blockClose after = some (inner, rest)) :
    closing after = ' ' :: (blockClose ++ rest) := by
  rw [closing, h]

private theorem closing_of_unclosed {t : Text} (h : ¬ blockClose <:+: t) :
    closing t = if t.getLast? == some '\r' then ['\r'] else [] := by
  rw [closing, breakOnLast?_eq_none_iff.2 h]

section

variable {mid : Text} (hmid : ¬ blockClose <:+: mid)
include hmid

/-- A directive farther in front is followed by the same closing. -/
theorem closing_marker (c : Condition) (after : Text) :
    closing (mid ++ (c.tag.marker ++ after)) = closing after := by
  cases hb : breakOnLast? blockClose after with
  | some found =>
    have h := (breakOnLast?_append_iff (mid ++ c.tag.marker) after).2 hb
    rw [List.append_assoc] at h
    rw [closing_of_breakOnLast? h, closing_of_breakOnLast? hb]
  | none =>
    have hafter := breakOnLast?_eq_none_iff.1 hb
    have hno : ¬ blockClose <:+: mid ++ (c.tag.marker ++ after) := by
      rw [marker_eq]
      intro hin
      rcases infix_append_cons_of_not_mem (by decide) hin with hin | hin
      · exact hmid hin
      · have hname : ∀ e ∈ c.tag.name ++ ['>'], e ∉ blockClose :=
          List.all_iff_forall_prop.1 (by cases c <;> decide)
        exact hafter (infix_of_append_left (by decide) hname hin)
    rw [closing_of_unclosed hno, closing_of_unclosed hafter]
    cases after using List.reverseRecOn with
    | nil => simp [Tag.marker, List.getLast?_cons]
    | append_singleton after e => simp [← List.append_assoc]

/-- What a cut has put behind a line stays behind it. -/
theorem closing_closing (after : Text) :
    closing (trimEnd mid ++ closing after) = closing after := by
  have htrim : ¬ blockClose <:+: trimEnd mid := fun hin =>
    hmid (hin.trans (List.IsPrefix.isInfix (isPrefix_trimEnd mid)))
  cases hb : breakOnLast? blockClose after with
  | some found =>
    obtain ⟨inner, rest⟩ := found
    have hrest : breakOnLast? blockClose (blockClose ++ rest) = some ([], rest) := by
      rw [← breakOnLast?_append_iff inner, List.append_nil, ← List.append_assoc,
        ← breakOnLast?_eq_some hb]
      exact hb
    have h := (breakOnLast?_append_iff (trimEnd mid ++ [' ']) _).2 hrest
    rw [List.append_assoc, List.singleton_append] at h
    rw [closing_of_breakOnLast? hb, closing_of_breakOnLast? h]
  | none =>
    rw [closing_of_unclosed (breakOnLast?_eq_none_iff.1 hb)]
    split
    · rw [closing_of_unclosed fun hin =>
        htrim (infix_of_append_right (by decide) (by simp [blockClose]) hin)]
      simp
    · rw [List.append_nil, closing_of_unclosed htrim, if_neg]
      intro h
      exact absurd (getLast?_dropEndWhile isBlank mid '\r' (beq_iff_eq.1 h)) (by decide)

end

/-- Cutting at a directive and then at one before it is cutting at the one before it. -/
theorem cutDirective_again {front mid after : Text} {c d : Condition}
    (hl : ClosesLast (front ++ (d.tag.marker ++ mid) ++ (c.tag.marker ++ after)))
    (hd : ¬ d.tag.marker <:+: front) :
    (cutDirective (front ++ (d.tag.marker ++ mid)) after).bind (cutFromLine d.tag) =
      cutDirective front (mid ++ (c.tag.marker ++ after)) := by
  -- a closing delimiter between the two directives would have the second one behind it
  have hmid : ¬ blockClose <:+: mid := by
    rintro ⟨x, y, rfl⟩
    exact hl (front ++ (d.tag.marker ++ x)) (y ++ (c.tag.marker ++ after)) (by simp) c
      ⟨y, after, by simp⟩
  have hkept : trimEnd (front ++ (d.tag.marker ++ mid)) =
      front ++ (d.tag.marker ++ trimEnd mid) := by
    have h := dropEndWhile_append_cons (p := isBlank) (c := '>') (by decide)
      (front ++ '<' :: d.tag.name) mid
    simpa [trimEnd, Tag.marker] using h
  have hsolid : isDecorative (front ++ (d.tag.marker ++ trimEnd mid)) = false := by
    simp [isDecorative, Tag.marker, isBlank]
  rw [cutDirective_eq, hkept, hsolid, if_neg Bool.false_ne_true, Option.bind_some,
    List.append_assoc, List.append_assoc, cutFromLine, breakOn?_marker hd]
  simp only [cutDirective_eq front, closing_closing hmid, closing_marker hmid]

/-- One more cut is a cut at the first directive of one more kind. -/
theorem CutOnce.step (hl : ClosesLast line) (h : CutOnce among line kept?) (d : Condition) :
    CutOnce (d :: among) line (kept?.bind (cutFromLine d.tag)) := by
  cases h with
  | whole free kept =>
    rw [kept, Option.bind_some, cutFromLine]
    cases hb : breakOn? d.tag.marker line with
    | none =>
      refine .whole (fun c hc => ?_) rfl
      rcases List.mem_cons.1 hc with rfl | hc
      · exact breakOn?_eq_none_iff.1 hb
      · exact free c hc
    | some found =>
      obtain ⟨before, after⟩ := found
      have hline := breakOn?_eq_some hb
      rw [List.append_assoc] at hline
      refine .cut List.mem_cons_self hline (fun c hc => ?_) rfl
      rcases List.mem_cons.1 hc with rfl | hc
      · exact not_infix_before hb (marker_ne_nil _)
      · exact fun hin => free c hc (hin.trans (hline ▸ (List.prefix_append _ _).isInfix))
  | @cut before after c mem line_eq first kept =>
    rw [kept]
    cases hb : breakOn? d.tag.marker before with
    | none =>
      -- what the cut left has no directive for `d`: it stood behind the first one, if anywhere
      have hd := breakOn?_eq_none_iff.1 hb
      refine .cut (List.mem_cons_of_mem _ mem) line_eq (fun e he => ?_) ?_
      · rcases List.mem_cons.1 he with rfl | he
        · exact hd
        · exact first e he
      · cases hk : cutDirective before after with
        | none => rfl
        | some kept =>
          have hno := not_infix_cutDirective (line_eq ▸ hl) hd hk
          rw [Option.bind_some, cutFromLine, breakOn?_eq_none_iff.2 hno]
    | some found =>
      obtain ⟨front, mid⟩ := found
      have hbefore := breakOn?_eq_some hb
      rw [List.append_assoc] at hbefore
      subst hbefore
      have hfront := not_infix_before hb (marker_ne_nil _)
      refine .cut List.mem_cons_self (by rw [line_eq]; simp) (fun e he => ?_)
        (cutDirective_again (line_eq ▸ hl) hfront)
      rcases List.mem_cons.1 he with rfl | he
      · exact hfront
      · exact fun hin => first e he (hin.trans (List.prefix_append _ _).isInfix)

/-- Cutting for one kind after the other is cutting once. -/
theorem CutOnce.run (hl : ClosesLast line) (h : CutOnce among line kept?) (order : List Condition) :
    CutOnce (order.reverse ++ among) line
      (kept?.bind fun kept => order.foldlM (fun line c => cutFromLine c.tag line) kept) := by
  -- the conditions cut for so far are the accumulator: `order.reverse ++ among` grows in front
  induction order generalizing among kept? with
  | nil => simpa using h
  | cons d order ih =>
    rw [List.reverse_cons, List.append_assoc, List.singleton_append]
    convert ih (h.step hl d) using 1
    rw [Option.bind_assoc]
    rfl

private theorem cutOnce_foldlM (hl : ClosesLast line) (order : List Condition) :
    CutOnce order line (order.foldlM (fun line c => cutFromLine c.tag line) line) := by
  have h : CutOnce [] line (some line) := .whole (by simp) rfl
  exact (h.run hl order).congr (by simp)

private theorem cutOnce_bodyLine (line : Text) :
    CutOnce Condition.all line (CustomBody.bodyLine line) := by
  obtain ⟨-, hfree⟩ := splitAtMarkers_free line
  rw [CustomBody.bodyLine]
  split
  · next before hsplit =>
    have hline := splitAtMarkers_of_nil (congrArg Prod.snd hsplit)
    exact .whole (fun c _ => hline ▸ hfree c) rfl
  · next before c argument rest hsplit =>
    rw [hsplit] at hfree
    exact .cut (by cases c <;> decide) (splitAtMarkers_eq hsplit) (fun d _ => hfree d) rfl

private theorem CutOnce.free {kept : Text} (hl : ClosesLast line)
    (h : CutOnce among line (some kept))
    {c : Condition} (hc : c ∈ among) : ¬ c.tag.marker <:+: kept := by
  cases h with
  | whole free kept =>
    cases kept
    exact free c hc
  | cut mem line_eq first kept =>
    exact not_infix_cutDirective (line_eq ▸ hl) (first c hc) kept.symm

private theorem dropDirective_joinLines {ls : List Text} (hn : ∀ l ∈ ls, '\n' ∉ l) (tag : Tag) :
    dropDirective tag (joinLines ls) = joinLines (ls.filterMap (cutFromLine tag)) := by
  by_cases hls : ls = []
  · subst hls
    cases tag <;> rfl
  · rw [dropDirective, splitLines_joinLines hn hls]

/-- Cutting a text for one kind after the other goes line by line. -/
theorem foldl_dropDirective (order : List Condition) {ls : List Text}
    (hn : ∀ l ∈ ls, '\n' ∉ l) :
    order.foldl (fun text c => dropDirective c.tag text) (joinLines ls) =
      joinLines (ls.filterMap fun line =>
        order.foldlM (fun line c => cutFromLine c.tag line) line) := by
  induction order generalizing ls with
  | nil =>
    rw [List.foldl_nil]
    congr 1
    exact (List.filterMap_some).symm
  | cons d order ih =>
    rw [List.foldl_cons, dropDirective_joinLines hn, ih, List.filterMap_filterMap]
    · rfl
    · intro kept hk
      obtain ⟨line, hl, hkept⟩ := List.mem_filterMap.1 hk
      exact newline_not_mem_cutFromLine hkept (hn line hl)

end Template

namespace CustomBody
open Text Template

/-- The body of a template is what is left when its directives are cut out one kind after the
other, in any order, and no directive is left in it. -/
theorem body_eq_foldl_dropDirective {template : Text}
    (h : ∀ line ∈ splitLines template, ClosesLast line) {order : List Condition}
    (ho : order.Perm Condition.all) :
    (ofTemplate template).body =
        order.foldl (fun text c => dropDirective c.tag text) template ∧
      ∀ c : Condition, includes c.tag.marker (ofTemplate template).body = false := by
  constructor
  · conv_rhs => rw [← joinLines_splitLines template]
    rw [foldl_dropDirective order fun l hl => not_mem_of_mem_splitLines hl]
    refine congrArg joinLines (List.filterMap_congr fun line hl => ?_)
    exact (cutOnce_bodyLine line).unique
      ((cutOnce_foldlM (h line hl) order).congr fun c => ho.mem_iff)
  · intro c
    rw [includes_eq_false_iff, ofTemplate,
      infix_joinLines_iff (not_mem_marker c.tag).2.2.2.1 (marker_ne_nil c.tag)]
    rintro ⟨kept, hk, hin⟩
    obtain ⟨line, hl, hkept⟩ := List.mem_filterMap.1 hk
    exact (hkept ▸ cutOnce_bodyLine line).free (h line hl) (by cases c <;> decide) hin

/-- Directives of all kinds, mixed and repeated, before a carriage return, on a line of their own
and before a closing delimiter. -/
theorem body_eq_foldl_dropDirective_mixed :
    let template := "/**\r\n * Reads <nameContains> get <hasP> a <nameContains> it\r\n".toList ++
      " * <returnTypeIs> int <hasP> b\r\n * it. <hasP> c <returnTypeIs> d <hasP> e */ int f;".toList
    let order := [Condition.hasParams, .returnTypeIs, .nameContains]
    (∀ line ∈ splitLines template, ClosesLast line) ∧ order.Perm Condition.all ∧
      order.foldl (fun text c => dropDirective c.tag text) template =
        "/**\r\n * Reads\r\n * it. */ int f;".toList ∧
      (ofTemplate template).body = order.foldl (fun text c => dropDirective c.tag text) template ∧
      includes Condition.hasParams.tag.marker (ofTemplate template).body = false := by
  intro template order
  have hlines : ∀ line ∈ splitLines template, ClosesLast line := by decide +kernel
  have horder : order.Perm Condition.all := by decide
  obtain ⟨hbody, hfree⟩ := body_eq_foldl_dropDirective hlines horder
  exact ⟨hlines, horder, by decide +kernel, hbody, hfree .hasParams⟩

/-- A directive behind the closing delimiter of another one is left in the body. -/
example : (ofTemplate "/** A <nameContains> b */ <hasP> c".toList).body =
      "/** A */ <hasP> c".toList ∧
    [Condition.hasParams, .returnTypeIs, .nameContains].foldl
      (fun text c => dropDirective c.tag text) "/** A <nameContains> b */ <hasP> c".toList =
        "/** A */".toList := by decide +kernel

end CustomBody
end Javadoc
