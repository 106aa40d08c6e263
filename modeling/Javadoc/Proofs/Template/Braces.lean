import Javadoc.Proofs.Template.Untagged

/-! Deleting a tag and the braces around it. A tag is deleted with the inline tag that encloses it,
from the opening brace of that tag to the first closing one. The lines of a template keep their
braces in balance unless a brace is opened inside the inline tag before the tag that is deleted. -/
namespace Javadoc.Template
open Text

/-- The number of braces that stand open behind a text, when `depth` of them do before it. There is
none when a brace is closed that was not opened. -/
def openBraces? : Nat → Text → Option Nat
  | depth, [] => some depth
  | depth, c :: cs =>
    if c = '{' then openBraces? (depth + 1) cs
    else if c = '}' then
      match depth with
      | 0 => none
      | depth + 1 => openBraces? depth cs
    else openBraces? depth cs

/-- Whether every brace that is opened in a text is closed in it, and the other way round. -/
def isBalanced (t : Text) : Bool := openBraces? 0 t == some 0

private theorem isBalanced_iff {t : Text} : isBalanced t ↔ openBraces? 0 t = some 0 := by
  rw [isBalanced, beq_iff_eq]

private theorem openBraces?_append (depth : Nat) (x y : Text) :
    openBraces? depth (x ++ y) = (openBraces? depth x).bind fun d => openBraces? d y := by
  induction x generalizing depth with
  | nil => rfl
  | cons c x ih =>
    simp only [List.cons_append, openBraces?, ih]
    split
    · rfl
    · split
      · cases depth <;> rfl
      · rfl

private theorem count_of_openBraces? {depth d : Nat} {t : Text} (h : openBraces? depth t = some d) :
    depth + t.count '{' = d + t.count '}' := by
  induction t generalizing depth with
  | nil =>
    cases h
    rfl
  | cons c t ih =>
    simp only [openBraces?] at h
    split at h
    · next hc =>
      have := ih h
      subst hc
      rw [List.count_cons_self, List.count_cons_of_ne (by decide)]
      omega
    · next hc =>
      rw [List.count_cons_of_ne hc]
      split at h
      · next hc' =>
        subst hc'
        rw [List.count_cons_self]
        cases depth with
        | zero => cases h
        | succ depth =>
          have := ih h
          omega
      · next hc' =>
        rw [List.count_cons_of_ne hc']
        exact ih h

/-- Nothing is closed in a text without a closing brace. -/
theorem openBraces?_of_not_mem {t : Text} (h : '}' ∉ t) (depth : Nat) :
    openBraces? depth t = some (depth + t.count '{') := by
  induction t generalizing depth with
  | nil => rfl
  | cons c t ih =>
    simp only [List.mem_cons, not_or] at h
    simp only [openBraces?, if_neg (Ne.symm h.1), ih h.2]
    split
    · next hc =>
      subst hc
      rw [List.count_cons_self, Nat.add_assoc, Nat.add_comm 1]
    · next hc => rw [List.count_cons_of_ne hc]

private theorem openBraces?_of_plain {t : Text} (ho : '{' ∉ t) (hc : '}' ∉ t) (depth : Nat) :
    openBraces? depth t = some depth := by
  rw [openBraces?_of_not_mem hc, List.count_eq_zero_of_not_mem ho, Nat.add_zero]

/-- A stretch that leaves as many braces open as it found can be taken out. -/
theorem openBraces?_cut {u : Text} (h : ∀ depth, openBraces? depth u = some depth) (depth : Nat)
    (l r : Text) : openBraces? depth (l ++ (u ++ r)) = openBraces? depth (l ++ r) := by
  rw [openBraces?_append, openBraces?_append]
  congr 1
  funext d
  rw [openBraces?_append, h, Option.bind_some]

private theorem openBraces?_blank {b : Text} (h : ∀ c ∈ b, isBlank c) (depth : Nat) :
    openBraces? depth b = some depth :=
  openBraces?_of_plain (fun hm => absurd (h _ hm) (by decide)) (fun hm => absurd (h _ hm) (by decide))
    depth

private theorem openBraces?_trimEnd (depth : Nat) (t : Text) :
    openBraces? depth (trimEnd t) = openBraces? depth t := by
  obtain ⟨b, hb, hblank⟩ := dropEndWhile_append isBlank t
  have hcut := openBraces?_cut (openBraces?_blank hblank) depth (trimEnd t) []
  rw [List.append_nil, List.append_nil] at hcut
  rw [← hcut]
  exact congrArg _ hb.symm

/-- Closing a gap takes away no more than a space. -/
theorem openBraces?_closeGap (depth : Nat) (left right : Text) :
    openBraces? depth (closeGap left right) = openBraces? depth (left ++ right) := by
  rw [closeGap]
  split
  · next h =>
    obtain ⟨rest, rfl⟩ : ∃ rest, right = ' ' :: rest := by
      cases right with
      | nil => simp at h
      | cons c rest => simp_all
    exact (openBraces?_cut (u := [' ']) (fun _ => rfl) depth left rest).symm
  · rfl

private theorem count_closeGap {c : Char} (hc : c ≠ ' ') (left right : Text) :
    (closeGap left right).count c = left.count c + right.count c := by
  rw [closeGap]
  split
  · next h =>
    obtain ⟨rest, rfl⟩ : ∃ rest, right = ' ' :: rest := by
      cases right with
      | nil => simp at h
      | cons c rest => simp_all
    rw [List.drop_one, List.tail_cons, List.count_append, List.count_cons_of_ne (Ne.symm hc)]
  · exact List.count_append

/-- Whether the inline tag that goes away around a place opens a brace of its own before it. The
first closing brace behind the place is the one of that brace then, and the one of the inline tag
stays. -/
def cutsBrace (before after : Text) : Bool :=
  1 < (before.drop (dropInlineTag before after).1.length).count '{'

private theorem length_removed_lt {tag : Tag} {line before after : Text}
    (h : breakOn? tag.marker line = some (before, after)) :
    (closeGap (dropInlineTag before after).1 (dropInlineTag before after).2).length < line.length := by
  have hline := congrArg List.length (breakOn?_eq_some h)
  have haround := length_dropInlineTag before after
  have hgap := length_closeGap (dropInlineTag before after).1 (dropInlineTag before after).2
  have hmarker := tag.marker_length_pos
  simp only [List.length_append] at hline
  omega

/-- Whether one of the inline tags that go away with `tag` opens a brace of its own before it. -/
def cutsBraces (tag : Tag) (line : Text) : Bool :=
  match _h : breakOn? tag.marker line with
  | none => false
  | some (before, after) =>
    let around := dropInlineTag before after
    cutsBrace before after || cutsBraces tag (closeGap around.1 around.2)
termination_by line.length
decreasing_by exact length_removed_lt _h

private theorem cutsBraces_of_not_infix {tag : Tag} {line : Text} (h : ¬ tag.marker <:+: line) :
    cutsBraces tag line = false := by
  rw [cutsBraces]
  split
  · rfl
  · next hbreak => simp [breakOn?_eq_none_iff.2 h] at hbreak

private theorem cutsBraces_of_breakOn? {tag : Tag} {line before after : Text}
    (h : breakOn? tag.marker line = some (before, after)) :
    cutsBraces tag line = (cutsBrace before after ||
      cutsBraces tag (closeGap (dropInlineTag before after).1 (dropInlineTag before after).2)) := by
  rw [cutsBraces]
  split
  · next hbreak => cases h.symm.trans hbreak
  · next hbreak =>
    cases h.symm.trans hbreak
    rfl

/-- What goes away with one occurrence of a tag closes the braces that it opens, or it leaves one of
them open that the rest of the line closes. -/
theorem removed_braces {tag : Tag} {line before after : Text}
    (h : breakOn? tag.marker line = some (before, after)) :
    ∃ u, line = (dropInlineTag before after).1 ++ (u ++ (dropInlineTag before after).2) ∧
      ((cutsBrace before after = false ∧ ∀ depth, openBraces? depth u = some depth) ∨
        (cutsBrace before after = true ∧ u.count '}' < u.count '{')) := by
  have hline := breakOn?_eq_some h
  have hmo : '{' ∉ tag.marker := by cases tag <;> decide
  have hmc : '}' ∉ tag.marker := by cases tag <;> decide
  rcases dropInlineTag_braces before after with he | ⟨between, inside, hb, ha, hbetween, ho, hc⟩
  · refine ⟨tag.marker, by simp [he, hline], .inl ⟨?_, openBraces?_of_plain hmo hmc⟩⟩
    simp [cutsBrace, he]
  · rw [cutsBrace]
    generalize dropInlineTag before after = around at hb ha ⊢
    obtain ⟨left, right⟩ := around
    subst hb ha
    have hcount : ((left ++ inlineOpen ++ between).drop left.length).count '{' =
        between.count '{' + 1 := by
      rw [List.append_assoc, List.drop_left, List.count_append, Nat.add_comm]
      rfl
    refine ⟨inlineOpen ++ (between ++ (tag.marker ++ (inside ++ ['}']))), by simp [hline], ?_⟩
    rw [hcount]
    by_cases hplain : '{' ∈ between
    · refine .inr ⟨by simpa using List.count_pos_iff.2 hplain, ?_⟩
      have := List.count_pos_iff.2 hplain
      simp only [List.count_append, List.count_eq_zero_of_not_mem hbetween,
        List.count_eq_zero_of_not_mem hmo, List.count_eq_zero_of_not_mem hmc,
        List.count_eq_zero_of_not_mem ho, List.count_eq_zero_of_not_mem hc]
      simp only [inlineOpen]
      have h₁ : List.count '}' "\x7b@".toList = 0 := by decide
      have h₂ : List.count '{' "\x7b@".toList = 1 := by decide
      have h₃ : List.count '}' ['}'] = 1 := by decide
      have h₄ : List.count '{' ['}'] = 0 := by decide
      omega
    · refine .inl ⟨by simp [List.count_eq_zero_of_not_mem hplain], fun depth => ?_⟩
      have hinner : openBraces? (depth + 1) (between ++ (tag.marker ++ inside)) = some (depth + 1) :=
        openBraces?_of_plain (by simp [hplain, hmo, ho]) (by simp [hbetween, hmc, hc]) _
      calc openBraces? depth (inlineOpen ++ (between ++ (tag.marker ++ (inside ++ ['}']))))
        _ = openBraces? (depth + 1) ((between ++ (tag.marker ++ inside)) ++ ['}']) := by
          simp [inlineOpen, openBraces?]
        _ = some depth := by rw [openBraces?_append, hinner]; rfl

/-- A line that lacks an opening brace lacks it after a tag is removed, too. -/
theorem count_removeTag_lt (tag : Tag) (line : Text) (h : line.count '{' < line.count '}') :
    (removeTag tag line).count '{' < (removeTag tag line).count '}' := by
  fun_induction removeTag tag line with
  | case1 line => exact h
  | case2 line before after hbreak around ih =>
    obtain ⟨u, hline, hu⟩ := removed_braces hbreak
    have hle : u.count '}' ≤ u.count '{' := by
      rcases hu with ⟨-, hu⟩ | ⟨-, hu⟩
      · have := count_of_openBraces? (hu 0)
        omega
      · exact hu.le
    apply ih
    rw [count_closeGap (by decide), count_closeGap (by decide)]
    simp only [hline, List.count_append] at h
    simp only [around]
    omega

/-- Removing a tag from a line keeps its braces in balance unless an inline tag is cut at a brace of
its own: the line lacks an opening brace then. -/
theorem isBalanced_removeTag_iff {tag : Tag} {line : Text} (h : isBalanced line) :
    isBalanced (removeTag tag line) ↔ cutsBraces tag line = false := by
  fun_induction removeTag tag line with
  | case1 line hbreak => simp [h, cutsBraces_of_not_infix (breakOn?_eq_none_iff.1 hbreak)]
  | case2 line before after hbreak around ih =>
    have hcuts : cutsBraces tag line =
        (cutsBrace before after || cutsBraces tag (closeGap around.1 around.2)) :=
      cutsBraces_of_breakOn? hbreak
    obtain ⟨u, hline, ⟨hcut, hu⟩ | ⟨hcut, hu⟩⟩ := removed_braces hbreak
    · rw [hcuts, hcut, Bool.false_or]
      refine ih ?_
      rwa [isBalanced_iff, openBraces?_closeGap, ← openBraces?_cut hu, ← hline, ← isBalanced_iff]
    · rw [hcuts, hcut, Bool.true_or]
      refine iff_of_false (fun hb => ?_) (by decide)
      have hcount := count_of_openBraces? (isBalanced_iff.1 h)
      have hlt : (closeGap around.1 around.2).count '{' < (closeGap around.1 around.2).count '}' := by
        rw [count_closeGap (by decide), count_closeGap (by decide)]
        simp only [hline, List.count_append] at hcount
        simp only [around]
        omega
      have := count_of_openBraces? (isBalanced_iff.1 hb)
      have := count_removeTag_lt tag _ hlt
      omega

private theorem not_infix_removeTag (tag : Tag) (line : Text) :
    ¬ tag.marker <:+: removeTag tag line := by
  fun_induction removeTag tag line with
  | case1 line hbreak => exact breakOn?_eq_none_iff.1 hbreak
  | case2 line before after hbreak around ih => exact ih

/-- What is left of a line when a tag is dropped: the line itself without the tag, or the line with
the tag removed. -/
theorem dropFromLine_cases {tag : Tag} {line kept : Text} (h : dropFromLine tag line = some kept) :
    ¬ tag.marker <:+: line ∧ kept = line ∨
      tag.marker <:+: line ∧ kept = trimEnd (removeTag tag line) := by
  rw [dropFromLine] at h
  split at h
  · next hno =>
    cases h
    exact .inl ⟨includes_eq_false_iff.1 (by simpa using hno), rfl⟩
  · next hin =>
    refine .inr ⟨includes_iff.1 (by simpa using hin), ?_⟩
    split at h
    · cases h
    · simp only at h
      split at h
      · cases h
      · exact (Option.some.inj h).symm

private theorem not_infix_dropFromLine {tag : Tag} {line kept : Text}
    (h : dropFromLine tag line = some kept) : ¬ tag.marker <:+: kept := by
  rcases dropFromLine_cases h with ⟨hno, rfl⟩ | ⟨-, rfl⟩
  · exact hno
  · exact fun hin => not_infix_removeTag tag line (hin.trans (Text.isPrefix_trimEnd _).isInfix)

private theorem isBalanced_dropFromLine_iff {tag : Tag} {line kept : Text} (hline : isBalanced line)
    (h : dropFromLine tag line = some kept) : isBalanced kept ↔ cutsBraces tag line = false := by
  rcases dropFromLine_cases h with ⟨hno, rfl⟩ | ⟨-, rfl⟩
  · simp [hline, cutsBraces_of_not_infix hno]
  · rw [← isBalanced_removeTag_iff hline, isBalanced_iff, isBalanced_iff, openBraces?_trimEnd]

/-- The lines of a text from which a tag is dropped: what is left of the lines before, or an empty
line if nothing is. -/
theorem mem_splitLines_dropTag {tag : Tag} {template line : Text}
    (h : line ∈ splitLines (dropTag tag template)) :
    line = [] ∨ ∃ l ∈ splitLines template, dropFromLine tag l = some line := by
  have hkept : ∀ kept ∈ (splitLines template).filterMap (dropFromLine tag), '\n' ∉ kept := by
    intro kept hk
    obtain ⟨l, hl, hk⟩ := List.mem_filterMap.1 hk
    exact newline_not_mem_dropFromLine hk (not_mem_of_mem_splitLines hl)
  rw [dropTag] at h
  by_cases hne : (splitLines template).filterMap (dropFromLine tag) = []
  · rw [hne] at h
    exact .inl (by simpa [joinLines, joinWith, splitLines] using h)
  · rw [splitLines_joinLines hkept hne] at h
    exact .inr (List.mem_filterMap.1 h)

private theorem mem_splitLines_of_dropFromLine {tag : Tag} {template line kept : Text}
    (hline : line ∈ splitLines template) (h : dropFromLine tag line = some kept) :
    kept ∈ splitLines (dropTag tag template) := by
  refine (sublist_splitLines_joinLines fun l hl => ?_).subset (List.mem_filterMap.2 ⟨line, hline, h⟩)
  obtain ⟨line, hline, hl⟩ := List.mem_filterMap.1 hl
  exact newline_not_mem_dropFromLine hl (not_mem_of_mem_splitLines hline)

private theorem not_infix_dropTag (tag : Tag) (template : Text) :
    ¬ tag.marker <:+: dropTag tag template := by
  rw [infix_iff_line (not_mem_marker tag).2.2.2.1 (marker_ne_nil tag)]
  rintro ⟨line, hline, hin⟩
  rcases mem_splitLines_dropTag hline with rfl | ⟨l, -, hl⟩
  · exact marker_ne_nil tag (List.infix_nil.1 hin)
  · exact not_infix_dropFromLine hl hin

/-- A text without a tag has nothing to drop. -/
theorem dropTag_eq_self {tag : Tag} {text : Text} (h : ¬ tag.marker <:+: text) :
    dropTag tag text = text := by
  have hline : ∀ line ∈ splitLines text, dropFromLine tag line = some line := fun line hline =>
    dropFromLine_eq_self fun hin => h <|
      (infix_iff_line (not_mem_marker tag).2.2.2.1 (marker_ne_nil tag) text).2 ⟨line, hline, hin⟩
  rw [dropTag, List.filterMap_congr hline, List.filterMap_some, joinLines_splitLines]

private theorem unmarked_sublist_dropTag (tag : Tag) (template : Text) :
    ((splitLines template).filter fun line => !includes tag.marker line).Sublist
      (splitLines (dropTag tag template)) := by
  have hlines : ∀ l ∈ splitLines template, '\n' ∉ l := fun l hl => not_mem_of_mem_splitLines hl
  rw [(linewise_dropTag tag).apply]
  refine (filter_sublist_flatMap fun line _ hline => ?_).trans
    (sublist_splitLines_joinLines ((linewise_dropTag tag).lines_flatMap hlines))
  rw [dropFromLine_eq_self (includes_eq_false_iff.1 (by simpa using hline))]
  rfl

/-- Dropping a tag from a template, each of whose lines has its braces in balance, leaves no marker of
the tag and every line without one as it is, and a second time changes nothing. The lines have their
braces in balance again unless a tag stands behind a brace that is opened inside its inline tag, in a
line that stays. -/
theorem dropTag_balanced (tag : Tag) (template : Text)
    (h : ∀ line ∈ splitLines template, isBalanced line) :
    ¬ tag.marker <:+: dropTag tag template ∧
      ((splitLines template).filter fun line => !includes tag.marker line).Sublist
        (splitLines (dropTag tag template)) ∧
      dropTag tag (dropTag tag template) = dropTag tag template ∧
      ((∀ line ∈ splitLines (dropTag tag template), isBalanced line) ↔
        ∀ line ∈ splitLines template, (dropFromLine tag line).isSome → cutsBraces tag line = false) := by
  refine ⟨not_infix_dropTag tag template, unmarked_sublist_dropTag tag template,
    dropTag_eq_self (not_infix_dropTag tag template), fun hkept line hline hsome => ?_,
    fun hcuts line hline => ?_⟩
  · obtain ⟨kept, hkeep⟩ := Option.isSome_iff_exists.1 hsome
    exact (isBalanced_dropFromLine_iff (h line hline) hkeep).1
      (hkept kept (mem_splitLines_of_dropFromLine hline hkeep))
  · rcases mem_splitLines_dropTag hline with rfl | ⟨l, hl, hkeep⟩
    · rfl
    · exact (isBalanced_dropFromLine_iff (h l hl) hkeep).2 (hcuts l hl (by rw [hkeep]; rfl))

/-- Braces around the inline tags, and a tag that stands twice in one of them. -/
theorem dropTag_balanced_shared :
    let template := "/**\n * Gets \x7ball \x7b@link <instance> as <instance>\x7d here\x7d now\n */".toList
    (∀ line ∈ splitLines template, isBalanced line) ∧
      dropTag .subject template = "/**\n * Gets \x7ball here\x7d now\n */".toList ∧
      ∀ line ∈ splitLines (dropTag .subject template), isBalanced line := by
  intro template
  have h : ∀ line ∈ splitLines template, isBalanced line := by decide +kernel
  exact ⟨h, by decide +kernel, (dropTag_balanced .subject template h).2.2.2.2 (by decide +kernel)⟩

/-- The first closing brace behind the tag is the one of the inner pair: the outer one stays. -/
example : dropTag .subject " * Gets \x7b@code \x7b<instance>\x7d\x7d now".toList =
    " * Gets \x7d now".toList := by decide +kernel

end Javadoc.Template
