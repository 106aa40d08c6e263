import Javadoc.Comment.Markup
import Javadoc.Proofs.Plan.Layout
import Mathlib.Data.List.TakeWhile

/-! Layout is no part of a description. Blanks put in or taken out at the start or at the end of a
line leave the description of a comment as it is, so it stays when the comment is indented or gets
other line endings. -/
namespace Javadoc.Comment
open Text

private theorem lineContent_append_left {a : Text} (ha : ∀ c ∈ a, isBlank c) (line : Text) :
    lineContent (a ++ line) = lineContent line := by
  rw [lineContent, trim_append_left ha, ← lineContent]

private theorem lineContent_append_right {b : Text} (hb : ∀ c ∈ b, isBlank c) (line : Text) :
    lineContent (line ++ b) = lineContent line := by
  rw [lineContent, trim_append_right hb, ← lineContent]

private theorem lineContent_dropReturn (line : Text) :
    lineContent (dropReturn line) = lineContent line := by
  rw [dropReturn, stripSuffix?]
  split
  · next h =>
    obtain ⟨l, rfl⟩ := List.isSuffixOf_iff_suffix.1 h
    rw [Option.getD_some, List.length_append, Nat.add_sub_cancel, List.take_left]
    exact (lineContent_append_right (by simp [isBlank]) l).symm
  · rfl

def told (contents : List Text) : Text :=
  joinWith [' '] ((contents.takeWhile fun c => !startsBlockTag c).filter fun c => !c.isEmpty)

/-- Whether the last line is one if nothing stands in it makes no difference. -/
theorem told_linesOfPieces (ps : List Text) :
    told ((linesOfPieces ps).map lineContent) = told (ps.map lineContent) := by
  have hlines : (((linesOfPieces ps).map lineContent).takeWhile fun c => !startsBlockTag c).filter
        (fun c => !c.isEmpty) =
      ((ps.map lineContent).takeWhile fun c => !startsBlockTag c).filter fun c => !c.isEmpty := by
    induction ps with
    | nil => rfl
    | cons p ps ih =>
      cases ps with
      | nil =>
        rw [linesOfPieces]
        split
        · next h =>
          rw [List.isEmpty_iff.1 h]
          rfl
        · rfl
      | cons q ps =>
        rw [linesOfPieces, List.map_cons, List.map_cons, lineContent_dropReturn, List.takeWhile_cons,
          List.takeWhile_cons]
        split
        · rw [List.filter_cons, List.filter_cons, ih]
        · rfl
  rw [told, hlines, told]

/-- The description is what the lines between the delimiters tell. -/
theorem description_eq (comment : Text) :
    description comment = told ((splitLines (inner comment)).map lineContent) :=
  told_linesOfPieces _

def bare (t : Text) : Text :=
  let body :=
    match stripPrefix? docStart t with
    | some rest => rest
    | none => (stripPrefix? blockOpen t).getD t
  (stripSuffix? blockClose body).getD body

private theorem inner_eq (comment : Text) : inner comment = bare (trim comment) := rfl

/-- Whether the place between two texts is at the end or at the start of a line, with the line break
beside it. -/
def AtBreak (x y : Text) : Prop := x.getLast? = some '\n' ∨ y.head? = some '\n'

section

variable {x g y : Text} (hg : ∀ c ∈ g, isBlank c) (h : AtBreak x y)
include h

private theorem AtBreak.of_end {x' : Text} (hs : x' <:+ x) (hne : x' ≠ []) : AtBreak x' y := by
  refine h.imp_left fun hx => ?_
  obtain ⟨a, rfl⟩ := hs
  rwa [List.getLast?_append_of_ne_nil a hne] at hx

private theorem AtBreak.of_front {y' : Text} (hp : y' <+: y) (hne : y' ≠ []) : AtBreak x y' := by
  refine h.imp_right fun hy => ?_
  obtain ⟨b, rfl⟩ := hp
  rwa [List.head?_append_of_ne_nil y' hne] at hy

/-- A delimiter at the start of a text stands before the place. -/
theorem AtBreak.prefix_iff (hg : ∀ c ∈ g, isBlank c) {p : Text} (hp : ∀ c ∈ p, isBlank c = false) :
    p <+: x ++ (g ++ y) ↔ p <+: x := by
  refine ⟨fun hpre => ?_, fun hpre => hpre.trans (List.prefix_append x _)⟩
  have hsolid {c : Char} (hc : isBlank c) : c ∉ p := fun hm => by simp [hp c hm] at hc
  rcases h with hx | hy
  · rcases List.prefix_or_prefix_of_prefix hpre (List.prefix_append x _) with hpre | hpre
    · exact hpre
    · exact absurd (hpre.subset (List.mem_of_getLast? hx)) (hsolid (by decide))
  · refine prefix_of_prefix_append hpre fun c hc => hsolid ?_
    cases g with
    | nil =>
      rw [List.nil_append, hy, Option.mem_some] at hc
      exact hc ▸ (by decide)
    | cons d g =>
      obtain rfl : d = c := by simpa using hc
      exact hg d List.mem_cons_self

/-- A delimiter at the end of a text stands behind the place. -/
theorem AtBreak.suffix_iff (hg : ∀ c ∈ g, isBlank c) {s : Text} (hs : ∀ c ∈ s, isBlank c = false) :
    s <:+ x ++ (g ++ y) ↔ s <:+ y := by
  refine ⟨fun hsuf => ?_, fun hsuf => hsuf.trans ⟨x ++ g, by simp⟩⟩
  have hsolid {c : Char} (hc : isBlank c) : c ∉ s := fun hm => by simp [hs c hm] at hc
  have hafter (g : Text) (hg : ∀ c ∈ g, isBlank c) (hsuf : s <:+ g ++ y) : s <:+ y := by
    induction g with
    | nil => exact hsuf
    | cons c g ih =>
      refine ih (fun d hd => hg d (List.mem_cons_of_mem c hd)) ?_
      exact suffix_of_suffix_cons (x := []) hsuf (hsolid (hg c List.mem_cons_self))
  rcases h with hx | hy
  · obtain ⟨x, rfl⟩ := List.getLast?_eq_some_iff.1 hx
    rw [List.append_assoc] at hsuf
    exact hafter g hg (suffix_of_suffix_cons hsuf (hsolid (by decide)))
  · obtain ⟨y, rfl⟩ := List.head?_eq_some_iff.1 hy
    rw [← List.append_assoc] at hsuf
    exact (suffix_of_suffix_cons hsuf (hsolid (by decide))).trans (List.suffix_cons _ y)

end

def KeepsBreaks (f : Text → Text) : Prop :=
  ∀ x y, AtBreak x y → ∃ x' y', AtBreak x' y' ∧
    ∀ g, (∀ c ∈ g, isBlank c) → f (x ++ (g ++ y)) = x' ++ (g ++ y')

private theorem KeepsBreaks.id : KeepsBreaks fun t => t := fun x y h => ⟨x, y, h, fun _ _ => rfl⟩

private theorem KeepsBreaks.stripPrefix {f : Text → Text} (hf : KeepsBreaks f) {p : Text}
    (hp : ∀ c ∈ p, isBlank c = false) : KeepsBreaks fun t => (stripPrefix? p t).getD (f t) := by
  intro x y h
  have hiff {g : Text} (hg : ∀ c ∈ g, isBlank c) : p.isPrefixOf (x ++ (g ++ y)) ↔ p <+: x := by
    rw [List.isPrefixOf_iff_prefix, h.prefix_iff hg hp]
  by_cases hpre : p <+: x
  · obtain ⟨x', rfl⟩ := hpre
    refine ⟨x', y, ?_, fun g hg => ?_⟩
    · by_cases hne : x' = []
      · refine .inr (h.resolve_left fun hlast => ?_)
        rw [hne, List.append_nil] at hlast
        exact absurd (hp _ (List.mem_of_getLast? hlast)) (by decide)
      · exact h.of_end (List.suffix_append p x') hne
    · simp [stripPrefix?]
  · obtain ⟨x', y', h', hf⟩ := hf x y h
    refine ⟨x', y', h', fun g hg => ?_⟩
    dsimp only
    rw [stripPrefix?, if_neg (mt (hiff hg).1 hpre), Option.getD_none, hf g hg]

private theorem KeepsBreaks.stripSuffix {f : Text → Text} (hf : KeepsBreaks f) {s : Text}
    (hs : ∀ c ∈ s, isBlank c = false) :
    KeepsBreaks fun t => (stripSuffix? s (f t)).getD (f t) := by
  intro x y h
  obtain ⟨x, y, h, hf⟩ := hf x y h
  have hiff {g : Text} (hg : ∀ c ∈ g, isBlank c) : s.isSuffixOf (x ++ (g ++ y)) ↔ s <:+ y := by
    rw [List.isSuffixOf_iff_suffix, h.suffix_iff hg hs]
  by_cases hsuf : s <:+ y
  · obtain ⟨y', rfl⟩ := hsuf
    refine ⟨x, y', ?_, fun g hg => ?_⟩
    · by_cases hne : y' = []
      · refine .inl (h.resolve_right fun hhead => ?_)
        rw [hne, List.nil_append] at hhead
        exact absurd (hs _ (List.mem_of_mem_head? hhead)) (by decide)
      · exact h.of_front (List.prefix_append y' s) hne
    · have hlen : x ++ (g ++ (y' ++ s)) = x ++ (g ++ y') ++ s := by simp
      dsimp only
      rw [hf g hg, stripSuffix?, if_pos ((hiff hg).2 ⟨y', rfl⟩), Option.getD_some, hlen,
        List.length_append, Nat.add_sub_cancel, List.take_left]
  · refine ⟨x, y, h, fun g hg => ?_⟩
    dsimp only
    rw [hf g hg, stripSuffix?, if_neg (mt (hiff hg).1 hsuf), Option.getD_none]

private theorem keepsBreaks_bare : KeepsBreaks bare := by
  have hsolid : (docStart ++ blockOpen ++ blockClose).all fun c => !isBlank c := by decide
  simp only [List.all_append, Bool.and_eq_true, List.all_eq_true, Bool.not_eq_true'] at hsolid
  have hbare : bare = fun t =>
      let body := (stripPrefix? docStart t).getD ((stripPrefix? blockOpen t).getD t)
      (stripSuffix? blockClose body).getD body := by
    funext t
    rw [bare]
    cases stripPrefix? docStart t <;> rfl
  rw [hbare]
  exact ((KeepsBreaks.id.stripPrefix hsolid.1.2).stripPrefix hsolid.1.1).stripSuffix hsolid.2

/-- Blanks beside a line break make no difference to the contents of lines. -/
theorem map_lineContent_insert {x g y : Text} (hg : ∀ c ∈ g, isBlank c) (hn : '\n' ∉ g)
    (h : AtBreak x y) : (splitLines (x ++ (g ++ y))).map lineContent =
      (splitLines (x ++ y)).map lineContent := by
  have hfirst (t : Text) : (splitLines (g ++ t)).map lineContent =
      (splitLines t).map lineContent := by
    obtain ⟨l, ls, hl, hgl⟩ := splitLines_append_of_not_mem hn t
    rw [hl, hgl, List.map_cons, List.map_cons, lineContent_append_left hg]
  have hlast (t : Text) : (splitLines (t ++ g)).map lineContent =
      (splitLines t).map lineContent := by
    rcases last_line_cases t with ht | ⟨u, l, rfl, hl⟩
    · have hnl : '\n' ∉ t ++ g := by simp [ht, hn]
      rw [splitLines_of_not_mem ht, splitLines_of_not_mem hnl, List.map_singleton,
        List.map_singleton, lineContent_append_right hg]
    · have hnl : '\n' ∉ l ++ g := by simp [hl, hn]
      rw [List.append_assoc, List.cons_append, splitLines_append_newline, splitLines_append_newline,
        splitLines_of_not_mem hl, splitLines_of_not_mem hnl, List.map_append, List.map_append,
        List.map_singleton, List.map_singleton, lineContent_append_right hg]
  rcases h with hx | hy
  · obtain ⟨x, rfl⟩ := List.getLast?_eq_some_iff.1 hx
    simp only [List.append_assoc, List.singleton_append, splitLines_append_newline, List.map_append,
      hfirst]
  · obtain ⟨y, rfl⟩ := List.head?_eq_some_iff.1 hy
    rw [← List.append_assoc, splitLines_append_newline, splitLines_append_newline, List.map_append,
      List.map_append, hlast]

/-- Blanks beside a line break make no difference to a description. -/
theorem description_insert {x g y : Text} (hg : ∀ c ∈ g, isBlank c) (hn : '\n' ∉ g)
    (h : AtBreak x y) : description (x ++ (g ++ y)) = description (x ++ y) := by
  rw [description_eq, description_eq, inner_eq, inner_eq]
  by_cases hx : trimStart x = []
  · -- The text before the place is blank and goes away, and so do the blanks.
    have hx : ∀ c ∈ x, isBlank c := List.dropWhile_eq_nil_iff.1 hx
    rw [trim_append_left hx, trim_append_left hg, trim_append_left hx]
  · by_cases hy : trimEnd y = []
    · obtain ⟨b, hb, hblank⟩ := dropEndWhile_append isBlank y
      rw [← trimEnd, hy, List.nil_append] at hb
      subst hb
      have hgb : ∀ c ∈ g ++ y, isBlank c := fun c hc =>
        (List.mem_append.1 hc).elim (hg c) (hblank c)
      rw [trim_append_right hgb, trim_append_right hblank]
    · have hsame : trim (x ++ y) = trimStart x ++ trimEnd y := trim_append_append hx hy []
      have htrim : AtBreak (trimStart x) (trimEnd y) :=
        (h.of_end (List.dropWhile_suffix _) hx).of_front (isPrefix_trimEnd y) hy
      obtain ⟨x', y', h', hbare⟩ := keepsBreaks_bare _ _ htrim
      have hbare₀ : bare (trimStart x ++ trimEnd y) = x' ++ y' := hbare [] (by simp)
      rw [trim_append_append hx hy, hsame, hbare g hg, hbare₀, map_lineContent_insert hg hn h']

private theorem description_append_right {b : Text} (hb : ∀ c ∈ b, isBlank c) (comment : Text) :
    description (comment ++ b) = description comment := by
  rw [description_eq, description_eq, inner_eq, inner_eq, trim_append_right hb]

/-- A text with `sep` for every line feed. -/
def rebreak (sep t : Text) : Text := t.flatMap fun c => if c = '\n' then sep else [c]

section

variable {r w : Text} (hr : ∀ c ∈ r, isBlank c) (hrn : '\n' ∉ r) (hw : ∀ c ∈ w, isBlank c)
  (hwn : '\n' ∉ w)
include hr hrn hw hwn

/-- One line break may be written with blanks around it. -/
theorem description_break (x y : Text) :
    description (x ++ (r ++ '\n' :: w ++ y)) = description (x ++ '\n' :: y) := by
  have hafter : description ((x ++ (r ++ ['\n'])) ++ (w ++ y)) =
      description ((x ++ (r ++ ['\n'])) ++ y) := description_insert hw hwn (.inl (by simp))
  have hbefore : description (x ++ (r ++ '\n' :: y)) = description (x ++ '\n' :: y) :=
    description_insert hr hrn (.inr rfl)
  rw [← hbefore]
  simpa only [List.append_assoc, List.cons_append, List.nil_append] using hafter

/-- Every line break may be written with blanks around it. -/
theorem description_rebreak (x t : Text) :
    description (x ++ rebreak (r ++ '\n' :: w) t) = description (x ++ t) := by
  induction t generalizing x with
  | nil => rfl
  | cons c t ih =>
    rw [rebreak, List.flatMap_cons, ← rebreak]
    split
    · next hc =>
      rw [hc, ← List.append_assoc, ih, List.append_assoc, description_break hr hrn hw hwn]
    · rw [← List.append_assoc, ih, List.append_assoc, List.singleton_append]

private theorem description_respace (x t : Text) :
    description (x ++ Plan.respace (r ++ '\n' :: w) t) = description (x ++ t) := by
  induction t generalizing x with
  | nil => rfl
  | cons c t ih =>
    simp only [Plan.respace]
    split
    · next hc =>
      rw [hc, ← List.append_assoc, ih, List.append_assoc, description_break hr hrn hw hwn]
    · split
      · next hreturn =>
        obtain ⟨rfl, hhead⟩ := hreturn
        rw [ih, ← List.singleton_append,
          description_insert (by simp [isBlank]) (by simp) (.inr hhead)]
      · rw [List.append_cons, ih, ← List.append_cons]

end

/-- Laying out a comment at some place does not change what it describes. -/
theorem description_layOut (source : Text) (offset : Nat) (comment : Text) :
    description (Plan.layOut (Plan.newlineOf source) (Plan.indentAt source offset) comment) =
      description comment := by
  obtain ⟨-, hnewline⟩ := Plan.newlineOf_spec source
  have hnewline := fun c hc => Java.Lexeme.isBlank_of_isSpace (hnewline c hc)
  have hindent := Plan.isBlank_indentAt source offset
  have hblank : ∀ c ∈ Plan.newlineOf source ++ Plan.indentAt source offset, isBlank c := fun c hc =>
    (List.mem_append.1 hc).elim (hnewline c) (hindent c)
  by_cases hne : comment = []
  · subst hne
    exact description_append_right hblank []
  · have hlast : ∀ c ∈ Plan.lastBreak (Plan.newlineOf source ++ Plan.indentAt source offset) comment,
        isBlank c := by
      rw [Plan.lastBreak]
      split
      · simp
      · exact hblank
    obtain ⟨r, hr, hrn, hsep⟩ : ∃ r, (∀ c ∈ r, isBlank c) ∧ '\n' ∉ r ∧
        Plan.newlineOf source ++ Plan.indentAt source offset =
          r ++ '\n' :: Plan.indentAt source offset := by
      rcases Plan.newlineOf_cases source with h | h <;> rw [h]
      · exact ⟨[], by simp, by simp, rfl⟩
      · exact ⟨['\r'], by simp [isBlank], by simp, rfl⟩
    rw [Plan.layOut_eq _ _ hne, description_append_right hlast, hsep]
    exact description_respace hr hrn hindent (Plan.newline_not_mem_indentAt source offset) [] comment

/-- Trimming the lines of a comment does not change what it describes. -/
theorem description_trimmed {x : Text} (hx : x = [] ∨ x.getLast? = some '\n') {ls : List Text}
    (hl : ∀ l ∈ ls, '\n' ∉ l) :
    description (x ++ joinLines (ls.map trim)) = description (x ++ joinLines ls) := by
  induction ls generalizing x with
  | nil => rfl
  | cons l ls ih =>
    obtain ⟨a, b, hab, ha, hb⟩ := trim_spec l
    have hln := hl l List.mem_cons_self
    rw [hab] at hln
    simp only [List.mem_append, not_or] at hln
    have hbefore (y : Text) : description (x ++ (a ++ y)) = description (x ++ y) := by
      rcases hx with rfl | hx
      · rw [List.nil_append, List.nil_append, description_eq, description_eq, inner_eq, inner_eq,
          trim_append_left ha]
      · exact description_insert ha hln.1 (.inl hx)
    cases ls with
    | nil =>
      have hline (l : Text) : joinLines [l] = l := rfl
      rw [List.map_singleton, hline, hline]
      conv_rhs => rw [hab, hbefore, ← List.append_assoc, description_append_right hb]
    | cons m ms =>
      have ih := ih (x := x ++ (trim l ++ ['\n'])) (.inr (by simp)) fun k hk =>
        hl k (List.mem_cons_of_mem l hk)
      have hbehind := description_insert (x := x ++ trim l) (y := '\n' :: joinLines (m :: ms)) hb
        hln.2.2 (.inr rfl)
      rw [List.map_cons, List.map_cons, joinLines_cons_cons, joinLines_cons_cons, ← List.map_cons]
      simp only [List.append_assoc, List.cons_append, List.nil_append] at ih hbehind
      conv_rhs => rw [hab]
      rw [List.append_assoc, List.append_assoc, hbefore, hbehind, ih]

/-- Comments whose lines differ in the blanks around them describe the same. -/
theorem description_congr {t u : Text} (h : (splitLines t).map trim = (splitLines u).map trim) :
    description t = description u := by
  have htrim (t : Text) : description (joinLines ((splitLines t).map trim)) = description t := by
    have hl := description_trimmed (.inl rfl) fun l (hl : l ∈ splitLines t) =>
      not_mem_of_mem_splitLines hl
    rwa [List.nil_append, List.nil_append, joinLines_splitLines] at hl
  rw [← htrim t, h, htrim u]

end Javadoc.Comment
