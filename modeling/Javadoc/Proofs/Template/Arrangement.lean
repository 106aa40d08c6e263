import Javadoc.Proofs.Template.Markers
import Mathlib.Data.Bool.AllAny
import Mathlib.Data.List.Forall2

/-! Directives written into the lines of a template. However they are arranged, reading the template
gives each of them once, in order, with the argument up to blanks, so that whether a method meets the
template depends on the directives alone. -/
namespace Javadoc

namespace Text

theorem compact_append (t u : Text) : compact (t ++ u) = compact t ++ compact u := by
  simp [compact]

private theorem compact_of_blank {t : Text} (h : ∀ c ∈ t, isBlank c) : compact t = [] := by
  simpa [compact] using h

/-- Dropping blanks at the end changes nothing up to blanks. -/
theorem compact_dropEndWhile {p : Char → Bool} (hp : ∀ c, p c → isBlank c) (t : Text) :
    compact (dropEndWhile p t) = compact t := by
  obtain ⟨b, hb, hdropped⟩ := dropEndWhile_append p t
  conv_rhs => rw [hb, compact_append, compact_of_blank fun c hc => hp c (hdropped c hc)]
  exact (List.append_nil _).symm

end Text

open Text Comment Template

namespace Condition

private theorem tag_injective {c d : Condition} (h : c.tag = d.tag) : c = d := by
  cases c <;> cases d <;> first | rfl | cases h

private theorem at?_eq_none_iff {t : Text} :
    at? t = none ↔ ∀ c : Condition, ¬ c.tag.marker <+: t := by
  simp only [at?, List.find?_eq_none, List.isPrefixOf_iff_prefix]
  exact ⟨fun h c => h c (by cases c <;> decide), fun h c _ => h c⟩

private theorem at?_marker (c : Condition) (t : Text) : at? (c.tag.marker ++ t) = some c := by
  cases h : at? (c.tag.marker ++ t) with
  | none => exact absurd (List.prefix_append _ _) (at?_eq_none_iff.1 h c)
  | some d =>
    have hd : d.tag.marker <+: c.tag.marker ++ t := by
      simpa [List.isPrefixOf_iff_prefix] using List.find?_some h
    rcases List.prefix_or_prefix_of_prefix hd (List.prefix_append _ _) with h | h
    · rw [tag_injective (eq_of_prefix_marker h)]
    · rw [tag_injective (eq_of_prefix_marker h)]

end Condition

def isUnmarked (t : Text) : Bool := Condition.all.all fun c => !includes c.tag.marker t

private theorem isUnmarked_iff {t : Text} :
    isUnmarked t ↔ ∀ c : Condition, ¬ c.tag.marker <:+: t := by
  simp only [isUnmarked, List.all_eq_true, Bool.not_eq_true', includes_eq_false_iff]
  exact ⟨fun h c => h c (by cases c <;> decide), fun h c _ => h c⟩

namespace Directive

def write (d : Directive) : Text := d.condition.tag.marker ++ d.argument

/-- Whether the argument goes on to where it was written to end: it holds neither the marker of a
directive nor the delimiter that closes a comment. -/
def isPlain (d : Directive) : Bool :=
  isUnmarked d.argument && !includes blockClose d.argument

private theorem isPlain_iff {d : Directive} : d.isPlain ↔
    (∀ c : Condition, ¬ c.tag.marker <:+: d.argument) ∧ ¬ blockClose <:+: d.argument := by
  simp [isPlain, isUnmarked_iff, includes_eq_false_iff]

/-- The same condition, with the same argument up to blanks. -/
def Agrees (d e : Directive) : Prop :=
  d.condition = e.condition ∧ compact d.argument = compact e.argument

private theorem Agrees.accepts_eq {d e : Directive} (h : Agrees d e) (templateName : Text)
    (m : Method) :
    d.accepts templateName m = e.accepts templateName m := by
  simp only [accepts, h.1, h.2]

private theorem all_accepts_eq {ds es : List Directive} (h : List.Forall₂ Agrees ds es)
    (templateName : Text)
    (m : Method) :
    (ds.all fun d => d.accepts templateName m) = es.all fun d => d.accepts templateName m := by
  induction h with
  | nil => rfl
  | cons hd _ ih => rw [List.all_cons, List.all_cons, hd.accepts_eq, ih]

end Directive

namespace CustomBody

/-- What can stand behind the last directive of a line: blanks, and the delimiter that closes the
comment with other words behind it. -/
inductive IsTail : Text → Prop
  | blank {gap : Text} (blank : isBlankText gap) : IsTail gap
  | closed {gap rest : Text} (blank : isBlankText gap) (unmarked : isUnmarked rest)
      (unclosed : includes blockClose rest = false) : IsTail (gap ++ (blockClose ++ rest))

/-- A line that the given directives are written into: words alone, or one directive behind the
other with words before the first one. -/
inductive IsLineOf : List Directive → Text → Prop
  | words {line : Text} (unmarked : isUnmarked line) : IsLineOf [] line
  | directives {before tail : Text} {d : Directive} {ds : List Directive}
      (unmarked : isUnmarked before) (plain : (d :: ds).all Directive.isPlain) (ends : IsTail tail) :
      IsLineOf (d :: ds) (before ++ ((d :: ds).flatMap Directive.write ++ tail))

/-- A template that the given directives are written into, in order: they are cut into groups, one
for each line. -/
def IsArrangement (ds : List Directive) (template : Text) : Prop :=
  ∃ groups : List (List Directive), groups.flatten = ds ∧
    List.Forall₂ IsLineOf groups (splitLines template)

/-- Where no marker starts, the text before the first one goes on. -/
theorem splitAtMarkers_append {x y : Text}
    (h : ∀ u, u <:+ x → u ≠ [] → ∀ c : Condition, ¬ c.tag.marker <+: u ++ y) :
    splitAtMarkers (x ++ y) = (x ++ (splitAtMarkers y).1, (splitAtMarkers y).2) := by
  induction x with
  | nil => rfl
  | cons e x ih =>
    have hat : Condition.at? (e :: (x ++ y)) = none :=
      Condition.at?_eq_none_iff.2 (h _ (List.suffix_refl _) (by simp))
    rw [List.cons_append, splitAtMarkers, hat,
      ih fun u hu => h u (hu.trans (List.suffix_cons e x))]
    rfl

/-- A text without a marker is not cut, if what follows it does not go on with one. -/
theorem splitAtMarkers_unmarked {x y : Text} (hx : isUnmarked x)
    (hy : ∀ e ∈ y.head?, ∀ tag : Tag, e ∉ tag.name ++ ['>']) :
    splitAtMarkers (x ++ y) = (x ++ (splitAtMarkers y).1, (splitAtMarkers y).2) := by
  rw [isUnmarked_iff] at hx
  refine splitAtMarkers_append fun u hu hne c hpre => ?_
  rcases List.prefix_or_prefix_of_prefix hpre (List.prefix_append u y) with h | ⟨q, hq⟩
  · exact hx c (h.isInfix.trans hu.isInfix)
  · obtain ⟨d, u, rfl⟩ := List.exists_cons_of_ne_nil hne
    cases q with
    | nil => exact hx c ((List.IsPrefix.isInfix ⟨[], by simpa using hq.symm⟩).trans hu.isInfix)
    | cons e q =>
      rw [← hq, List.prefix_append_right_inj] at hpre
      have hhead : e ∈ y.head? := by
        obtain ⟨z, rfl⟩ := hpre
        simp
      rw [marker_eq, List.cons_append, List.cons.injEq] at hq
      exact hy e hhead c.tag (by rw [← hq.2]; simp)

private theorem splitAtMarkers_of_unmarked {x : Text} (hx : isUnmarked x) :
    splitAtMarkers x = (x, []) := by
  have h := splitAtMarkers_unmarked (y := []) hx (by simp)
  rwa [List.append_nil, splitAtMarkers, List.append_nil] at h

private theorem splitAtMarkers_marker (c : Condition) (y : Text) :
    splitAtMarkers (c.tag.marker ++ y) =
      ([], (c, (splitAtMarkers y).1) :: (splitAtMarkers y).2) := by
  have hat := Condition.at?_marker c y
  rw [marker_eq, List.cons_append] at hat ⊢
  have hname : splitAtMarkers (c.tag.name ++ ['>'] ++ y) =
      (c.tag.name ++ ['>'] ++ (splitAtMarkers y).1, (splitAtMarkers y).2) := by
    refine splitAtMarkers_append fun u hu hne d hpre => not_mem_name c.tag (hu.subset ?_)
    obtain ⟨e, u, rfl⟩ := List.exists_cons_of_ne_nil hne
    rw [marker_eq, List.cons_append, List.cons_prefix_cons] at hpre
    exact hpre.1 ▸ List.mem_cons_self
  have hlen : c.tag.marker.length - 1 = (c.tag.name ++ ['>']).length := by simp [marker_eq]
  rw [splitAtMarkers, hat, hname]
  simp only [hlen, List.drop_left]

/-- No marker holds a blank. -/
theorem isBlank_of_mem_marker {tag : Tag} : ∀ c ∈ tag.marker, isBlank c = false :=
  List.all_iff_forall_prop.1 (by cases tag <;> decide)

private theorem head?_write (d : Directive) (t : Text) : (d.write ++ t).head? = some '<' := by
  simp [Directive.write, marker_eq]

/-- Neither a directive nor a tail goes on with a marker. -/
theorem not_mem_name_of_head {d : Directive} {t : Text} :
    ∀ e ∈ (d.write ++ t).head?, ∀ tag : Tag, e ∉ tag.name ++ ['>'] := by
  intro e he tag
  rw [head?_write] at he
  cases he
  exact not_mem_name tag

section

variable {tail : Text} (h : IsTail tail)
include h

private theorem IsTail.unmarked : isUnmarked tail := by
  refine isUnmarked_iff.2 fun c hin => ?_
  have hblank {gap : Text} (hg : isBlankText gap) : ∀ e ∈ gap, e ∉ c.tag.marker :=
    fun e he hm => absurd (List.all_eq_true.1 hg e he) (by simp [isBlank_of_mem_marker e hm])
  cases h with
  | blank hg =>
    have hnil := infix_of_append_left (x := []) (marker_ne_nil _) (hblank hg) (by simpa using hin)
    exact marker_ne_nil c.tag (List.infix_nil.1 hnil)
  | closed hg hrest _ =>
    have hclose : ∀ e ∈ blockClose, e ∉ c.tag.marker :=
      List.all_iff_forall_prop.1 (by cases c <;> decide)
    have hin := infix_of_append_left (marker_ne_nil _) (hblank hg) hin
    exact isUnmarked_iff.1 hrest c (infix_of_append_left (marker_ne_nil _) hclose hin)

/-- A tail does not go on with a marker. -/
theorem IsTail.head : ∀ e ∈ tail.head?, ∀ tag : Tag, e ∉ tag.name ++ ['>'] := by
  intro e he tag hm
  have hm : e ∈ tag.marker := List.mem_cons_of_mem _ hm
  have hsolid := isBlank_of_mem_marker e hm
  cases h with
  | blank hg => simp [List.all_eq_true.1 hg e (List.mem_of_mem_head? he)] at hsolid
  | @closed gap rest hg _ _ =>
    cases gap with
    | nil =>
      obtain rfl : '*' = e := by simpa [blockClose] using he
      exact (not_mem_marker tag).2.1 hm
    | cons d gap =>
      obtain rfl : d = e := by simpa using he
      simp [List.all_eq_true.1 hg d List.mem_cons_self] at hsolid

end

private theorem isBlank_of_return : ∀ c : Char, (c == '\r') = true → isBlank c := by
  intro c hc
  rw [beq_iff_eq.1 hc]
  decide

/-- The argument before a tail is read up to the closing delimiter. -/
theorem directivesOf_tail {d : Directive} (hd : d.isPlain) {tail : Text} (h : IsTail tail) :
    List.Forall₂ Directive.Agrees (directivesOf false [(d.condition, d.argument ++ tail)]) [d] := by
  have hclose := (Directive.isPlain_iff.1 hd).2
  have hread {gap : Text} (hg : isBlankText gap) :
      compact (dropEndWhile (· == '\r') (d.argument ++ gap)) = compact d.argument := by
    rw [compact_dropEndWhile isBlank_of_return, compact_append,
      compact_of_blank (List.all_eq_true.1 hg), List.append_nil]
  refine List.Forall₂.cons ⟨rfl, ?_⟩ .nil
  cases h with
  | blank hg =>
    have hno : ¬ blockClose <:+: d.argument ++ tail := by
      refine fun hin => hclose (infix_of_append_right (by decide) (fun c hc hm => ?_) hin)
      have hblank := List.all_eq_true.1 hg c hc
      rcases (by simpa [blockClose] using hm : c = '*' ∨ c = '/') with rfl | rfl
      · exact absurd hblank (by decide)
      · exact absurd hblank (by decide)
    rw [breakOnLast?_eq_none_iff.2 hno]
    exact hread hg
  | @closed gap rest hg _ hrest =>
    have hself : breakOnLast? blockClose (blockClose ++ rest) = some ([], rest) := by
      have hno : breakOnLast? blockClose ('/' :: rest) = none := by
        refine breakOnLast?_eq_none_iff.2 fun hin => ?_
        rcases List.infix_cons_iff.1 hin with hpre | hin
        · exact absurd (List.cons_prefix_cons.1 hpre).1 (by decide)
        · exact includes_eq_false_iff.1 hrest hin
      change breakOnLast? blockClose ('*' :: '/' :: rest) = _
      rw [breakOnLast?, hno]
      rfl
    have hlast := (breakOnLast?_append_iff (d.argument ++ gap) _).2 hself
    rw [List.append_nil, List.append_assoc] at hlast
    rw [hlast]
    exact hread hg

/-- Directives one behind the other are read back, one for one. -/
theorem directivesOf_write {d : Directive} {ds : List Directive} {tail : Text}
    (hplain : (d :: ds).all Directive.isPlain) (ht : IsTail tail) :
    (splitAtMarkers ((d :: ds).flatMap Directive.write ++ tail)).1 = [] ∧
      List.Forall₂ Directive.Agrees
        (directivesOf false (splitAtMarkers ((d :: ds).flatMap Directive.write ++ tail)).2)
        (d :: ds) := by
  induction ds generalizing d with
  | nil =>
    have hd : d.isPlain := by simpa using hplain
    have hunmarked := isUnmarked_iff.2 (Directive.isPlain_iff.1 hd).1
    have hsplit : splitAtMarkers ([d].flatMap Directive.write ++ tail) =
        ([], [(d.condition, d.argument ++ tail)]) := by
      rw [List.flatMap_singleton, Directive.write, List.append_assoc, splitAtMarkers_marker,
        splitAtMarkers_unmarked hunmarked ht.head, splitAtMarkers_of_unmarked ht.unmarked]
    rw [hsplit]
    exact ⟨rfl, directivesOf_tail hd ht⟩
  | cons e ds ih =>
    rw [List.all_cons, Bool.and_eq_true] at hplain
    obtain ⟨hd, hplain⟩ := hplain
    obtain ⟨hunmarked, hclose⟩ := Directive.isPlain_iff.1 hd
    obtain ⟨hfront, hrest⟩ := ih hplain
    generalize hr : (e :: ds).flatMap Directive.write ++ tail = rest at hfront hrest
    have hhead : ∀ x ∈ rest.head?, ∀ tag : Tag, x ∉ tag.name ++ ['>'] := by
      rw [← hr, List.flatMap_cons, List.append_assoc]
      exact not_mem_name_of_head
    have hsplit : splitAtMarkers ((d :: e :: ds).flatMap Directive.write ++ tail) =
        ([], (d.condition, d.argument) :: (splitAtMarkers rest).2) := by
      rw [List.flatMap_cons, Directive.write, List.append_assoc, List.append_assoc, hr,
        splitAtMarkers_marker, splitAtMarkers_unmarked (isUnmarked_iff.2 hunmarked) hhead, hfront,
        List.append_nil]
    rw [hsplit]
    refine ⟨rfl, ?_⟩
    cases hlater : (splitAtMarkers rest).2 with
    | nil =>
      rw [hlater] at hrest
      cases hrest
    | cons next later =>
      rw [directivesOf, includes_eq_false_iff.2 hclose, Bool.or_false, ← hlater]
      exact .cons ⟨rfl, compact_dropEndWhile isBlank_of_return _⟩ hrest

private theorem directivesOf_line {ds : List Directive} {line : Text} (h : IsLineOf ds line) :
    List.Forall₂ Directive.Agrees (directivesOf false (splitAtMarkers line).2) ds := by
  cases h with
  | words unmarked =>
    rw [splitAtMarkers_of_unmarked unmarked]
    exact .nil
  | @directives before tail d ds unmarked plain ends =>
    have hhead : ∀ x ∈ ((d :: ds).flatMap Directive.write ++ tail).head?, ∀ tag : Tag,
        x ∉ tag.name ++ ['>'] := by
      rw [List.flatMap_cons, List.append_assoc]
      exact not_mem_name_of_head
    rw [splitAtMarkers_unmarked unmarked hhead]
    exact (directivesOf_write plain ends).2

/-- Reading a template gives the directives that were written into it, one for one and in order, with
their arguments up to blanks. A method meets the template exactly if it meets each of them, however
they are arranged. -/
theorem ofTemplate_arrangement {ds : List Directive} {template : Text}
    (h : IsArrangement ds template) :
    List.Forall₂ Directive.Agrees (ofTemplate template).directives ds ∧
      ∀ (templateName : Text) (m : Method), (ofTemplate template).accepts templateName m =
        ds.all fun d => d.accepts templateName m := by
  have hread : List.Forall₂ Directive.Agrees (ofTemplate template).directives ds := by
    obtain ⟨groups, rfl, hlines⟩ := h
    rw [ofTemplate]
    generalize splitLines template = lines at hlines
    induction hlines with
    | nil => exact .nil
    | cons hline _ ih => exact List.rel_append (directivesOf_line hline) ih
  exact ⟨hread, Directive.all_accepts_eq hread⟩

/-- Two directives on a line that ends with a carriage return, the first of them with the start of a
marker at its end, and one on the line that closes the comment. -/
theorem ofTemplate_arrangement_lines :
    let ds : List Directive := [⟨.hasParams, " K, Map<".toList⟩, ⟨.nameContains, " find ".toList⟩,
      ⟨.returnTypeIs, " List <K>".toList⟩]
    let template := "/**\n * Finds <hasP> K, Map<<nameContains> find \r\n * by <params>\n".toList ++
      "<returnTypeIs> List <K> */ int f;".toList
    let m : Method := ⟨"findAll".toList, false, [⟨"by".toList, "Map<K, V>".toList⟩],
      some "List<K>".toList, none, none, .nothing, 0⟩
    IsArrangement ds template ∧
      List.Forall₂ Directive.Agrees (ofTemplate template).directives ds ∧
      (ofTemplate template).accepts [] m = true := by
  intro ds template m
  have hlines : splitLines template = ["/**".toList,
      " * Finds ".toList ++ ((ds.take 2).flatMap Directive.write ++ "\r".toList),
      " * by <params>".toList,
      [] ++ ((ds.drop 2).flatMap Directive.write ++
        (" ".toList ++ (blockClose ++ " int f;".toList)))] := by decide +kernel
  have h : IsArrangement ds template := by
    refine ⟨[[], ds.take 2, [], ds.drop 2], rfl, ?_⟩
    rw [hlines]
    refine .cons (.words (by decide)) (.cons ?_ (.cons (.words (by decide)) (.cons ?_ .nil)))
    · exact .directives (by decide) (by decide) (.blank (by decide))
    · exact .directives (by decide) (by decide) (.closed (by decide) (by decide) (by decide))
  obtain ⟨hread, haccepts⟩ := ofTemplate_arrangement h
  exact ⟨h, hread, (haccepts [] m).trans (by decide +kernel)⟩

end CustomBody
end Javadoc
