import Javadoc.Proofs.Text.Seam
import Javadoc.Proofs.TypeExpr.Spelling

/-! Primitive return types. A primitive type is never linked as long as only blanks stand between
its keyword and the first bracket: an annotation or a comment there is read as part of its name. -/
namespace Javadoc

namespace TypeExpr
open Text

/-- A pair of brackets with what stands before it: blanks, or annotations and comments. What these
hold, and what the comments between the brackets hold, is left open. -/
structure Dimension where
  gap : Text
  inside : Text
  starts : ∀ c ∈ (trimStart gap).head?, c = '@' ∨ c = '/'

def Dimension.written (d : Dimension) : Text := d.gap ++ '[' :: (d.inside ++ [']'])

def arrayType (keyword : Text) (dims : List Dimension) : Text :=
  keyword ++ dims.flatMap Dimension.written

/-- Whether nothing but blanks stands between a keyword and the first bracket. -/
def isBare : List Dimension → Bool
  | [] => true
  | d :: _ => isBlankText d.gap

/-- The start of a link. -/
def linkTag : Text := "\x7b@link".toList

private theorem isName_of_primitive {keyword : Text} (h : keyword ∈ primitives) :
    IsName keyword := by
  revert keyword
  decide

private theorem not_mem_primitive {keyword : Text} (h : keyword ∈ primitives) :
    ∀ c ∈ ['@', '/', '<', '\x7b', '?'], c ∉ keyword := by
  have hall : ∀ keyword ∈ primitives,
      ['@', '/', '<', '\x7b', '?'].all fun c => decide (c ∉ keyword) := by decide
  intro c hc
  exact of_decide_eq_true (List.all_eq_true.1 (hall keyword h) c hc)

private theorem head?_not_mem_marker {keyword : Text} (h : keyword ∈ primitives) :
    ∀ c ∈ keyword.head?, c ∉ Tag.returnType.marker := by
  have hall : ∀ keyword ∈ primitives,
      keyword.head?.all fun c => decide (c ∉ Tag.returnType.marker) := by decide
  intro c hc
  have hhead := hall keyword h
  rw [Option.mem_def.1 hc] at hhead
  exact of_decide_eq_true hhead

/-- No keyword goes on with the end of the start of a link. -/
theorem linkTag_apart {keyword : Text} (h : keyword ∈ primitives) (x z : Text) :
    Apart linkTag x (keyword ++ z) := by
  have hends : ∀ keyword ∈ primitives, ∀ q ∈ linkTag.tails, q ≠ [] →
      ¬ q <+: keyword ∧ (q ≠ linkTag → ¬ keyword <+: q) := by decide
  rintro p q hpq hp hq - hpre
  have hq' : q ≠ linkTag := by
    rintro rfl
    exact hp (List.self_eq_append_left.1 hpq)
  have htail : q ∈ linkTag.tails := (List.mem_tails _ _).2 ⟨p, hpq.symm⟩
  obtain ⟨hno, hno'⟩ := hends keyword h q htail hq
  rcases List.prefix_or_prefix_of_prefix hpre (List.prefix_append keyword z) with hpre | hpre
  · exact hno hpre
  · exact hno' hq' hpre

section ArrayType

variable {keyword : Text} {dims : List Dimension}

private theorem trimStart_arrayType (hk : keyword ∈ primitives) :
    trimStart (arrayType keyword dims) = arrayType keyword dims := by
  obtain ⟨c, cs, rfl, hc⟩ := (isName_of_primitive hk).head?_not_blank
  simp [arrayType, trimStart, hc]

/-- What stands behind the brackets of a type ends it. -/
theorem arrayType_eq_append (keyword : Text) (hne : dims ≠ []) :
    ∃ z, arrayType keyword dims = keyword ++ (z ++ [']']) := by
  rcases List.eq_nil_or_concat dims with rfl | ⟨ds, d, rfl⟩
  · exact absurd rfl hne
  · exact ⟨ds.flatMap Dimension.written ++ (d.gap ++ '[' :: d.inside), by
      simp [arrayType, Dimension.written]⟩

private theorem trim_arrayType (hk : keyword ∈ primitives) :
    trim (arrayType keyword dims) = arrayType keyword dims := by
  by_cases hne : dims = []
  · subst hne
    simpa [arrayType] using (isName_of_primitive hk).trimmed
  · obtain ⟨z, hz⟩ := arrayType_eq_append keyword hne
    obtain ⟨c, cs, rfl, hc⟩ := (isName_of_primitive hk).head?_not_blank
    have hfirst : trimStart (c :: cs) = c :: cs := by simp [trimStart, hc]
    rw [hz, trim_append_append (by simp [hfirst]) (by decide), hfirst]
    rfl

/-- A bare keyword is the name of its type. -/
theorem readName_of_bare (hk : keyword ∈ primitives) (h : isBare dims) :
    (readName (arrayType keyword dims)).1 = keyword ∧
      eat? '<' (readName (arrayType keyword dims)).2 = none := by
  have hname := isName_of_primitive hk
  cases dims with
  | nil =>
    have hread := readName_append (a := []) (b := []) (u := []) hname rfl rfl (by simp)
    simp only [List.nil_append, List.append_nil] at hread
    simp [arrayType, hread, eat?, trimStart]
  | cons d ds =>
    have hread := readName_append (a := []) (u := '[' :: (d.inside ++ [']']) ++
      ds.flatMap Dimension.written) hname rfl h (by rintro c ⟨⟩; rfl)
    have htype : arrayType keyword (d :: ds) = [] ++ (keyword ++ (d.gap ++
        ('[' :: (d.inside ++ [']']) ++ ds.flatMap Dimension.written))) := by
      simp [arrayType, Dimension.written]
    rw [htype, hread]
    refine ⟨rfl, ?_⟩
    simp [eat?, trimStart, isBlank]

private theorem mem_trim {c : Char} (hc : isBlank c = false) {t : Text} (h : c ∈ t) :
    c ∈ trim t := by
  obtain ⟨a, b, ht, ha, hb⟩ := trim_spec t
  rw [ht] at h
  simp only [List.mem_append] at h
  rcases h with h | h | h
  · simp [ha c h] at hc
  · exact h
  · simp [hb c h] at hc

/-- What stands before the brackets and is not blank starts with a symbol behind some blanks. -/
theorem Dimension.exists_symbol (d : Dimension) (h : isBlankText d.gap = false) :
    ∃ b c u, d.gap = b ++ c :: u ∧ (∀ e ∈ b, isBlank e) ∧ (c = '@' ∨ c = '/') := by
  have hsplit := List.takeWhile_append_dropWhile (p := isBlank) (l := d.gap)
  cases hstart : trimStart d.gap with
  | nil =>
    have hblank : isBlankText d.gap := isBlankText_iff.2 (List.dropWhile_eq_nil_iff.1 hstart)
    simp [h] at hblank
  | cons c u =>
    rw [← trimStart, hstart] at hsplit
    exact ⟨_, c, u, hsplit.symm, List.all_eq_true.1 List.all_takeWhile,
      d.starts c (by rw [hstart]; rfl)⟩

/-- Behind a keyword that is not bare, an annotation or a comment becomes part of the name. -/
theorem isLinked_readName (hk : keyword ∈ primitives) (h : isBare dims = false) :
    isLinked (readName (arrayType keyword dims)).1 := by
  have hname := isName_of_primitive hk
  cases dims with
  | nil => cases h
  | cons d ds =>
    obtain ⟨b, c, u, hgap, hb, hsymbol⟩ := d.exists_symbol h
    have hc : isBlank c = false ∧ isDelimiter c = false := by
      rcases hsymbol with rfl | rfl <;> exact ⟨rfl, rfl⟩
    have hplain : ∀ e ∈ keyword ++ (b ++ [c]), (!isDelimiter e) = true := by
      intro e he
      rw [Bool.not_eq_true']
      simp only [List.mem_append, List.mem_singleton] at he
      rcases he with he | he | rfl
      · exact hname.isDelimiter_eq_false he
      · have hblank := hb e he
        exact Bool.eq_false_iff.2 fun hd => by simp [not_isBlank_of_isDelimiter hd] at hblank
      · exact hc.2
    have htype : arrayType keyword (d :: ds) = (keyword ++ (b ++ [c])) ++
        (u ++ ('[' :: (d.inside ++ [']']) ++ ds.flatMap Dimension.written)) := by
      simp [arrayType, Dimension.written, hgap]
    have hmem : c ∈ (readName (arrayType keyword (d :: ds))).1 := by
      refine mem_trim hc.1 ?_
      rw [trimStart_arrayType hk, htype, List.takeWhile_append_of_pos hplain]
      simp
    have hhead : (readName (arrayType keyword (d :: ds))).1.head? = keyword.head? := by
      rw [head?_readName _ (List.ne_nil_of_mem hmem), trimStart_arrayType hk]
      obtain ⟨k, ks, rfl, -⟩ := hname.head?_not_blank
      rfl
    have hno : (readName (arrayType keyword (d :: ds))).1 ∉ primitives := fun hp =>
      not_mem_primitive hp c (by rcases hsymbol with rfl | rfl <;> decide) hmem
    have hwildcard : keyword.head? ≠ some '?' := fun hq =>
      not_mem_primitive hk '?' (by decide) (List.mem_of_mem_head? hq)
    simp [isLinked, hno, hhead, hwildcard]

private theorem spaced_dims (h : ∀ d ∈ dims, isBlankText d.gap ∧ isBlankText d.inside) :
    Spaced (dimTokens dims.length) (dims.flatMap Dimension.written) := by
  induction dims with
  | nil => exact .blank rfl
  | cons d ds ih =>
    obtain ⟨⟨hgap, hinside⟩, hds⟩ := List.forall_mem_cons.1 h
    have hboth := Spaced.token (s := ['[']) hgap (.token (s := [']']) hinside (ih hds))
    simpa [Dimension.written, dimTokens] using hboth

/-- With blanks alone around its brackets a primitive type is spelled as it should be. -/
theorem spells_arrayType (hk : keyword ∈ primitives)
    (h : ∀ d ∈ dims, isBlankText d.gap ∧ isBlankText d.inside) :
    Spells (mk keyword [] dims.length) (arrayType keyword dims) := by
  refine ⟨isNamed_mk.2 ⟨isName_of_primitive hk, by simp⟩, ?_⟩
  simpa [tokens, argTokens, arrayType] using Spaced.token (b := []) rfl (spaced_dims h)

end ArrayType

section Render

theorem renderEach_eq_map (linked : Bool) (es : List TypeExpr) :
    renderEach linked es = es.map (render linked) := by
  induction es with
  | nil => rfl
  | cons e es ih => rw [renderEach, ih, List.map_cons]

theorem mem_joinWith {c : Char} {sep : Text} {ts : List Text} (h : c ∈ joinWith sep ts) :
    c ∈ sep ∨ ∃ t ∈ ts, c ∈ t := by
  induction ts with
  | nil => cases h
  | cons t ts ih =>
    cases ts with
    | nil => exact .inr ⟨t, by simp, h⟩
    | cons u us =>
      rw [joinWith, List.append_assoc] at h
      simp only [List.mem_append] at h
      rcases h with h | h | h
      · exact .inr ⟨t, by simp, h⟩
      · exact .inl h
      · obtain h | ⟨v, hv, hc⟩ := ih h
        · exact .inl h
        · exact .inr ⟨v, List.mem_cons_of_mem t hv, hc⟩

theorem mem_writeDims {c : Char} {n : Nat} (h : c ∈ writeDims n) : c = '[' ∨ c = ']' := by
  induction n with
  | zero => cases h
  | succ n ih =>
    simp only [writeDims, List.mem_cons] at h
    rcases h with h | h | h
    · exact .inl h
    · exact .inr h
    · exact ih h

/-- An angle bracket comes into a type in words by its names alone. -/
theorem not_mem_render (linked : Bool) (e : TypeExpr) (h : e.IsNamed) : '<' ∉ e.render linked := by
  induction e using args_induction with
  | step name args dims ih =>
    obtain ⟨hname, hargs⟩ := isNamed_mk.1 h
    have hplain : '<' ∉ name := hname.undelimited '<' (by decide)
    have hopen : '<' ∉ "\x7b@link ".toList := by decide
    have hlink : '<' ∉ link name :=
      List.not_mem_append (List.not_mem_append hopen hplain) (by decide)
    have hdims : '<' ∉ writeDims dims := fun hm => by rcases mem_writeDims hm with h | h <;> cases h
    have hof : '<' ∉ " of ".toList := by decide
    have hand : '<' ∉ " and ".toList := by decide
    have heach : '<' ∉ joinWith " and ".toList (renderEach linked args) := fun hm => by
      rcases mem_joinWith hm with hm | ⟨t, ht, hm⟩
      · exact hand hm
      · rw [renderEach_eq_map] at ht
        obtain ⟨a, ha, rfl⟩ := List.mem_map.1 ht
        exact ih a ha (hargs a ha) hm
    have hshown : '<' ∉ (if linked && isLinked name then link name else name) := by
      split
      · exact hlink
      · exact hplain
    have hfront := List.not_mem_append hshown hdims
    rw [render]
    split
    · exact hfront
    · exact List.not_mem_append (List.not_mem_append hfront hof) heach

private theorem linkTag_infix_render {name : Text} (h : isLinked name) (args : List TypeExpr)
    (dims : Nat) :
    linkTag <:+: render true (mk name args dims) ∧
      (render true (mk name args dims)).head? = some '\x7b' := by
  have hspace : "\x7b@link ".toList = linkTag ++ [' '] := by decide
  have hlink : link name = linkTag ++ (' ' :: (name ++ ['\x7d'])) := by
    refine (congrArg (fun opening => opening ++ name ++ ['\x7d']) hspace).trans ?_
    simp only [List.append_assoc, List.cons_append, List.nil_append]
  have hfront (z : Text) : linkTag <:+: link name ++ z ∧ (link name ++ z).head? = some '\x7b' := by
    rw [hlink]
    exact ⟨⟨[], ' ' :: (name ++ ['\x7d']) ++ z, by simp⟩, rfl⟩
  rw [render]
  simp only [h, Bool.and_self, if_true]
  split
  · exact hfront _
  · simp only [List.append_assoc]
    exact hfront _

private theorem render_primitive {keyword : Text} (hk : keyword ∈ primitives) (dims : Nat) :
    render true (mk keyword [] dims) = keyword ++ writeDims dims := by
  rw [render]
  simp [isLinked, hk]

/-- A type that reads as a type expression is linked exactly when its keyword is not bare. -/
theorem render_arrayType {keyword : Text} {dims : List Dimension} (hk : keyword ∈ primitives)
    {e : TypeExpr} (h : Spells e (arrayType keyword dims)) :
    (linkTag <:+: e.render true ↔ isBare dims = false) ∧
      ∃ c u, e.render true = c :: u ∧ c ∉ Tag.returnType.marker := by
  obtain ⟨r, hread, -⟩ := read_of_ofText? (ofText?_of_spells h)
  obtain ⟨args, n, behind, rfl, -, -, hbehind⟩ := read_cases hread
  cases hbare : isBare dims with
  | false =>
    obtain ⟨hin, hhead⟩ := linkTag_infix_render (isLinked_readName hk hbare) args n
    obtain ⟨u, hu⟩ := List.head?_eq_some_iff.1 hhead
    exact ⟨by simpa using hin, _, u, hu, by decide⟩
  | true =>
    obtain ⟨hname, hplain⟩ := readName_of_bare hk hbare
    have hargs : args = [] := by
      rcases hbehind with ⟨-, hargs, -⟩ | ⟨inside, hopen, -⟩
      · exact hargs
      · simp [hplain] at hopen
    rw [hargs, hname, render_primitive hk]
    have hbrace : '\x7b' ∉ keyword ++ writeDims n := List.not_mem_append
      (not_mem_primitive hk _ (by decide)) fun hm => by
        rcases mem_writeDims hm with h | h <;> cases h
    refine ⟨⟨fun hin => absurd (hin.subset (by decide)) hbrace, nofun⟩, ?_⟩
    obtain ⟨c, cs, rfl, -⟩ := (isName_of_primitive hk).head?_not_blank
    exact ⟨c, cs ++ writeDims n, rfl, head?_not_mem_marker hk c rfl⟩

end Render

end TypeExpr

namespace Template
open Text TypeExpr

theorem describeType_of_spells {e : TypeExpr} {type : Text} (h : Spells e type) (linked : Bool) :
    describeType linked type = e.render linked := by
  rw [describeType, ofText?_of_spells h]

theorem describeType_of_not_spells {type : Text} (h : ∀ e, ¬ Spells e type) (linked : Bool) :
    describeType linked type = trim type := by
  have hnone : ofText? type = none :=
    Option.eq_none_iff_forall_ne_some.2 fun e he => h e (spells_of_ofText? he)
  rw [describeType, hnone]

def linkedValue (type : Text) : Text :=
  enter .returnType (describeType false type) (describeType true type)

/-- Each link to the return type is filled in on its own when what is entered there meets no tag. -/
theorem enterReturnType_append {type : Text} {c : Char} {u : Text}
    (hu : describeType true type = c :: u) (hc : c ∉ Tag.returnType.marker)
    (hseam : ∀ z, Apart Tag.returnType.marker (describeType true type) z) (before after : Text) :
    enterReturnType type (before ++ (linkedReturnType ++ after)) =
      enterReturnType type before ++ (linkedValue type ++ enterReturnType type after) := by
  have hlink : linkedReturnType ≠ [] := by decide
  have hmarker : Tag.returnType.marker ≠ [] := by decide
  have hfirst : Apart linkedReturnType before (linkedReturnType ++ after) :=
    apart_of_head (by rintro d ⟨⟩; decide)
  have hfront (x z : Text) : Apart Tag.returnType.marker x (describeType true type ++ z) :=
    apart_of_head fun d hd hm => by
      rw [hu] at hd
      obtain rfl := Option.some.inj hd
      exact hc (List.mem_of_mem_tail hm)
  simp only [enterReturnType, enter, linkedValue]
  rw [hfirst.replaceAll_append hlink, Text.replaceAll_append _ _ _ hlink,
    (hfront _ _).replaceAll_append hmarker, (hseam _).replaceAll_append hmarker]

section Primitive

variable {keyword : Text} (hk : keyword ∈ primitives) {dims : List Dimension}

include hk

/-- A type that is no type expression stands for itself; tags in it do not change whether it holds a
link. -/
theorem linkTag_infix_enter_iff (hne : dims ≠ []) (t : Text) :
    linkTag <:+: enter .returnType (arrayType keyword dims) t ↔
      linkTag <:+: t ∨ Tag.returnType.marker <:+: t ∧ linkTag <:+: arrayType keyword dims := by
  obtain ⟨z, hz⟩ := arrayType_eq_append keyword hne
  refine infix_replaceAll_iff (by decide) (by rintro c ⟨⟩; decide) (by rintro c ⟨⟩; decide)
    (by decide) (fun x y => ?_) (fun y => apart_of_getLast fun c hc => ?_) t
  · rw [arrayType, List.append_assoc]
    exact linkTag_apart hk x _
  · have hlast : (arrayType keyword dims).getLast? = some ']' := by simp [hz]
    rw [hlast] at hc
    obtain rfl := Option.some.inj hc
    decide

private theorem linkedValue_of_spells {e : TypeExpr} (h : Spells e (arrayType keyword dims)) :
    linkedValue (arrayType keyword dims) = e.render true ∧
      ∀ before after, enterReturnType (arrayType keyword dims)
          (before ++ (linkedReturnType ++ after)) =
        enterReturnType (arrayType keyword dims) before ++
          (linkedValue (arrayType keyword dims) ++
            enterReturnType (arrayType keyword dims) after) := by
  obtain ⟨-, c, u, hu, hc⟩ := render_arrayType hk h
  have hopen : '<' ∉ e.render true := not_mem_render true e h.1
  have hshown := describeType_of_spells h true
  refine ⟨?_, enterReturnType_append (hshown.trans hu) hc fun z => ?_⟩
  · rw [linkedValue, hshown, enter]
    exact replaceAll_eq_self (by decide) fun hin => hopen (hin.subset (by decide))
  · rw [hshown]
    exact apart_of_not_mem hopen

private theorem linkedValue_of_not_spells (h : ¬ ∃ e, Spells e (arrayType keyword dims)) :
    (linkTag <:+: linkedValue (arrayType keyword dims) ↔ linkTag <:+: arrayType keyword dims) ∧
      ∀ before after, enterReturnType (arrayType keyword dims)
          (before ++ (linkedReturnType ++ after)) =
        enterReturnType (arrayType keyword dims) before ++
          (linkedValue (arrayType keyword dims) ++
            enterReturnType (arrayType keyword dims) after) := by
  have hne : dims ≠ [] := by
    rintro rfl
    exact h ⟨_, spells_arrayType hk (by simp)⟩
  have hshown (linked : Bool) : describeType linked (arrayType keyword dims) =
      arrayType keyword dims :=
    (describeType_of_not_spells (not_exists.1 h) linked).trans (trim_arrayType hk)
  obtain ⟨z, hz⟩ := arrayType_eq_append keyword hne
  obtain ⟨c, cs, hcs, -⟩ := (isName_of_primitive hk).head?_not_blank
  have hc : c ∉ Tag.returnType.marker := head?_not_mem_marker hk c (by rw [hcs]; rfl)
  have hfirst : describeType true (arrayType keyword dims) =
      c :: (cs ++ dims.flatMap Dimension.written) := by
    rw [hshown, arrayType, hcs, List.cons_append]
  refine ⟨?_, enterReturnType_append hfirst hc fun y => apart_of_getLast fun d hd => ?_⟩
  · rw [linkedValue, hshown, hshown, linkTag_infix_enter_iff hk hne]
    exact ⟨fun h => h.elim id And.right, .inl⟩
  · have hlast : (arrayType keyword dims).getLast? = some ']' := by simp [hz]
    rw [hshown, hlast] at hd
    obtain rfl := Option.some.inj hd
    decide

end Primitive

/-- Whatever the template, a link to a primitive return type is filled in with a link only if an
annotation or a comment stands between the keyword and the first bracket and the whole still reads
as a type expression, or if it does not and an annotation or a comment itself spells a link. With
blanks alone around the brackets, keyword and brackets are written out. -/
theorem enterReturnType_primitive {keyword : Text} (hk : keyword ∈ primitives)
    (dims : List Dimension) :
    (∀ before after, enterReturnType (arrayType keyword dims)
        (before ++ (linkedReturnType ++ after)) =
      enterReturnType (arrayType keyword dims) before ++
        (linkedValue (arrayType keyword dims) ++ enterReturnType (arrayType keyword dims) after)) ∧
    (linkTag <:+: linkedValue (arrayType keyword dims) ↔
      (isBare dims = false ∧ ∃ e, Spells e (arrayType keyword dims)) ∨
        (¬ ∃ e, Spells e (arrayType keyword dims)) ∧ linkTag <:+: arrayType keyword dims) ∧
    ((∀ d ∈ dims, isBlankText d.gap ∧ isBlankText d.inside) →
      linkedValue (arrayType keyword dims) = keyword ++ writeDims dims.length) := by
  by_cases hspells : ∃ e, Spells e (arrayType keyword dims)
  · obtain ⟨e, he⟩ := hspells
    obtain ⟨hvalue, hfilled⟩ := linkedValue_of_spells hk he
    have hsome : ∃ e, Spells e (arrayType keyword dims) := ⟨e, he⟩
    refine ⟨hfilled, ?_, fun hblank => ?_⟩
    · simp only [hsome, not_true_eq_false, and_true, false_and, or_false, hvalue]
      exact (render_arrayType hk he).1
    · rw [(linkedValue_of_spells hk (spells_arrayType hk hblank)).1, render_primitive hk]
  · obtain ⟨hvalue, hfilled⟩ := linkedValue_of_not_spells hk hspells
    refine ⟨hfilled, ?_, fun hblank => absurd ⟨_, spells_arrayType hk hblank⟩ hspells⟩
    simp only [hspells, and_false, false_or, not_false_eq_true, true_and]
    exact hvalue

def spacedDims : List Dimension :=
  [⟨" ".toList, " ".toList, by rintro c ⟨⟩⟩, ⟨"\n".toList, [], by rintro c ⟨⟩⟩]

theorem enterReturnType_primitive_spaced :
    "int".toList ∈ primitives ∧ (∀ d ∈ spacedDims, isBlankText d.gap ∧ isBlankText d.inside) ∧
      enterReturnType "int [ ]\n[]".toList ("a ".toList ++ (linkedReturnType ++ [])) =
        "a int[][]".toList ∧
      ¬ linkTag <:+: linkedValue "int [ ]\n[]".toList := by
  have hk : "int".toList ∈ primitives := by decide
  have htype : "int [ ]\n[]".toList = arrayType "int".toList spacedDims := rfl
  obtain ⟨hfilled, -, hplain⟩ := enterReturnType_primitive hk spacedDims
  have hblank : ∀ d ∈ spacedDims, isBlankText d.gap ∧ isBlankText d.inside := by decide
  refine ⟨hk, hblank, ?_, ?_⟩
  · rw [htype, hfilled, hplain hblank]
    decide
  · rw [htype, hplain hblank]
    decide

/-- An annotation behind the keyword becomes part of what is linked. -/
example : describeType true "int @Owned []".toList = "\x7b@link int @Owned\x7d[]".toList := by
  have hread : ofText? "int @Owned []".toList = some (mk "int @Owned".toList [] 1) := by cbv
  rw [describeType, hread]
  decide

end Template
end Javadoc
