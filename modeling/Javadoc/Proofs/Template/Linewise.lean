import Javadoc.Proofs.Text.Seam
import Javadoc.Proofs.Template.Leftover

/-! Filling in a template line by line. A value that is entered, a tag that is deleted and a directive
that is cut out change the lines that they stand in, each on its own. -/
namespace Javadoc

namespace Text

/-- A replacement goes on behind a character that the pattern does not hold as at the start. -/
theorem replaceAll_append_cons {pat value : Text} {c : Char} (hc : c ∉ pat) (hp : pat ≠ [])
    (t u : Text) :
    replaceAll pat value (t ++ c :: u) = replaceAll pat value t ++ c :: replaceAll pat value u := by
  have hapart : Apart pat t (c :: u) := apart_of_head fun d hd hm => by
    obtain rfl := Option.some.inj hd
    exact hc (List.mem_of_mem_tail hm)
  have hcons : ¬ pat <+: c :: u := by
    intro h
    obtain ⟨d, pat, rfl⟩ := List.exists_cons_of_ne_nil hp
    exact hc ((List.cons_prefix_cons.1 h).1 ▸ List.mem_cons_self)
  rw [hapart.replaceAll_append hp, replaceAll_cons_of_not_prefix hcons]

/-- Lines that are joined are lines of the text. -/
theorem sublist_splitLines_joinLines {ls : List Text} (h : ∀ l ∈ ls, '\n' ∉ l) :
    ls.Sublist (splitLines (joinLines ls)) := by
  by_cases hne : ls = []
  · exact hne ▸ List.nil_sublist _
  · rw [splitLines_joinLines h hne]

/-- Lines that become themselves stay as they are. -/
theorem flatMap_eq_self {g : Text → List Text} {ls : List Text} (h : ∀ l ∈ ls, g l = [l]) :
    ls.flatMap g = ls := (List.flatMap_congr h).trans (List.flatMap_singleton' ls)

end Text

namespace Template
open Text

/-- A change of a text that goes line by line: every line becomes lines of its own, none or several
ones, whatever the other lines are. -/
structure Linewise (f : Text → Text) (g : Text → List Text) : Prop where
  joined : ∀ ls : List Text, (∀ l ∈ ls, '\n' ∉ l) → f (joinLines ls) = joinLines (ls.flatMap g)
  lines : ∀ line, '\n' ∉ line → ∀ l ∈ g line, '\n' ∉ l

namespace Linewise

variable {f f' : Text → Text} {g g' : Text → List Text}

theorem apply (h : Linewise f g) (t : Text) : f t = joinLines ((splitLines t).flatMap g) := by
  conv_lhs => rw [← joinLines_splitLines t]
  exact h.joined _ fun l hl => not_mem_of_mem_splitLines hl

theorem lines_flatMap (h : Linewise f g) {ls : List Text} (hls : ∀ l ∈ ls, '\n' ∉ l) :
    ∀ l ∈ ls.flatMap g, '\n' ∉ l := by
  intro l hl
  obtain ⟨line, hline, hl⟩ := List.mem_flatMap.1 hl
  exact h.lines line (hls line hline) l hl

/-- One change after the other. -/
theorem comp (h' : Linewise f' g') (h : Linewise f g) :
    Linewise (fun t => f' (f t)) fun line => (g line).flatMap g' where
  joined ls hls := by
    rw [h.joined ls hls, h'.joined _ (h.lines_flatMap hls), List.flatMap_assoc]
  lines line hline := h'.lines_flatMap (h.lines line hline)

/-- A change that starts again behind each line feed. -/
theorem of_newline (hnil : f [] = []) (hf : ∀ t u, f (t ++ '\n' :: u) = f t ++ '\n' :: f u) :
    Linewise f fun line => splitLines (f line) where
  joined ls hls := by
    clear hls
    induction ls with
    | nil => exact hnil
    | cons l ls ih =>
      cases ls with
      | nil =>
        rw [List.flatMap_singleton, joinLines_splitLines]
        rfl
      | cons m ms =>
        have hne : (m :: ms).flatMap (fun line => splitLines (f line)) ≠ [] := by
          simp [splitLines_ne_nil]
        calc f (joinLines (l :: m :: ms))
          _ = f l ++ '\n' :: joinLines ((m :: ms).flatMap fun line => splitLines (f line)) := by
            rw [joinLines_cons_cons, hf, ih]
          _ = joinLines (splitLines (f l) ++ (m :: ms).flatMap fun line => splitLines (f line)) := by
            rw [joinLines_append (splitLines_ne_nil _) hne, joinLines_splitLines]
          _ = joinLines ((l :: m :: ms).flatMap fun line => splitLines (f line)) := rfl
  lines _ _ _ hl := not_mem_of_mem_splitLines hl

/-- A change of single lines, some of which are dropped. -/
theorem of_filterMap {h : Text → Option Text} (hnil : h [] = some [])
    (hn : ∀ {line kept}, h line = some kept → '\n' ∉ line → '\n' ∉ kept) :
    Linewise (fun t => joinLines ((splitLines t).filterMap h)) fun line => (h line).toList where
  joined ls hls := by
    rw [← List.filterMap_eq_flatMap_toList]
    by_cases hne : ls = []
    · subst hne
      simp [joinLines, joinWith, hnil]
    · rw [splitLines_joinLines hls hne]
  lines line hline l hl := hn (Option.mem_toList.1 hl) hline

end Linewise

theorem linewise_enter (tag : Tag) (value : Text) :
    Linewise (enter tag value) fun line => splitLines (enter tag value line) :=
  .of_newline rfl (replaceAll_append_cons (not_mem_marker tag).2.2.2.1 (marker_ne_nil tag))

private theorem linewise_enterReturnType (type : Text) :
    Linewise (enterReturnType type) fun line => splitLines (enterReturnType type line) := by
  have hlinked := @replaceAll_append_cons linkedReturnType (describeType true type) '\n'
    (by decide) (by decide)
  have hplain := @replaceAll_append_cons _ (describeType false type) '\n'
    (not_mem_marker .returnType).2.2.2.1 (marker_ne_nil .returnType)
  refine .of_newline rfl fun t u => ?_
  rw [enterReturnType, hlinked, enter, hplain]
  rfl

/-- Removing a tag adds no character to a line. -/
theorem removeTag_sublist (tag : Tag) (line : Text) : (removeTag tag line).Sublist line := by
  fun_induction removeTag tag line with
  | case1 line => exact List.Sublist.refl line
  | case2 line before after h around ih =>
    refine ih.trans ?_
    have haround : around.1.Sublist before ∧ around.2.Sublist after := by
      rcases dropInlineTag_cases before after with he | ⟨between, inside, hb, ha⟩
      · exact ⟨by simp [around, he], by simp [around, he]⟩
      · refine ⟨?_, ?_⟩
        · exact List.IsPrefix.sublist ⟨inlineOpen ++ between, by rw [hb]; simp [around]⟩
        · exact List.IsSuffix.sublist ⟨inside ++ ['\x7d'], by rw [ha]; simp [around]⟩
    have hgap : (closeGap around.1 around.2).Sublist (around.1 ++ around.2) := by
      rw [closeGap]
      split
      · exact (List.Sublist.refl _).append (List.drop_sublist 1 _)
      · exact List.Sublist.refl _
    rw [breakOn?_eq_some h]
    exact hgap.trans ((haround.1.trans (List.sublist_append_left _ _)).append haround.2)

theorem newline_not_mem_dropFromLine {tag : Tag} {line kept : Text}
    (h : dropFromLine tag line = some kept) (hn : '\n' ∉ line) : '\n' ∉ kept := by
  rw [dropFromLine] at h
  split at h
  · cases h
    exact hn
  · split at h
    · cases h
    · simp only at h
      split at h
      · cases h
      · cases h
        have htrim := List.IsPrefix.sublist <| isPrefix_trimEnd (removeTag tag line)
        exact fun hm => hn ((htrim.trans (removeTag_sublist tag line)).subset hm)

def clearOne (tag : Tag) (line : Text) : Option Text :=
  if tag.isDirective then cutFromLine tag line else dropFromLine tag line

def clearLine (line : Text) : Option Text := Tag.all.foldlM (fun line tag => clearOne tag line) line

theorem linewise_dropTag (tag : Tag) :
    Linewise (dropTag tag) fun line => (dropFromLine tag line).toList :=
  .of_filterMap (by cases tag <;> decide) newline_not_mem_dropFromLine

private theorem linewise_dropDirective (tag : Tag) :
    Linewise (dropDirective tag) fun line => (cutFromLine tag line).toList :=
  .of_filterMap (by cases tag <;> decide) newline_not_mem_cutFromLine

theorem linewise_dropTags : Linewise dropTags fun line => (clearLine line).toList := by
  have hone (tag : Tag) :
      Linewise (fun text => if tag.isDirective then dropDirective tag text else dropTag tag text)
        fun line => (clearOne tag line).toList := by
    simp only [clearOne]
    split
    · exact linewise_dropDirective tag
    · exact linewise_dropTag tag
  suffices h : ∀ tags : List Tag, Linewise (fun text => tags.foldl (fun text tag =>
      if tag.isDirective then dropDirective tag text else dropTag tag text) text)
      fun line => (tags.foldlM (fun line tag => clearOne tag line) line).toList from h Tag.all
  intro tags
  induction tags with
  | nil => exact ⟨fun ls _ => by simp, fun line hn l hl => by simp_all⟩
  | cons tag tags ih =>
    have hlines : (fun line => ((tag :: tags).foldlM (fun line tag => clearOne tag line) line).toList) =
        fun line => (clearOne tag line).toList.flatMap fun line =>
          (tags.foldlM (fun line tag => clearOne tag line) line).toList := by
      funext line
      rw [List.foldlM_cons]
      cases clearOne tag line with
      | none => rfl
      | some kept => exact (List.flatMap_singleton _ _).symm
    rw [hlines]
    exact ih.comp (hone tag)

/-- A method template with its values: the subject and the return type are entered, or what depends
on them is deleted. -/
def enterValues (m : Method) (container? : Option ClassInfo) (template : Text) : Text :=
  let text :=
    match subject? m container? with
    | some value => enter .subject value template
    | none => dropTag .returnType (dropTag .subject template)
  match m.returnType? with
  | some type => enterReturnType type text
  | none => text

theorem fillMethod_eq (fields? : Option Text) (m : Method) (container? : Option ClassInfo)
    (template : Text) : fillMethod fields? m container? template =
      enterParameters fields? m.parameters (enterValues m container? template) := rfl

def valueLines (m : Method) (container? : Option ClassInfo) (line : Text) : List Text :=
  let lines :=
    match subject? m container? with
    | some value => splitLines (enter .subject value line)
    | none => (dropFromLine .subject line).toList.flatMap fun line =>
        (dropFromLine .returnType line).toList
  match m.returnType? with
  | some type => lines.flatMap fun line => splitLines (enterReturnType type line)
  | none => lines

theorem linewise_enterValues (m : Method) (container? : Option ClassInfo) :
    Linewise (enterValues m container?) (valueLines m container?) := by
  have hdropped := (linewise_dropTag .returnType).comp (linewise_dropTag .subject)
  unfold enterValues valueLines
  cases subject? m container? with
  | some value =>
    cases m.returnType? with
    | some type => exact (linewise_enterReturnType type).comp (linewise_enter .subject value)
    | none => exact linewise_enter .subject value
  | none =>
    cases m.returnType? with
    | some type => exact (linewise_enterReturnType type).comp hdropped
    | none => exact hdropped

section

variable {line : Text} {tag : Tag} (h : ¬ tag.marker <:+: line)
include h

theorem enter_eq_self (value : Text) : enter tag value line = line :=
  replaceAll_eq_self (marker_ne_nil tag) h

theorem dropFromLine_eq_self : dropFromLine tag line = some line := by
  rw [dropFromLine, includes_eq_false_iff.2 h]
  rfl

private theorem cutFromLine_eq_self : cutFromLine tag line = some line := by
  rw [cutFromLine, breakOn?_eq_none_iff.2 h]

theorem clearOne_eq_self : clearOne tag line = some line := by
  rw [clearOne, dropFromLine_eq_self h, cutFromLine_eq_self h, ite_self]

end

private theorem enterReturnType_eq_self {line : Text} (h : ¬ Tag.returnType.marker <:+: line)
    (type : Text) : enterReturnType type line = line := by
  have hlinked : ¬ linkedReturnType <:+: line := fun hin =>
    h (List.IsInfix.trans ⟨"\x7b@link ".toList, ['\x7d'], rfl⟩ hin)
  rw [enterReturnType, replaceAll_eq_self (by decide) hlinked, enter_eq_self h]

/-- A line without the tags of values stays. -/
theorem valueLines_eq_self {line : Text} (hn : '\n' ∉ line)
    (hs : ¬ Tag.subject.marker <:+: line) (hr : ¬ Tag.returnType.marker <:+: line) (m : Method)
    (container? : Option ClassInfo) : valueLines m container? line = [line] := by
  have hline := splitLines_of_not_mem hn
  unfold valueLines
  cases subject? m container? <;> cases m.returnType? <;>
    simp [enter_eq_self hs, dropFromLine_eq_self hs, dropFromLine_eq_self hr,
      enterReturnType_eq_self hr, hline]

end Template
end Javadoc
