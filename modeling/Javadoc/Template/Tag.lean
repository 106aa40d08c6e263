import Javadoc.Text.Search
import Javadoc.Comment.Markup

/-! The tags of templates and the edits made with them: putting a value in the place of a tag,
deleting a tag with the words that depend on it, and cutting a directive out of its line. -/
namespace Javadoc

/-- A placeholder in a template. -/
inductive Tag where
  /-- The name of the type, or of the constructor. -/
  | className
  /-- The name of a field, the returned expression, or the field that a setter assigns. -/
  | subject
  /-- One entry for each parameter. -/
  | params
  /-- The return type, spelled out. -/
  | returnType
  /-- Directive: the parameter list holds every listed word. -/
  | hasParams
  /-- Directive: the return type is the argument. -/
  | returnTypeIs
  /-- Directive: the method name contains the argument. -/
  | nameContains
  deriving DecidableEq, Repr

namespace Tag

def all : List Tag :=
  [className, subject, params, returnType, hasParams, returnTypeIs, nameContains]

def name : Tag → Text
  | className => "className".toList
  | subject => "instance".toList
  | params => "params".toList
  | returnType => "returnType".toList
  | hasParams => "hasP".toList
  | returnTypeIs => "returnTypeIs".toList
  | nameContains => "nameContains".toList

def marker (tag : Tag) : Text := '<' :: tag.name ++ ['>']

def ofName? (name : Text) : Option Tag := all.find? fun tag => tag.name == name

def isDirective : Tag → Bool
  | hasParams | returnTypeIs | nameContains => true
  | _ => false

theorem marker_length_pos (tag : Tag) : 0 < tag.marker.length := by simp [marker]

end Tag

namespace Template

/-- Puts `value` in the place of every occurrence of `tag`. -/
def enter (tag : Tag) (value template : Text) : Text :=
  Text.replaceAll tag.marker value template

def inlineOpen : Text := "\x7b@".toList

def returnTag : Text := "@return".toList

/-- Drops an inline tag that encloses the place between `before` and `after`: back to its opening
and on to its closing brace, with no other brace in between. -/
def dropInlineTag (before after : Text) : Text × Text :=
  match Text.breakOnLast? inlineOpen before with
  | none => (before, after)
  | some (left, between) =>
    if between.contains '}' then (before, after)
    else
      match after.dropWhile (· != '}') with
      | [] => (before, after)
      | _ :: right =>
        if (after.takeWhile (· != '}')).contains '{' then (before, after) else (left, right)

def closeGap (left right : Text) : Text :=
  if left.getLast? == some ' ' && right.head? == some ' ' then left ++ right.drop 1
  else left ++ right

theorem length_dropInlineTag (before after : Text) :
    (dropInlineTag before after).1.length ≤ before.length ∧
      (dropInlineTag before after).2.length ≤ after.length := by
  unfold dropInlineTag
  split
  · exact ⟨Nat.le_refl _, Nat.le_refl _⟩
  · next left between hb =>
    have hlen := congrArg List.length (Text.breakOnLast?_eq_some hb)
    simp only [List.length_append] at hlen
    split
    · exact ⟨Nat.le_refl _, Nat.le_refl _⟩
    · split
      · exact ⟨Nat.le_refl _, Nat.le_refl _⟩
      · next c right hr =>
        split
        · exact ⟨Nat.le_refl _, Nat.le_refl _⟩
        · have h := (List.dropWhile_suffix (l := after) (· != '}')).length_le
          rw [hr] at h
          simp only [List.length_cons] at h
          show left.length ≤ _ ∧ right.length ≤ _
          omega

theorem length_closeGap (left right : Text) :
    (closeGap left right).length ≤ left.length + right.length := by
  unfold closeGap
  split <;> simp

def removeTag (tag : Tag) (line : Text) : Text :=
  match _h : Text.breakOn? tag.marker line with
  | none => line
  | some (before, after) =>
    let around := dropInlineTag before after
    removeTag tag (closeGap around.1 around.2)
termination_by line.length
decreasing_by
  have h₁ := congrArg List.length (Text.breakOn?_eq_some _h)
  have h₂ := length_dropInlineTag before after
  have h₃ := length_closeGap (dropInlineTag before after).1 (dropInlineTag before after).2
  have h₄ := tag.marker_length_pos
  simp only [List.length_append] at h₁
  omega

def delimits (line : Text) : Bool :=
  Text.includes Comment.docStart line || Text.includes Comment.blockClose line

/-- Deletes `tag` from one line. A line that only documents the value of the tag, or that is left
with decoration alone, goes away. -/
def dropFromLine (tag : Tag) (line : Text) : Option Text :=
  if !Text.includes tag.marker line then some line
  else if Text.includes returnTag line && !delimits line then none
  else
    let rest := removeTag tag line
    if Comment.isDecorative rest then none else some (Text.trimEnd rest)

/-- Deletes `tag` together with the words that depend on it, line by line. -/
def dropTag (tag : Tag) (template : Text) : Text :=
  Text.joinLines ((Text.splitLines template).filterMap (dropFromLine tag))

/-- What stays of a line when a directive is cut out from between `before` and `after`: the text
before it and the comment's closing delimiter with what follows, if there is one. Nothing stays of
a line that held decoration alone beside the directive. -/
def cutDirective (before after : Text) : Option Text :=
  let kept := Text.trimEnd before
  match Text.breakOnLast? Comment.blockClose after with
  | some (_, rest) =>
    if Comment.isDecorative kept then
      some (before.takeWhile Text.isBlank ++ Comment.blockClose ++ rest)
    else some (kept ++ ' ' :: (Comment.blockClose ++ rest))
  | none =>
    if Comment.isDecorative kept then none
    else if after.getLast? == some '\r' then some (kept ++ ['\r'])
    else some kept

def cutFromLine (tag : Tag) (line : Text) : Option Text :=
  match Text.breakOn? tag.marker line with
  | some (before, after) => cutDirective before after
  | none => some line

/-- Cuts the directive `tag` and its argument out of every line. -/
def dropDirective (tag : Tag) (template : Text) : Text :=
  Text.joinLines ((Text.splitLines template).filterMap (cutFromLine tag))

/-- Removes every tag that a declaration has no value for, directives included, one tag after the
other. -/
def dropTags (text : Text) : Text :=
  Tag.all.foldl
    (fun text tag => if tag.isDirective then dropDirective tag text else dropTag tag text)
    text

end Template
end Javadoc
