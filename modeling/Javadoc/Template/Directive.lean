import Javadoc.Template.Tag
import Javadoc.Declaration.Lookup

/-! Directives of custom templates: the conditions that a method has to meet. Reading a template
splits it into its directives, in order, and the body that is left. -/
namespace Javadoc

inductive Condition where
  | nameContains
  | returnTypeIs
  | hasParams
  deriving DecidableEq, Repr

namespace Condition

def all : List Condition := [nameContains, returnTypeIs, hasParams]

/-- The tag that a directive with this condition is written with. -/
def tag : Condition → Tag
  | nameContains => .nameContains
  | returnTypeIs => .returnTypeIs
  | hasParams => .hasParams

def at? (t : Text) : Option Condition := all.find? fun c => c.tag.marker.isPrefixOf t

end Condition

structure Directive where
  condition : Condition
  argument : Text
  deriving DecidableEq, Repr

namespace Directive

def listed (argument : Text) : List Text :=
  (Text.splitOnChar ',' argument).filter fun word => !word.isEmpty

/-- Whether a method meets the directive. Blanks never count. A name is looked for under the name
of the template when the argument is empty; other empty arguments are never met. -/
def accepts (d : Directive) (templateName : Text) (m : Method) : Bool :=
  let argument := Text.compact d.argument
  match d.condition with
  | .nameContains =>
    let wanted := if argument.isEmpty then Text.compact templateName else argument
    !wanted.isEmpty && Text.includes wanted m.name
  | .returnTypeIs =>
    !argument.isEmpty && m.returnType?.any fun type => Text.compact type == argument
  | .hasParams =>
    let written := Text.compact m.parameterText
    !(listed argument).isEmpty && (listed argument).all fun word => Text.includes word written

end Directive

structure CustomBody where
  directives : List Directive
  body : Text
  deriving DecidableEq, Repr

namespace CustomBody

open Template (cutDirective)

/-- Splits a line at the markers of directives: the text before the first one, and for each the
text up to the next one. -/
def splitAtMarkers : Text → Text × List (Condition × Text)
  | [] => ([], [])
  | c :: cs =>
    let (before, found) := splitAtMarkers cs
    match Condition.at? (c :: cs) with
    | some condition =>
      ([], (condition, before.drop (condition.tag.marker.length - 1)) :: found)
    | none => (c :: before, found)

/-- The directives of one line, from its markers and the texts after them. An argument runs up to
the next marker. The last one ends before the delimiter that closes the comment, and is empty when
that stands before its marker, which `closed` tells. -/
def directivesOf (closed : Bool) : List (Condition × Text) → List Directive
  | [] => []
  | [(condition, after)] =>
    let argument :=
      match Text.breakOnLast? Comment.blockClose after with
      | some (argument, _) => argument
      | none => if closed then [] else after
    [⟨condition, Text.dropEndWhile (· == '\r') argument⟩]
  | (condition, after) :: next :: rest =>
    ⟨condition, Text.dropEndWhile (· == '\r') after⟩ ::
      directivesOf (closed || Text.includes Comment.blockClose after) (next :: rest)

def bodyLine (line : Text) : Option Text :=
  match splitAtMarkers line with
  | (_, []) => some line
  | (before, (condition, _) :: _) =>
    cutDirective before (line.drop (before.length + condition.tag.marker.length))

/-- Splits a custom template, line by line. Lines that only held directives are not in the body. -/
def ofTemplate (template : Text) : CustomBody :=
  let lines := Text.splitLines template
  { directives := lines.flatMap fun line => directivesOf false (splitAtMarkers line).2
    body := Text.joinLines (lines.filterMap bodyLine) }

/-- Whether a method meets every directive. -/
def accepts (c : CustomBody) (templateName : Text) (m : Method) : Bool :=
  c.directives.all fun d => d.accepts templateName m

end CustomBody
end Javadoc
