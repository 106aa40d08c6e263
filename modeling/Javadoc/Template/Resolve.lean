import Javadoc.Template.Config
import Javadoc.Template.Assignment
import Javadoc.TypeExpr

/-! Filling in templates: the entries for parameters, the value of each tag for a declaration, and
the comment that a configuration gives for it. -/
namespace Javadoc
namespace Template

/-- The plain description that a field or parameter called `name` gets from the template of the
fields. It is empty when that is switched off. -/
def parameterDescription (fields? : Option Text) (name : Text) : Text :=
  match fields? with
  | none => []
  | some template =>
    Comment.description (dropTags (enter .className name (enter .subject name template)))

def paramEntry (fields? : Option Text) (name : Text) : Text :=
  let description := parameterDescription fields? name
  let lead := "@param ".toList ++ name ++ [':']
  if description.isEmpty then lead else lead ++ ' ' :: description

/-- The text around a line that is dropped together with one line feed, the one behind it if it
has one. -/
def dropLine (before after : Text) : Text :=
  let above := before.take (before.length - (Text.lineHead before).length)
  match after.dropWhile (· != '\n') with
  | _ :: below => above ++ below
  | [] => above.dropLast

/-- Writes one entry for each parameter in the place of the first tag for them. Every entry but the
first goes on a line of its own, behind the decoration of the line of the tag. Without parameters
the tag is removed, with its line if that holds decoration alone. -/
def enterParameters (fields? : Option Text) (parameters : List Parameter) (template : Text) : Text :=
  match Text.breakOn? Tag.params.marker template with
  | none => template
  | some (before, after) =>
    if parameters.isEmpty then
      if Comment.isDecorative (Text.lineHead before ++ Text.lineTail after) then dropLine before after
      else before ++ after
    else
      let line := Text.lineHead before ++ Tag.params.marker ++ Text.lineTail after
      let newline : Text := if line.getLast? == some '\r' then ['\r', '\n'] else ['\n']
      let entries := parameters.map fun p => paramEntry fields? p.name
      before ++ Text.joinWith (newline ++ Comment.decorationOf line) entries ++ after

/-- What a template is filled in for. -/
inductive Target where
  | class (name : Text)
  | field (name : Text)
  | constructor (m : Method)
  /-- A method; the type it is declared in, if known, tells which field a setter assigns. -/
  | method (m : Method) (container? : Option ClassInfo)

/-- What the subject of a method comment is: the field that a setter assigns, or the returned
expression. -/
def subject? (m : Method) (container? : Option ClassInfo) : Option Text :=
  match if m.role = .mutator then Assignment.target? m container? else none with
  | some field => some field
  | none => m.returned?

/-- Fills in the template of a method. Without a subject, what depends on it or on the return type
is deleted. -/
def fillMethod (fields? : Option Text) (m : Method) (container? : Option ClassInfo)
    (template : Text) : Text :=
  let text :=
    match subject? m container? with
    | some value => enter .subject value template
    | none => dropTag .returnType (dropTag .subject template)
  let text :=
    match m.returnType? with
    | some type => enterReturnType type text
    | none => text
  enterParameters fields? m.parameters text

/-- Puts the values of the target in the place of the tags of a template. -/
def fill (fields? : Option Text) (target : Target) (template : Text) : Text :=
  match target with
  | .class name | .field name =>
    enter .subject name (enter .className name template)
  | .constructor m => enterParameters fields? m.parameters (enter .className m.name template)
  | .method m container? => fillMethod fields? m container? template

/-- Fills in a template and removes the tags that are left. Nothing is left when the text is
blank. -/
def comment? (fields? : Option Text) (template : Text) (target : Target) : Option Text :=
  let text := dropTags (fill fields? target template)
  if Text.isBlankText text then none else some text

end Template

namespace Templates

/-- Fills in a template; parameters are described by the configured template of the fields. -/
def comment? (t : Templates) (template : Text) (target : Template.Target) : Option Text :=
  Template.comment? t.fields template target

def classComment? (t : Templates) (own : ClassInfo) : Option Text := do
  t.comment? (← t.classes) (.class own.name)

def fieldComment? (t : Templates) (field : Field) : Option Text := do
  t.comment? (← t.fields) (.field field.name)

def constructorComment? (t : Templates) (m : Method) : Option Text := do
  t.comment? (← t.constructors) (.constructor m)

/-- The comment for a method: from the template of its role, or for a custom method from the first
custom template that it meets. -/
def methodComment? (t : Templates) (m : Method) (container? : Option ClassInfo) : Option Text := do
  let _ ← t.methods
  match m.role with
  | .custom =>
    let selected ← CustomTemplate.select? t.custom m
    t.comment? selected.body (.method m container?)
  | role => t.comment? (← t.role? role) (.method m container?)

end Templates
end Javadoc
