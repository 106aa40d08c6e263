import Javadoc.Declaration.Role
import Javadoc.Text.Basic

/-! The declarations of a source text to which a comment can belong, with the byte offsets of the
text they were read from. -/
namespace Javadoc

/-- A documentation comment and the bytes it takes in the source. -/
structure DocComment where
  /-- The comment as written, with its delimiters. -/
  text : Text
  start : Nat
  stop : Nat
  deriving DecidableEq, Repr

inductive Preceding where
  /-- No comment, or something else in between. -/
  | nothing
  /-- A comment that documents nothing, such as a line comment. -/
  | remark
  /-- A documentation comment. -/
  | doc (comment : DocComment)
  deriving DecidableEq, Repr

namespace Preceding

def doc? : Preceding → Option DocComment
  | doc comment => some comment
  | _ => none

def isComment : Preceding → Bool
  | nothing => false
  | _ => true

end Preceding

structure Parameter where
  name : Text
  type : Text
  deriving DecidableEq, Repr

/-- A field. Declarators of one field declaration share their start and their comment. -/
structure Field where
  name : Text
  type : Text
  comment : Preceding
  /-- Where the field declaration starts, modifiers included. -/
  start : Nat
  deriving DecidableEq, Repr

structure Method where
  name : Text
  isConstructor : Bool
  parameters : List Parameter
  /-- The type as written; constructors have none. -/
  returnType? : Option Text
  /-- The body as written, braces included; abstract methods have none. -/
  body? : Option Text
  /-- The expression of the first return statement, without blanks. -/
  returned? : Option Text
  comment : Preceding
  /-- Where the declaration starts, modifiers included. -/
  start : Nat
  deriving DecidableEq, Repr

inductive ClassKind where
  | «class»
  | «interface»
  | «enum»
  | record
  | annotationType
  deriving DecidableEq, Repr

/-- What a type declares itself, each list in source order, without its nested types. -/
structure ClassInfo where
  name : Text
  kind : ClassKind
  comment : Preceding
  /-- Where the declaration starts, modifiers included. -/
  start : Nat
  /-- Where the declaration ends, after its closing brace. -/
  stop : Nat
  fields : List Field
  constructors : List Method
  methods : List Method
  deriving DecidableEq, Repr

/-- A type declaration: its own part and the types nested in it, in source order. -/
inductive ClassDecl where
  | mk (own : ClassInfo) (nested : List ClassDecl)

namespace ClassDecl

def own : ClassDecl → ClassInfo
  | mk own _ => own

def nested : ClassDecl → List ClassDecl
  | mk _ nested => nested

end ClassDecl

/-- A source text, where it comes from, and its top-level types in source order. -/
structure SourceFile where
  path : Text
  source : Text
  classes : List ClassDecl

/-- The first top-level type: the one that a file is known by. -/
def SourceFile.primary? (file : SourceFile) : Option ClassDecl := file.classes.head?

end Javadoc
