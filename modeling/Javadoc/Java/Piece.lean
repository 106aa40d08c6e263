import Javadoc.Java.Forest

/-! The head of a member: the row of tokens and groups from its first token up to its body, cut
into modifiers, type and name. -/
namespace Javadoc.Java

/-- A token, or a group with its brackets. -/
inductive Piece where
  | token (t : Token)
  | group (opening : Token) (inner : Forest) (closing : Token)

namespace Piece

def tokens : Piece → List Token
  | token t => [t]
  | group o inner c => o :: inner.tokens ++ [c]

def first : Piece → Token
  | token t => t
  | group o _ _ => o

def ofForest : Forest → List Piece
  | .nil => []
  | .leaf t rest => token t :: ofForest rest
  | .group o inner c rest => group o inner c :: ofForest rest

def written (ps : List Piece) : Text := Token.written (ps.flatMap tokens)

def is (p : Piece) (s : String) : Bool :=
  match p with
  | token t => t.is s
  | group .. => false

def word? : Piece → Option Text
  | token t => if t.isWord then some t.text else none
  | group .. => none

def opensWith (p : Piece) (s : String) : Bool :=
  match p with
  | token _ => false
  | group o _ _ => o.is s

def modifiers : List Text :=
  ["public".toList, "protected".toList, "private".toList, "abstract".toList, "static".toList,
    "final".toList, "strictfp".toList, "default".toList, "synchronized".toList, "native".toList,
    "transient".toList, "volatile".toList]

/-- Whether the pieces go on with a type declaration or a modifier of one; this tells `sealed` as
a modifier from a name. -/
def continuesType : List Piece → Bool
  | [] => false
  | p :: _ =>
    p.is "class" || p.is "interface" || p.is "@" || match p.word? with
      | some w => modifiers.contains w
      | none => false

/-- The pieces behind modifiers and annotations. With `annotated`, the name of an annotation has
just been read, so that a longer name or arguments may follow. -/
def dropModifiers (annotated : Bool) : List Piece → List Piece
  | [] => []
  | p :: ps =>
    if annotated && p.is "." then
      match ps with
      | [] => []
      | _ :: rest => dropModifiers true rest
    else if annotated && p.opensWith "(" then dropModifiers false ps
    else if p.is "@" then
      match ps with
      | [] => [p]
      | name :: rest => if name.is "interface" then p :: ps else dropModifiers true rest
    else if p.is "sealed" then
      if continuesType ps then dropModifiers false ps else p :: ps
    else if p.is "non" then
      match ps with
      | dash :: _ :: rest => if dash.is "-" then dropModifiers false rest else p :: ps
      | _ => p :: ps
    else
      match p.word? with
      | some w => if modifiers.contains w then dropModifiers false ps else p :: ps
      | none => p :: ps

def dropAngles : Nat → List Piece → List Piece
  | 0, ps => ps
  | _ + 1, [] => []
  | depth + 1, p :: ps =>
    if p.is "<" then dropAngles (depth + 2) ps
    else if p.is ">" then dropAngles depth ps
    else dropAngles (depth + 1) ps

def dropTypeParameters : List Piece → List Piece
  | [] => []
  | p :: ps => if p.is "<" then dropAngles 1 ps else p :: ps

/-- Whether the name of an annotation follows, or goes on. With `annotated`, such a name has just been
read. -/
def beforeAnnotationName (annotated : Bool) (p : Piece) : Bool :=
  p.is "@" || (annotated && p.is ".")

def isAnnotationArguments (annotated : Bool) (p : Piece) : Bool := annotated && p.opensWith "("

/-- Splits off the type at the front. Inside type arguments, `depth` counts the open brackets;
outside, `named` tells whether a name has been read that a selection, type arguments or dimensions
may follow, and `annotated` whether the name of an annotation was the last thing read. -/
def splitType (depth : Nat) (named annotated : Bool) : List Piece → List Piece × List Piece
  | [] => ([], [])
  | p :: ps =>
    let keep (depth : Nat) (named : Bool) : List Piece × List Piece :=
      let (type, rest) := splitType depth named false ps
      (p :: type, rest)
    match depth with
    | depth + 1 =>
      if p.is "<" then keep (depth + 2) named
      else if p.is ">" then keep depth true
      else keep (depth + 1) named
    | 0 =>
      if beforeAnnotationName annotated p then
        match ps with
        | [] => ([], [p])
        | name :: rest =>
          let (type, rest) := splitType 0 named true rest
          (p :: name :: type, rest)
      else if isAnnotationArguments annotated p then keep 0 named
      else if named then
        if p.is "." then keep 0 false
        else if p.is "<" then keep 1 true
        else if p.opensWith "[" then keep 0 true
        else ([], p :: ps)
      else if p.word?.isSome then keep 0 true
      else ([], p :: ps)

inductive Declarator where
  | start
  | named
  /-- Behind the sign of an annotation, or a dot in its name. -/
  | atName
  | annotated
  deriving DecidableEq, Repr

/-- Whether declarators follow: names with dimensions, up to one with an initializer or the end.
This tells a comma between declarators from one between type arguments. -/
def declaratorsFollow : Declarator → List Piece → Bool
  | d, [] => d == .named
  | .start, p :: ps => p.word?.isSome && declaratorsFollow .named ps
  | .atName, _ :: ps => declaratorsFollow .annotated ps
  | d, p :: ps =>
    p.is "=" || (p.opensWith "[" && declaratorsFollow .named ps) ||
      (p.is "," && declaratorsFollow .start ps) || (p.is "@" && declaratorsFollow .atName ps) ||
      (d == .annotated && (p.is "." && declaratorsFollow .atName ps ||
        p.opensWith "(" && declaratorsFollow .named ps))

def laterNames : List Piece → List Text
  | [] => []
  | p :: ps =>
    if p.is "," && declaratorsFollow .start ps then
      match ps with
      | [] => []
      | name :: rest => written [name] :: laterNames rest
    else laterNames ps

def splitCommas (depth : Nat) : List Piece → List (List Piece)
  | [] => [[]]
  | p :: ps =>
    let extend (depth : Nat) : List (List Piece) :=
      match splitCommas depth ps with
      | [] => [[p]]
      | q :: qs => (p :: q) :: qs
    if p.is "<" then extend (depth + 1)
    else if p.is ">" then extend (depth - 1)
    else if depth = 0 && p.is "," then [] :: splitCommas 0 ps
    else extend depth

end Piece
end Javadoc.Java
