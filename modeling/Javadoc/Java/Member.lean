import Javadoc.Java.Piece
import Javadoc.Java.Outline

/-! The members of types: the head of a member is collected up to its semicolon or its body and
then read as a field, a constructor, a method or a nested type. -/
namespace Javadoc.Java

/-- A member of a type. One field declaration gives a member for each of its names. -/
inductive Member where
  | field (f : Field)
  | constructor (m : Method)
  | method (m : Method)
  | nested (c : ClassDecl)

namespace Member

def placeOf (head : List Piece) : Preceding × Nat :=
  match head with
  | [] => (.nothing, 0)
  | p :: _ => (p.first.preceding, p.first.start)

def firstComment? (lead : List Lexeme) : Option Text :=
  (lead.find? fun l => l.kind == .lineComment || l.kind == .blockComment).map (·.text)

/-- The type of a parameter that takes any number of values. A comment between its modifiers and
its type stands in for the type. -/
def spreadType (modified : Bool) (type : List Piece) : Text :=
  let comment? :=
    match modified, type with
    | true, p :: _ => firstComment? p.first.lead
    | _, _ => none
  comment?.getD (Piece.written type) ++ "...".toList

def parameter? (ps : List Piece) : Option Parameter :=
  let unmodified := Piece.dropModifiers false ps
  let (type, rest) := Piece.splitType 0 false false unmodified
  match rest with
  | [] => none
  | p :: more =>
    if p.is "..." then
      match Piece.dropModifiers false more with
      | [] => none
      | name :: _ => some
          { name := Piece.written [name]
            type := spreadType (unmodified.length < ps.length) type }
    else if rest.any (·.is "this") then none
    else p.word?.map fun name => { name, type := Piece.written type }

def parameters (inner : Forest) : List Parameter :=
  (Piece.splitCommas 0 (Piece.ofForest inner)).filterMap parameter?

def dimensions (ps : List Piece) : Text :=
  Piece.written (ps.takeWhile fun p => !(p.is "throws" || p.is "default"))

def bodyOf (body? : Option Piece) : Option Text × Option Text :=
  match body? with
  | some (.group o inner c) =>
    (some (Piece.written [.group o inner c]), (Outline.ofBody inner).firstReturned?)
  | _ => (none, none)

def methodOf (head : List Piece) (isConstructor : Bool) (name : Text) (inner : Forest)
    (returnType? : Option Text) (body? : Option Piece) : Method :=
  { name, isConstructor, parameters := parameters inner, returnType?
    body? := (bodyOf body?).1
    returned? := (bodyOf body?).2
    comment := (placeOf head).1
    start := (placeOf head).2 }

def fieldsOf (head type : List Piece) (name : Text) (rest : List Piece) : List Member :=
  (name :: Piece.laterNames rest).map fun name => field
    { name, type := Piece.written type, comment := (placeOf head).1, start := (placeOf head).2 }

def parenthesised? : List Piece → Option (Forest × List Piece)
  | .group o inner _ :: rest => if o.is "(" then some (inner, rest) else none
  | _ => none

/-- Reads a head that declares no type, with its body if it has one: a constructor when a name is
directly followed by parameters, or by the body; a method when the name behind a type is followed
by parameters; else fields. -/
def ofHead (head : List Piece) (body? : Option Piece) : List Member :=
  match Piece.dropModifiers false (Piece.dropTypeParameters (Piece.dropModifiers false head)) with
  | [] => []
  | p :: ps =>
    match parenthesised? ps, p.word? with
    | some (inner, _), some name => [constructor (methodOf head true name inner none body?)]
    | some _, none => []
    | none, _ =>
      match Piece.splitType 0 false false (p :: ps), body? with
      | (_, []), none => []
      | (_, []), some body =>
        (p.word?.map fun name => constructor (methodOf head true name .nil none (some body))).toList
      | (type, name :: rest), body? =>
        match name.word?, parenthesised? rest with
        | none, _ => []
        | some name, some (inner, behind) =>
          [method (methodOf head false name inner
            (some (Piece.written type ++ dimensions behind)) body?)]
        | some name, none => fieldsOf head type name rest

def typeHead? (head : List Piece) : Option (ClassKind × Text) :=
  match Piece.dropModifiers false head with
  | p :: q :: rest =>
    if p.is "class" then q.word?.map fun name => (.class, name)
    else if p.is "interface" then q.word?.map fun name => (.interface, name)
    else if p.is "enum" then q.word?.map fun name => (.enum, name)
    else
      match rest with
      | [] => none
      | r :: _ =>
        if p.is "@" && q.is "interface" then r.word?.map fun name => (.annotationType, name)
        else if p.is "record" && (r.opensWith "(" || r.is "<") then
          q.word?.map fun name => (.record, name)
        else none
  | _ => none

/-- Whether a group in braces ends the member with the given head. It does not where it is part of
an initial value, or of the default value of an annotation element. -/
def endsMember (kind : ClassKind) (head : List Piece) : Bool :=
  !(head.any (·.is "=")) && !(kind == .annotationType && head.any (·.is "default"))

def field? : Member → Option Field
  | field f => some f
  | _ => none

def constructor? : Member → Option Method
  | constructor m => some m
  | _ => none

def method? : Member → Option Method
  | method m => some m
  | _ => none

def nested? : Member → Option ClassDecl
  | nested c => some c
  | _ => none

def declare (kind : ClassKind) (name : Text) (head : List Piece) (stop : Nat)
    (members : List Member) : ClassDecl :=
  .mk
    { name, kind, comment := (placeOf head).1, start := (placeOf head).2, stop
      fields := members.filterMap field?
      constructors := members.filterMap constructor?
      methods := members.filterMap method? }
    (members.filterMap nested?)

/-- Reads the inside of the body of a type, when `head` is what has been read of a member. With
`constants`, the constants of an enumeration come first, up to a semicolon. -/
def ofBody (kind : ClassKind) (constants : Bool) (head : List Piece) : Forest → List Member
  | .nil => []
  | .leaf t rest =>
    if constants then ofBody kind (!t.is ";") [] rest
    else if t.is ";" then ofHead head none ++ ofBody kind false [] rest
    else ofBody kind false (head ++ [.token t]) rest
  | .group o inner c rest =>
    if constants then ofBody kind true [] rest
    else if o.is "\x7b" && endsMember kind head then
      match typeHead? head with
      | some (nestedKind, name) =>
        nested (declare nestedKind name head c.stop
          (ofBody nestedKind (nestedKind == .enum) [] inner)) :: ofBody kind false [] rest
      | none => ofHead head (some (.group o inner c)) ++ ofBody kind false [] rest
    else ofBody kind false (head ++ [.group o inner c]) rest

end Member

end Javadoc.Java

namespace Javadoc

/-- Reads the types of a source text. What stands beside them at the top is left out. -/
def SourceFile.read (path source : Text) : SourceFile :=
  { path, source
    classes := (Java.Member.ofBody .class false [] (Java.Forest.scan source)).filterMap
      Java.Member.nested? }

end Javadoc
