import Javadoc.Java.Forest
import Javadoc.Declaration.Basic

/-! The outline of a body: its return statements, and what each of them stands in. From it the
expression of the first return statement of a method is found. A body is read in stages: a token or
a group moves the reading on to another stage, and says how what is read behind it is joined. -/
namespace Javadoc.Java

inductive Outline where
  /-- A return statement with its expression, if it has one. -/
  | returns (value? : Option Text)
  /-- A statement, a switch group or an expression that directly holds the given parts. -/
  | part (parts : List Outline)
  | lambda (parts : List Outline)
  /-- The body of a type declared in the body, an anonymous class among them. -/
  | type (kind : ClassKind) (parts : List Outline)

namespace Outline

mutual

/-- The expression of the first return statement in a part. Lambda expressions, classes and
records are left out. -/
def firstReturned? : Outline → Option Text
  | returns value? => value?
  | part parts => firstAmong? parts
  | lambda _ => none
  | type .class _ | type .record _ => none
  | type _ parts => firstAmong? parts

-- a return statement without expression that stands directly among the parts ends the search
def firstAmong? : List Outline → Option Text
  | [] => none
  | returns value? :: _ => value?
  | o :: os =>
    match firstReturned? o with
    | some value => some value
    | none => firstAmong? os

end

inductive Role where
  | plain
  /-- The branch of the condition before it that is taken otherwise. -/
  | otherwise
  /-- What is done behind the block of the attempt before it. -/
  | handler
  /-- The start of a group of a switch. -/
  | label
  deriving DecidableEq, Repr

structure Item where
  role : Role
  outlines : List Outline

namespace Item

def all (items : List Item) : List Outline := items.flatMap outlines

-- those before the first label, and one part for each label
def splitGroups : List Item → List Outline × List Outline
  | [] => ([], [])
  | i :: is =>
    let (now, later) := splitGroups is
    if i.role = .label then ([], .part (i.outlines ++ now) :: later)
    else (i.outlines ++ now, later)

def groups (items : List Item) : List Outline :=
  let (now, later) := splitGroups items
  now ++ later

def first (items : List Item) : Item := items.headD ⟨.plain, []⟩

end Item

inductive Joint where
  | apart
  | label
  /-- The head goes on in the first item. -/
  | within
  | lambda
  | statement
  | choice
  | attempt
  | loop
  | otherwise
  | handler
  deriving DecidableEq, Repr

namespace Joint

def absorbed (is : List Item) : Joint → Nat
  | choice => (is.take 1).countP (·.role = .otherwise)
  | attempt => (is.takeWhile (·.role = .handler)).length
  | loop => 1
  | _ => 0

def join (head : List Outline) (is : List Item) (j : Joint) : List Item :=
  let first := Item.first is
  let parts := head ++ first.outlines ++ Item.all (is.tail.take (j.absorbed is.tail))
  let behind := is.tail.drop (j.absorbed is.tail)
  match j with
  | apart => ⟨.plain, head⟩ :: is
  | label => ⟨.label, head⟩ :: is
  | within => ⟨first.role, parts⟩ :: behind
  | lambda => ⟨.plain, [.lambda parts]⟩ :: behind
  | otherwise => ⟨.otherwise, parts⟩ :: behind
  | handler => ⟨.handler, [.part parts]⟩ :: behind
  | statement | choice | attempt | loop => ⟨.plain, [.part parts]⟩ :: behind

end Joint

inductive Place where
  | statements
  | members
  deriving DecidableEq, Repr

inductive Opening where
  | nothing
  | annotated
  /-- A keyword that parentheses follow. -/
  | keyword (j : Joint)
  deriving DecidableEq, Repr

inductive Behind where
  | other
  | parentheses
  | arrow
  | switch
  | selector
  deriving DecidableEq, Repr

inductive Stage where
  | statement (o : Opening)
  | annotationName
  /-- The label of a group of a switch, with the number of its conditional operators that wait for
  their colon. -/
  | label (conditionals : Nat)
  | returned
  | member (behindDot : Bool)
  | constant
  /-- The declaration of a type, up to its body. -/
  | type (place : Place) (kind : ClassKind)
  | expression (place : Place) (b : Behind)
  deriving DecidableEq, Repr

def Place.stage : Place → Stage
  | statements => .statement .nothing
  | members => .member false

def startsWith (s : String) : Forest → Bool
  | .nil => false
  | .leaf t _ | .group t _ _ _ => t.is s

def untilSemicolon : Forest → List Token
  | .nil => []
  | .leaf t rest => if t.is ";" then [] else t :: untilSemicolon rest
  | .group o inner c rest => o :: inner.tokens ++ c :: untilSemicolon rest

def returnedValue? (f : Forest) : Option Text :=
  match untilSemicolon f with
  | [] => none
  | t :: ts => some (Text.compact (Token.written (t :: ts)))

def namesRecord : Forest → Bool
  | .leaf name rest => name.isWord && (startsWith "(" rest || startsWith "<" rest)
  | _ => false

def declares? (t : Token) (rest : Forest) : Option ClassKind :=
  if t.is "class" then some .class
  else if t.is "interface" then some .interface
  else if t.is "@" && startsWith "interface" rest then some .annotationType
  else if t.is "enum" then some .enum
  else if t.is "record" && namesRecord rest then some .record
  else none

def isModifier (t : Token) : Bool :=
  t.is "final" || t.is "abstract" || t.is "static" || t.is "strictfp" || t.is "public" ||
    t.is "protected" || t.is "private"

def startsType : Forest → Bool
  | .leaf t _ => t.is "class" || t.is "interface" || t.is "@" || isModifier t
  | _ => false

def isSkipped (t : Token) (rest : Forest) : Bool :=
  isModifier t || t.is ":" || (t.is "sealed" && startsType rest) ||
    ((t.is "non" || t.is "-") && (startsWith "-" rest || startsWith "sealed" rest))

def guarded? (t : Token) : Option Joint :=
  if t.is "if" then some .choice
  else if t.is "while" || t.is "for" || t.is "synchronized" || t.is "switch" then some .statement
  else if t.is "try" then some .attempt
  else if t.is "catch" then some .handler
  else none

def leading? (t : Token) (rest : Forest) : Option Joint :=
  if t.is "else" then some .otherwise
  else if t.is "do" then some .loop
  else if t.is "finally" then some .handler
  else if t.is "try" then some .attempt
  else if t.isWord && startsWith ":" rest then some .statement
  else none

def Behind.token (t : Token) : Behind :=
  if t.is "->" then arrow else if t.is "switch" then switch else other

structure Step where
  joint : Joint
  head : List Outline
  next : Stage

namespace Stage

def hides (s : Stage) : Bool := s = returned

def skip (next : Stage) : Step := ⟨.within, [], next⟩

def stepStatement (o : Opening) (t : Token) (rest : Forest) : Step :=
  match declares? t rest with
  | some kind => skip (type .statements kind)
  | none =>
    if t.is ";" then ⟨.apart, [.part []], statement .nothing⟩
    else if t.is "@" || (o = .annotated && t.is ".") then skip annotationName
    else if isSkipped t rest then skip (statement .nothing)
    else if t.is "case" || t.is "default" then ⟨.label, [], label 0⟩
    else
      match if startsWith "(" rest then guarded? t else none with
      | some j => skip (statement (.keyword j))
      | none =>
        match leading? t rest with
        | some j => ⟨j, [], statement .nothing⟩
        | none => ⟨.statement, [], expression .statements (.token t)⟩

def stepLabel (conditionals : Nat) (t : Token) (rest : Forest) : Step :=
  if t.is "->" then skip (statement .nothing)
  else if t.is ":" then
    skip (if conditionals = 0 then statement .nothing else label (conditionals - 1))
  else if t.is "?" then
    -- a wildcard has no colon
    let isWildcard := startsWith ">" rest || startsWith "," rest || startsWith "extends" rest ||
      startsWith "super" rest
    skip (label (if isWildcard then conditionals else conditionals + 1))
  else skip (label conditionals)

def stepMember (behindDot : Bool) (t : Token) (rest : Forest) : Step :=
  match if behindDot then none else declares? t rest with
  | some kind => skip (type .members kind)
  | none =>
    if t.is "=" then ⟨.statement, [], expression .members .other⟩ else skip (member (t.is "."))

def stepExpression (place : Place) (t : Token) (rest : Forest) : Step :=
  if t.is ";" then ⟨.apart, [], place.stage⟩
  -- the body of a lambda without braces goes on to the end
  else if t.is "->" && !startsWith "\x7b" rest then ⟨.lambda, [], expression place .other⟩
  else skip (expression place (.token t))

def stepOn (t : Token) (rest : Forest) : Stage → Step
  | statement o => stepStatement o t rest
  | annotationName => skip (statement .annotated)
  | label conditionals => stepLabel conditionals t rest
  | returned => skip (if t.is ";" then statement .nothing else returned)
  | member behindDot => stepMember behindDot t rest
  | constant => skip (if t.is ";" then member false else constant)
  | type place kind => skip (type place kind)
  | expression place _ => stepExpression place t rest

def step (s : Stage) (t : Token) (rest : Forest) : Step :=
  if t.is "return" && !s.hides then ⟨.apart, [.returns (returnedValue? rest)], returned⟩
  else s.stepOn t rest

end Stage

inductive Shell where
  | none
  | part
  | lambda
  | type (kind : ClassKind)
  deriving DecidableEq, Repr

def Shell.wrap (is : List Item) : Shell → List Outline
  | none => []
  | part => [.part (Item.groups is)]
  | lambda => [.lambda (Item.groups is)]
  | type kind => [.type kind (Item.groups is)]

structure Entry where
  shell : Shell
  inside : Stage
  joint : Joint
  next : Stage

namespace Stage

def ofBody : ClassKind → Stage
  | .enum => constant
  | _ => member false

def enterBraces : Stage → Entry
  | returned => ⟨.none, returned, .within, returned⟩
  | member _ => ⟨.part, statement .nothing, .apart, member false⟩
  | constant => ⟨.type .class, member false, .apart, constant⟩
  | type place kind => ⟨.type kind, ofBody kind, .apart, place.stage⟩
  | expression place .parentheses =>
    ⟨.type .class, member false, .within, expression place .other⟩
  | expression place .arrow => ⟨.lambda, statement .nothing, .within, expression place .other⟩
  | expression place .selector => ⟨.part, statement .nothing, .within, expression place .other⟩
  | expression place _ =>
    ⟨.part, expression .statements .other, .within, expression place .other⟩
  | label conditionals => ⟨.part, expression .statements .other, .apart, label conditionals⟩
  | statement _ | annotationName => ⟨.part, statement .nothing, .apart, statement .nothing⟩

def enterOther (isParentheses : Bool) : Stage → Entry
  | returned => ⟨.none, returned, .within, returned⟩
  | statement (.keyword j) =>
    ⟨.part, expression .statements .other, j, statement .nothing⟩
  | statement .annotated | annotationName =>
    ⟨.part, expression .statements .other, .within, statement .nothing⟩
  | statement .nothing =>
    ⟨.part, expression .statements .other, .statement, expression .statements .other⟩
  | label conditionals => ⟨.part, expression .statements .other, .apart, label conditionals⟩
  | member _ => ⟨.part, expression .statements .other, .apart, member false⟩
  | constant => ⟨.part, expression .statements .other, .apart, constant⟩
  | type place kind => ⟨.part, expression .statements .other, .within, type place kind⟩
  | expression place b =>
    let behind : Behind :=
      if !isParentheses then .other else if b = .switch then .selector else .parentheses
    ⟨.part, expression .statements .other, .within, expression place behind⟩

def enter (s : Stage) (opening : Token) : Entry :=
  if opening.is "\x7b" then s.enterBraces else s.enterOther (opening.is "(")

end Stage

def items (s : Stage) : Forest → List Item
  | .nil => []
  | .leaf t rest => (s.step t rest).joint.join (s.step t rest).head (items (s.step t rest).next rest)
  | .group o inner _ rest =>
    (s.enter o).joint.join ((s.enter o).shell.wrap (items (s.enter o).inside inner))
      (items (s.enter o).next rest)

/-- The outline of the inside of a body. -/
def ofBody (inside : Forest) : Outline :=
  .part (Item.groups (items (.statement .nothing) inside))

end Outline
end Javadoc.Java
