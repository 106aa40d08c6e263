import Javadoc.Text.Case

/-! The role of a method, which selects the template that documents it. It depends on the name,
the number of parameters and whether the method is a constructor, and on nothing else. -/
namespace Javadoc

inductive Role where
  | constructorLike
  | hashCode
  | equals
  | clone
  | stringForm
  | accessor
  | mutator
  | custom
  deriving DecidableEq, Repr

namespace Role

def all : List Role :=
  [constructorLike, hashCode, equals, clone, stringForm, accessor, mutator, custom]

def name : Role → Text
  | constructorLike => "constructor".toList
  | hashCode => "hashCode".toList
  | equals => "equals".toList
  | clone => "clone".toList
  | stringForm => "toString".toList
  | accessor => "getter".toList
  | mutator => "setter".toList
  | custom => "custom".toList

/-- The key that the template of a role is stored under. Constructors are documented from the
template of their scope and custom methods from named templates, so they have none. -/
def key? : Role → Option Text
  | hashCode => some "HASH_CODE".toList
  | equals => some "EQUALS".toList
  | clone => some "CLONE".toList
  | stringForm => some "TO_STRING".toList
  | accessor => some "GETTER".toList
  | mutator => some "SETTER".toList
  | constructorLike => none
  | custom => none

def ofKey? (key : Text) : Option Role := all.find? fun role => role.key? == some key

def normalize (name : Text) : Text := Text.upper (name.filter (· != '_'))

inductive Rule where
  /-- Every constructor. -/
  | constructor
  /-- A normalized name, whatever the parameters are. -/
  | exactly (name : Text)
  /-- The start of a normalized name, for a number of parameters. -/
  | startingWith (starts : List Text) (arity : Nat)

def Rule.accepts (rule : Rule) (normalized : Text) (arity : Nat) (isConstructor : Bool) : Bool :=
  match rule with
  | .constructor => isConstructor
  | .exactly name => normalized == name
  | .startingWith starts count => arity == count && starts.any (·.isPrefixOf normalized)

def rules : List (Rule × Role) :=
  [(.constructor, constructorLike),
   (.exactly "HASHCODE".toList, hashCode),
   (.exactly "EQUALS".toList, equals),
   (.exactly "CLONE".toList, clone),
   (.exactly "TOSTRING".toList, stringForm),
   (.startingWith ["GET".toList, "IS".toList, "ARE".toList, "CAN".toList, "HAS".toList,
      "HAVE".toList] 0, accessor),
   (.startingWith ["SET".toList] 1, mutator)]

def ofSignature (name : Text) (arity : Nat) (isConstructor : Bool) : Role :=
  match rules.find? fun (rule, _) => rule.accepts (normalize name) arity isConstructor with
  | some (_, role) => role
  | none => custom

end Role
end Javadoc
