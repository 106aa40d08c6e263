import Javadoc.Declaration.Basic

/-! What can be asked of a declaration: the role and the parameters of a method, a field by its
name, and the dotted path of every type in a tree of nested types. -/
namespace Javadoc

namespace Parameter

def render (p : Parameter) : Text := p.type ++ ' ' :: p.name

end Parameter

namespace Method

def arity (m : Method) : Nat := m.parameters.length

def role (m : Method) : Role := Role.ofSignature m.name m.arity m.isConstructor

def takes (m : Method) (name : Text) : Bool := m.parameters.any fun p => p.name == name

def parameterText (m : Method) : Text :=
  Text.joinWith ", ".toList (m.parameters.map Parameter.render)

/-- The body up to layout: every run of blanks is one space. -/
def flatBody? (m : Method) : Option Text := m.body?.map Text.collapse

end Method

namespace ClassInfo

/-- The first field with the given name, letter case of ASCII letters aside. -/
def findField? (own : ClassInfo) (name : Text) : Option Field :=
  own.fields.find? fun field => Text.eqIgnoreCase field.name name

end ClassInfo

namespace ClassDecl

/-- The path of a type called `name` inside the type at path `outer`; top-level types have an
empty outer path. -/
def pathIn (outer name : Text) : Text :=
  if outer.isEmpty then name else outer ++ '.' :: name

mutual

def withPathsFrom (outer : Text) : ClassDecl → List (Text × ClassInfo)
  | mk own nested => (pathIn outer own.name, own) :: withPathsEach (pathIn outer own.name) nested

def withPathsEach (outer : Text) : List ClassDecl → List (Text × ClassInfo)
  | [] => []
  | c :: cs => withPathsFrom outer c ++ withPathsEach outer cs

end

/-- The type and the types nested in it, depth first, each with its dotted path. -/
def withPaths (c : ClassDecl) : List (Text × ClassInfo) := withPathsFrom [] c

end ClassDecl
end Javadoc
