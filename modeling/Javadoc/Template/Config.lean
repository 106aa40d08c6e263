import Javadoc.Template.Directive
import Javadoc.Error

/-! The template configuration: one template for each scope, one for each role of a method, and
named templates for all other methods. -/
namespace Javadoc

inductive Scope where
  | classes
  | fields
  | constructors
  | methods
  deriving DecidableEq, Repr

namespace Scope

def all : List Scope := [classes, fields, constructors, methods]

def key : Scope → Text
  | classes => "Classes".toList
  | fields => "Fields".toList
  | constructors => "Constructors".toList
  | methods => "Methods".toList

def ofKey? (key : Text) : Option Scope := all.find? fun scope => scope.key == key

end Scope

structure RoleTemplates where
  hashCode : Option Text := none
  equals : Option Text := none
  clone : Option Text := none
  stringForm : Option Text := none
  getter : Option Text := none
  setter : Option Text := none
  deriving DecidableEq, Repr

namespace RoleTemplates

def get? (roles : RoleTemplates) : Role → Option Text
  | .hashCode => roles.hashCode
  | .equals => roles.equals
  | .clone => roles.clone
  | .stringForm => roles.stringForm
  | .accessor => roles.getter
  | .mutator => roles.setter
  | .constructorLike | .custom => none

def set (roles : RoleTemplates) (value : Option Text) : Role → RoleTemplates
  | .hashCode => { roles with hashCode := value }
  | .equals => { roles with equals := value }
  | .clone => { roles with clone := value }
  | .stringForm => { roles with stringForm := value }
  | .accessor => { roles with getter := value }
  | .mutator => { roles with setter := value }
  | .constructorLike | .custom => roles

end RoleTemplates

structure CustomTemplate where
  name : Text
  template : Text
  deriving DecidableEq, Repr

structure SelectedTemplate where
  name : Text
  body : Text
  deriving DecidableEq, Repr

namespace CustomTemplate

def select? (templates : List CustomTemplate) (m : Method) : Option SelectedTemplate :=
  (templates.find? fun t => (CustomBody.ofTemplate t.template).accepts t.name m).map
    fun t => ⟨t.name, (CustomBody.ofTemplate t.template).body⟩

end CustomTemplate

/-- The whole configuration. A scope without a template is switched off; that of the methods is
only a switch, since roles and custom templates give the text. -/
structure Templates where
  classes : Option Text := none
  fields : Option Text := none
  constructors : Option Text := none
  methods : Option Text := none
  roles : RoleTemplates := {}
  custom : List CustomTemplate := []
  /-- Whether roles without a template get the default one. -/
  defaultForMissingRoles : Bool := false
  deriving DecidableEq, Repr

namespace Templates

def emptyComment : Text := "/**\n *\n */".toList

/-- The configuration used where none is given: every scope and every role has a template. -/
def standard : Templates where
  classes := some "/**\n * The \x7b@code <className>\x7d class\n */".toList
  fields := some "/**\n * \x7b@code <instance>\x7d\n */".toList
  constructors := some
    "/**\n * Constructor to init the \x7b@link <className>\x7d class\n *\n * <params>\n */".toList
  methods := some emptyComment
  roles :=
    { hashCode := some
        "/**\n * Returns a hash code value for the object\n *\n * @return hash code of the object as int\n */".toList
      equals := some
        "/**\n * Indicates whether some other object is equal to this one\n *\n * <params>\n * @return whether the objects are equal as boolean\n */".toList
      clone := some
        "/**\n * Creates and returns a copy of this object\n *\n * @return a copy as \x7b@link <returnType>\x7d\n */".toList
      stringForm := some
        "/**\n * Returns a string representation of the object\n *\n * @return a string representation as \x7b@link String\x7d\n */".toList
      getter := some
        "/**\n * Method to get \x7b@link #<instance>\x7d\n *\n * @return \x7b@link #<instance>\x7d instance as \x7b@link <returnType>\x7d\n */".toList
      setter := some
        "/**\n * Method to set \x7b@link #<instance>\x7d\n *\n * <params>\n */".toList }

def scope? (t : Templates) : Scope → Option Text
  | .classes => t.classes
  | .fields => t.fields
  | .constructors => t.constructors
  | .methods => t.methods

def setScope (t : Templates) (value : Option Text) : Scope → Templates
  | .classes => { t with classes := value }
  | .fields => { t with fields := value }
  | .constructors => { t with constructors := value }
  | .methods => { t with methods := value }

/-- The template that methods of a role are documented from. Constructors take that of their
scope, and custom methods have none here. -/
def role? (t : Templates) (role : Role) : Option Text :=
  match role with
  | .constructorLike => t.constructors
  | .custom => none
  | role =>
    match t.roles.get? role with
    | some template => some template
    | none => if t.defaultForMissingRoles then some emptyComment else none

def custom? (t : Templates) (name : Text) : Option CustomTemplate :=
  t.custom.find? fun c => c.name == name

/-- The first fault among custom templates, given the names before them: a blank name, or a name
used before. -/
def customFault? (seen : List Text) : List CustomTemplate → Option ConfigFault
  | [] => none
  | c :: cs =>
    if (Text.trim c.name).isEmpty then some .emptyName
    else if seen.contains c.name then some (.duplicateName c.name)
    else customFault? (c.name :: seen) cs

/-- Refuses configurations whose custom templates have blank or repeated names. -/
def validate (t : Templates) : Except Error Unit :=
  match customFault? [] t.custom with
  | some fault => .error (.invalidConfig fault)
  | none => .ok ()

end Templates
end Javadoc
