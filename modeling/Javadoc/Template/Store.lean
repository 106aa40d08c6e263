import Javadoc.Template.Config

/-! A template configuration as a store under text keys: scopes, then roles, then custom templates
under their name behind a common start. -/
namespace Javadoc

inductive StoreKey where
  | scope (scope : Scope)
  | role (role : Role)
  | custom (name : Text)
  deriving DecidableEq, Repr

namespace StoreKey

def customStart : Text := "CUSTOM".toList

def ofText? (key : Text) : Option StoreKey :=
  match Scope.ofKey? key with
  | some s => some (.scope s)
  | none =>
    match Role.ofKey? key with
    | some r => some (.role r)
    | none =>
      match Text.stripPrefix? customStart key with
      | some name => if name.isEmpty then none else some (.custom name)
      | none => none

end StoreKey

namespace Templates

def get? (t : Templates) (key : Text) : Option Text :=
  match StoreKey.ofText? key with
  | none => none
  | some (.scope s) => t.scope? s
  | some (.role r) => t.roles.get? r
  | some (.custom name) => (t.custom? name).map (·.template)

def putCustom (name template : Text) : List CustomTemplate → List CustomTemplate
  | [] => [⟨name, template⟩]
  | c :: cs => if c.name = name then { c with template } :: cs else c :: putCustom name template cs

def eraseCustom (name : Text) : List CustomTemplate → List CustomTemplate
  | [] => []
  | c :: cs => if c.name = name then cs else c :: eraseCustom name cs

def put (t : Templates) (key template : Text) : Except Error Templates :=
  match StoreKey.ofText? key with
  | none => .error (.invalidConfig (.unknownKey key))
  | some (.scope s) => .ok (t.setScope (some template) s)
  | some (.role r) => .ok { t with roles := t.roles.set (some template) r }
  | some (.custom name) => .ok { t with custom := putCustom name template t.custom }

def remove (t : Templates) (key : Text) : Option Text × Templates :=
  match StoreKey.ofText? key with
  | none => (none, t)
  | some (.scope s) => (t.scope? s, t.setScope none s)
  | some (.role r) => (t.roles.get? r, { t with roles := t.roles.set none r })
  | some (.custom name) =>
    ((t.custom? name).map (·.template), { t with custom := eraseCustom name t.custom })

def keys (t : Templates) : List Text :=
  (Scope.all.filter fun s => (t.scope? s).isSome).map Scope.key ++
    (Role.all.filter fun r => (t.roles.get? r).isSome).filterMap Role.key? ++
    t.custom.map fun c => StoreKey.customStart ++ c.name

def removeMethodTemplates (t : Templates) : Templates :=
  { t with methods := none, roles := {}, custom := [] }

end Templates
end Javadoc
