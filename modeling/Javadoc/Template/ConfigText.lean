import Javadoc.Template.Config
import Javadoc.Toml.Statement

/-! Template configurations as text: how one is written, and how one is read. -/
namespace Javadoc
open Toml

def Scope.settingName : Scope → Text
  | .classes => "classes".toList
  | .fields => "fields".toList
  | .constructors => "constructors".toList
  | .methods => "methods".toList

/-- The roles with a template of their own, in the order in which they are written, with the names
of their templates. -/
def RoleTemplates.settingNames : List (Role × Text) :=
  [(.hashCode, "hash_code".toList), (.equals, "equals".toList), (.clone, "clone".toList),
    (.stringForm, "to_string".toList), (.accessor, "getter".toList), (.mutator, "setter".toList)]

namespace ConfigText

def rolesName : Text := "roles".toList

def customName : Text := "custom".toList

def optionsName : Text := "options".toList

def entryName : Text := "name".toList

def entryTemplate : Text := "template".toList

def missingName : Text := "default_for_missing_roles".toList

def truthName (b : Bool) : Text := if b then "true".toList else "false".toList

/-! ## Writing -/

def setting (name value : Text) : Text := name ++ " = ".toList ++ value ++ ['\n']

def setting? (name : Text) (template? : Option Text) : Text :=
  match template? with
  | some template => setting name (quote template)
  | none => []

/-- The lines before the first header: the templates of scopes, and the list of custom templates if
it is empty. -/
def topPart (t : Templates) : Text :=
  (Scope.all.flatMap fun s => setting? s.settingName (t.scope? s)) ++
    if t.custom.isEmpty then setting customName ['[', ']'] else []

def rolesPart (roles : RoleTemplates) : Text :=
  '[' :: rolesName ++ [']', '\n'] ++
    RoleTemplates.settingNames.flatMap fun (role, name) => setting? name (roles.get? role)

def customPart (c : CustomTemplate) : Text :=
  '[' :: '[' :: customName ++ [']', ']', '\n'] ++ setting entryName (quote c.name) ++
    setting entryTemplate (quote c.template)

def optionsPart (defaultForMissingRoles : Bool) : Text :=
  '[' :: optionsName ++ [']', '\n'] ++ setting missingName (truthName defaultForMissingRoles)

def parts (t : Templates) : List Text :=
  topPart t :: rolesPart t.roles :: t.custom.map customPart ++ [optionsPart t.defaultForMissingRoles]

/-! ## Reading -/

/-- The values of a record by their names. It may be given as a table, where `closed` forbids other
names, or as an array with its values in the order of the names. -/
def record? (names : List Text) (closed : Bool) : Node → Option (Text → Option Node)
  | .table _ entries =>
    if closed && entries.any (fun e => !names.contains e.1) then none
    else some fun name => entries.lookup name
  | .array items => some fun name => items[names.idxOf name]?
  | .tables elements => some fun name => elements[names.idxOf name]?.map (.table .header)
  | _ => none

def optionalText? : Option Node → Option (Option Text)
  | none => some none
  | some (.string t) => some (some t)
  | some _ => none

def readRoles : Option Node → Option RoleTemplates
  | none => some {}
  | some node => do
    let value ← record? (RoleTemplates.settingNames.map (·.2)) true node
    RoleTemplates.settingNames.foldlM
      (fun roles (role, name) => (optionalText? (value name)).map fun t => roles.set t role) {}

def readEntry (node : Node) : Option CustomTemplate := do
  let value ← record? [entryName, entryTemplate] false node
  match value entryName, value entryTemplate with
  | some (.string name), some (.string template) => some ⟨name, template⟩
  | _, _ => none

def readCustom : Option Node → Option (List CustomTemplate)
  | none => some []
  | some (.array items) => items.mapM readEntry
  | some (.tables elements) => elements.mapM fun entries => readEntry (.table .header entries)
  | some _ => none

def readOptions : Option Node → Option Bool
  | none => some false
  | some node => do
    let value ← record? [missingName] true node
    match value missingName with
    | none => some false
    | some (.boolean b) => some b
    | some _ => none

def allNames : List Text :=
  Scope.all.map Scope.settingName ++ [rolesName, customName, optionsName]

def readTemplates (entries : Entries) : Option Templates := do
  let value ← record? allNames true (.table .header entries)
  let scopes ← Scope.all.foldlM
    (fun t s => (optionalText? (value s.settingName)).map fun v => Templates.setScope t v s) {}
  let roles ← readRoles (value rolesName)
  let custom ← readCustom (value customName)
  let defaultForMissingRoles ← readOptions (value optionsName)
  some { scopes with roles, custom, defaultForMissingRoles }

end ConfigText

namespace Templates

/-- Writes a configuration. An empty line stands between its parts. -/
def toConfigText (t : Templates) : Text :=
  Text.joinLines ((ConfigText.parts t).filter fun part => !part.isEmpty)

def ofConfigText? (text : Text) : Option Templates := do
  ConfigText.readTemplates (← Entries.ofText? text)

/-- Reads a configuration, and refuses one that is not valid. -/
def ofConfigText (text : Text) : Except Error Templates :=
  match ofConfigText? text with
  | none => .error (.invalidConfig .syntaxFault)
  | some t =>
    match t.validate with
    | .ok () => .ok t
    | .error e => .error e

end Templates
end Javadoc
