import Javadoc.Text.Search

/-! Commands, and how they are read from arguments. Every command takes one path and some switches,
in any order; after a double dash no argument is a switch. -/
namespace Javadoc.CommandLine

inductive Command where
  | apply (path : Text) (config? : Option Text) (dryRun : Bool)
  | sync (file baseline : Text) (dryRun : Bool)
  | watch (dir : Text)
  | help
  | version
  deriving DecidableEq, Repr

inductive Switch where
  | config
  | baseline
  | dryRun
  deriving DecidableEq, Repr

namespace Switch

def long : Switch → Text
  | config => "config".toList
  | baseline => "baseline".toList
  | dryRun => "dry-run".toList

def short? : Switch → Option Char
  | config => some 'c'
  | baseline => some 'b'
  | dryRun => none

def takesPath : Switch → Bool
  | dryRun => false
  | _ => true

end Switch

structure Arguments where
  path? : Option Text := none
  switches : List (Switch × Text) := []
  deriving DecidableEq, Repr

namespace Arguments

def addPath (a : Arguments) (path : Text) : Option Arguments :=
  if path.isEmpty || a.path?.isSome then none else some { a with path? := some path }

def addPaths (a : Arguments) (paths : List Text) : Option Arguments := paths.foldlM addPath a

def addSwitch (a : Arguments) (switch : Switch) (path : Text) : Option Arguments :=
  if (a.switches.lookup switch).isSome || (switch.takesPath && path.isEmpty) then none
  else some { a with switches := a.switches ++ [(switch, path)] }

def has (a : Arguments) (switch : Switch) : Bool := (a.switches.lookup switch).isSome

def pathOf? (a : Arguments) (switch : Switch) : Option Text := a.switches.lookup switch

end Arguments

inductive Argument where
  | operand (path : Text)
  /-- A switch, with the path that is written in the same argument. -/
  | dashed (switch : Switch) (path? : Option Text)
  | help
  /-- All arguments that follow are paths. -/
  | endOfSwitches
  | unknown
  deriving DecidableEq, Repr

namespace Argument

def isDashed (arg : Text) : Bool := arg.head? == some '-' && arg != ['-']

def ofSwitch (switch : Switch) (path? : Option Text) : Argument :=
  if switch.takesPath || path?.isNone then .dashed switch path? else .unknown

def ofLong (known : List Switch) (t : Text) : Argument :=
  let name := t.takeWhile (· != '=')
  let path? :=
    match t.dropWhile (· != '=') with
    | [] => none
    | _ :: path => some path
  if name == "help".toList then if path?.isNone then .help else .unknown
  else
    match known.find? fun switch => switch.long == name with
    | some switch => ofSwitch switch path?
    | none => .unknown

def ofShort (known : List Switch) (c : Char) (rest : Text) : Argument :=
  if c = 'h' then .help
  else
    match known.find? fun switch => switch.short? == some c with
    | some switch =>
      match rest with
      | [] => ofSwitch switch none
      | '=' :: path => ofSwitch switch (some path)
      | path => ofSwitch switch (some path)
    | none => .unknown

def ofText (known : List Switch) : Text → Argument
  | ['-', '-'] => .endOfSwitches
  | '-' :: '-' :: t => ofLong known t
  | '-' :: c :: rest => ofShort known c rest
  | path => .operand path

end Argument

inductive Request where
  | help
  | arguments (a : Arguments)
  deriving DecidableEq, Repr

def readArguments (known : List Switch) (a : Arguments) : List Text → Option Request
  | [] => some (.arguments a)
  | arg :: rest =>
    match Argument.ofText known arg with
    | .operand path =>
      match a.addPath path with
      | some a => readArguments known a rest
      | none => none
    | .endOfSwitches => (a.addPaths rest).map .arguments
    | .help => some .help
    | .unknown => none
    | .dashed switch (some path) =>
      match a.addSwitch switch path with
      | some a => readArguments known a rest
      | none => none
    | .dashed switch none =>
      if switch.takesPath then
        match rest with
        | [] => none
        | path :: rest =>
          if Argument.isDashed path then none
          else
            match a.addSwitch switch path with
            | some a => readArguments known a rest
            | none => none
      else
        match a.addSwitch switch [] with
        | some a => readArguments known a rest
        | none => none

namespace Command

def names : List Text := ["apply".toList, "sync".toList, "watch".toList, "help".toList]

def ofArguments? (known : List Switch) (make : Arguments → Text → Option Command)
    (args : List Text) : Option Command :=
  match readArguments known {} args with
  | some .help => some .help
  | some (.arguments a) => a.path?.bind (make a)
  | none => none

def ofArgs? : List Text → Option Command
  | [] => none
  | first :: rest =>
    if first == "--version".toList || "-V".toList.isPrefixOf first then some .version
    else if first == "--help".toList || "-h".toList.isPrefixOf first then some .help
    else if first == "help".toList then
      if rest.isEmpty || (rest.length == 1 && rest.all names.contains) then some .help else none
    else if first == "apply".toList then
      ofArguments? [.config, .dryRun]
        (fun a path => some (.apply path (a.pathOf? .config) (a.has .dryRun))) rest
    else if first == "sync".toList then
      ofArguments? [.baseline, .dryRun]
        (fun a file => (a.pathOf? .baseline).map fun old => .sync file old (a.has .dryRun)) rest
    else if first == "watch".toList then ofArguments? [] (fun _ dir => some (.watch dir)) rest
    else none

end Command
end Javadoc.CommandLine
