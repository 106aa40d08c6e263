import Javadoc.Text.Basic

/-! The values of a configuration text, and its tables. A table may be written in several places,
but only in the ways that its origin allows; whatever is defined twice is refused. -/
namespace Javadoc.Toml

inductive Origin where
  /-- By a header of its own. -/
  | header
  /-- By the header of a table further inside. -/
  | implied
  /-- By a dotted key. -/
  | dotted
  /-- By a value in braces, which is complete as it stands. -/
  | inline
  deriving DecidableEq, Repr

inductive Node where
  | string (text : Text)
  | boolean (value : Bool)
  | other
  | array (items : List Node)
  /-- An array of tables that have a header each. -/
  | tables (elements : List (List (Text × Node)))
  | table (origin : Origin) (entries : List (Text × Node))

abbrev Entries := List (Text × Node)

structure Key where
  parents : List Text
  name : Text
  deriving DecidableEq, Repr

def Key.names (key : Key) : List Text := key.parents ++ [key.name]

namespace Entries

def set (name : Text) (value : Node) : Entries → Entries
  | [] => [(name, value)]
  | (n, v) :: rest => if n = name then (name, value) :: rest else (n, v) :: set name value rest

/-- Changes the table that `path` leads to by `f`, which is told how the table came to be. Tables on
the way that do not exist are made. With `dotted` the path is part of a key, and then it may not lead
into tables that have a header. A path leads into the last of several tables. -/
def changeAt (dotted : Bool) (f : Origin → Entries → Option Entries) :
    List Text → Origin → Entries → Option Entries
  | [], origin, entries => f origin entries
  | name :: path, _, entries =>
    match entries.lookup name with
    | none =>
      let origin := if dotted then .dotted else .implied
      (changeAt dotted f path origin []).map fun inner => set name (.table origin inner) entries
    | some (.table origin inner) =>
      if origin == .inline || (dotted && origin == .header) then none
      else
        (changeAt dotted f path origin inner).map fun inner =>
          set name (.table origin inner) entries
    | some (.tables elements) =>
      match elements.getLast? with
      | none => none
      | some last =>
        (changeAt dotted f path .header last).map fun inner =>
          set name (.tables (elements.dropLast ++ [inner])) entries
    | some _ => none

/-- Adds a value under a key. The tables that the key leads through are its own, made by dotted
keys alone. -/
def addPair (key : Key) (value : Node) (entries : Entries) : Option Entries :=
  changeAt true
    (fun origin entries =>
      if (origin == .dotted) == key.parents.isEmpty then none
      else if (entries.lookup key.name).isSome then none
      else some (entries ++ [(key.name, value)]))
    key.parents .header entries

def openTable (key : Key) (entries : Entries) : Option Entries :=
  changeAt false
    (fun _ entries =>
      match entries.lookup key.name with
      | none => some (entries ++ [(key.name, .table .header [])])
      | some (.table .implied inner) => some (set key.name (.table .header inner) entries)
      | some _ => none)
    key.parents .header entries

def openElement (key : Key) (entries : Entries) : Option Entries :=
  changeAt false
    (fun _ entries =>
      match entries.lookup key.name with
      | none => some (entries ++ [(key.name, .tables [[]])])
      | some (.tables elements) => some (set key.name (.tables (elements ++ [[]])) entries)
      | some _ => none)
    key.parents .header entries

def ofPairs? (pairs : List (Key × Node)) : Option Entries :=
  pairs.foldlM (fun entries (key, value) => addPair key value entries) []

end Entries
end Javadoc.Toml
