import Javadoc.Toml.Node
import Javadoc.Toml.Quoted
import Javadoc.Toml.Scalar

/-! A configuration text is a list of statements, at most one a line: a key with its value, the
header of a table, or the header of one table of several. Statements one after the other make up
the table of the whole text. -/
namespace Javadoc.Toml

inductive Statement where
  | pair (key : Key) (value : Node)
  | table (key : Key)
  | element (key : Key)

def depthLimit : Nat := 80

def skipComment : Text → Text
  | '#' :: rest => rest.dropWhile isPlain
  | t => t

def afterLine? (t : Text) : Option Text :=
  match skipComment (skipGaps t) with
  | [] => some []
  | rest => afterBreak? rest

/-- The text without the gaps, comments and line endings at its front. The first argument bounds
their number. -/
def skipLines : Nat → Text → Text
  | 0, t => t
  | n + 1, t =>
    match skipBreaks t with
    | '#' :: rest =>
      match afterBreak? (rest.dropWhile isPlain) with
      | some more => skipLines n more
      | none => '#' :: rest
    | t => t

def skipVoid (t : Text) : Text := skipLines t.length t

def isKeyChar (c : Char) : Bool := c.isAlphanum || c == '_' || c == '-'

def readName : Text → Option (Text × Text)
  | '"' :: rest => readBasic rest
  | '\'' :: rest => readLiteral rest
  | t =>
    match t.takeWhile isKeyChar with
    | [] => none
    | name => some (name, t.dropWhile isKeyChar)

def readNames (t : Text) : Option (List Text × Text) :=
  match readName (skipGaps t) with
  | none => none
  | some (name, rest) =>
    match skipGaps rest with
    | '.' :: more =>
      if more.length < t.length then (readNames more).map fun (names, rest) => (name :: names, rest)
      else none
    | rest => some ([name], rest)
termination_by t.length

def readKey (t : Text) : Option (Key × Text) :=
  match readNames t with
  | none => none
  | some (names, rest) =>
    match names.getLast? with
    | some name => if names.length < depthLimit then some (⟨names.dropLast, name⟩, rest) else none
    | none => none

def readPair (value : Text → Option (Node × Text)) (t : Text) : Option ((Key × Node) × Text) :=
  match readKey t with
  | some (key, '=' :: rest) => (value (skipGaps rest)).map fun (v, rest) => ((key, v), rest)
  | _ => none

def readItems (value : Text → Option (Node × Text)) (t : Text) : Option (List Node × Text) :=
  match t with
  | ']' :: rest => some ([], rest)
  | t =>
    match value t with
    | none => none
    | some (v, rest) =>
      match skipVoid rest with
      | ']' :: rest => some ([v], rest)
      | ',' :: more =>
        if (skipVoid more).length < t.length then
          (readItems value (skipVoid more)).map fun (items, rest) => (v :: items, rest)
        else none
      | _ => none
termination_by t.length

def readPairs (value : Text → Option (Node × Text)) (t : Text) :
    Option (List (Key × Node) × Text) :=
  match readPair value t with
  | none => none
  | some (pair, rest) =>
    match skipGaps rest with
    | '\x7d' :: rest => some ([pair], rest)
    | ',' :: more =>
      if more.length < t.length then
        (readPairs value more).map fun (pairs, rest) => (pair :: pairs, rest)
      else none
    | _ => none
termination_by t.length

def readScalar (t : Text) : Option (Node × Text) :=
  match unquote? t with
  | some (s, rest) => some (.string s, rest)
  | none =>
    let token := t.takeWhile Scalar.isInside
    let rest := t.dropWhile Scalar.isInside
    if token == "true".toList then some (.boolean true, rest)
    else if token == "false".toList then some (.boolean false, rest)
    else (Scalar.after? t).map fun rest => (.other, rest)

def readValue : Nat → Text → Option (Node × Text)
  | depth + 1, '[' :: rest =>
    (readItems (readValue depth) (skipVoid rest)).map fun (items, rest) => (.array items, rest)
  | depth + 1, '\x7b' :: rest =>
    match skipGaps rest with
    | '\x7d' :: rest => some (.table .inline [], rest)
    | rest =>
      match readPairs (readValue depth) rest with
      | none => none
      | some (pairs, rest) =>
        (Entries.ofPairs? pairs).map fun entries => (.table .inline entries, rest)
  | _, t => readScalar t

def readStatement : Text → Option (Statement × Text)
  | '[' :: '[' :: rest =>
    match readKey rest with
    | some (key, ']' :: ']' :: rest) => some (.element key, rest)
    | _ => none
  | '[' :: rest =>
    match readKey rest with
    | some (key, ']' :: rest) => some (.table key, rest)
    | _ => none
  | t => (readPair (readValue (depthLimit - 1)) t).map fun ((key, v), rest) => (.pair key v, rest)

def readLine (t : Text) : Option (Option Statement × Text) :=
  match afterLine? t with
  | some rest => some (none, rest)
  | none =>
    match readStatement (skipGaps t) with
    | some (s, rest) => (afterLine? rest).map fun rest => (some s, rest)
    | none => none

def readStatements (t : Text) : Option (List Statement) :=
  if t.isEmpty then some []
  else
    match readLine t with
    | none => none
    | some (s?, rest) =>
      if rest.length < t.length then (readStatements rest).map fun ss => s?.toList ++ ss else none
termination_by t.length

/-- What statements have made up so far: the table of the whole text, and the path of the table that
was opened last. -/
structure Outline where
  current : List Text := []
  entries : Entries := []

namespace Outline

def add (o : Outline) : Statement → Option Outline
  | .pair key value =>
    (Entries.changeAt false (fun _ => Entries.addPair key value) o.current .header o.entries).map
      fun entries => { o with entries }
  | .table key => (Entries.openTable key o.entries).map fun entries => ⟨key.names, entries⟩
  | .element key => (Entries.openElement key o.entries).map fun entries => ⟨key.names, entries⟩

end Outline

def Entries.ofText? (t : Text) : Option Entries :=
  let t := match t with
    | '\uFEFF' :: rest => rest
    | t => t
  match readStatements t with
  | none => none
  | some statements => (statements.foldlM Outline.add {}).map (·.entries)

end Javadoc.Toml
