import Javadoc.Edit
import Javadoc.Files.Path
import Javadoc.OrderedMap

/-! Files and directories in memory. What a path leads to is found step by step, as directories lead
to what they hold; reading and writing go through such paths. -/
namespace Javadoc

abbrev Location := List Text

inductive Content where
  | text (t : Text)
  /-- Bytes that are no text. -/
  | bytes
  deriving DecidableEq, Repr

inductive Item where
  | file (content : Content)
  | directory
  deriving DecidableEq, Repr

structure FileTree where
  items : OrderedMap Location Item := .empty
  home : Location := []
  deriving DecidableEq

namespace FileTree

def item? (tree : FileTree) (at_ : Location) : Option Item :=
  if at_.isEmpty then some .directory else tree.items.get? at_

def step (tree : FileTree) (at_ : Location) (piece : Text) : Except ReadFault Location :=
  if tree.item? at_ != some .directory then .error .underFile
  else if piece.isEmpty || piece == Path.here then .ok at_
  else if piece == Path.above then .ok at_.dropLast
  else if (tree.item? (at_ ++ [piece])).isSome then .ok (at_ ++ [piece])
  else .error .missing

def locate (tree : FileTree) (path : Text) : Except ReadFault Location :=
  match path with
  | [] => .error .missing
  | '/' :: rest => (Text.splitOnChar '/' rest).foldlM tree.step []
  | path => (Text.splitOnChar '/' path).foldlM tree.step tree.home

def find? (tree : FileTree) (path : Text) : Option Item :=
  match tree.locate path with
  | .ok at_ => tree.item? at_
  | .error _ => none

def contains (tree : FileTree) (path : Text) : Bool := (tree.find? path).isSome

def isFile (tree : FileTree) (path : Text) : Bool :=
  match tree.find? path with
  | some (.file _) => true
  | _ => false

def isDirectory (tree : FileTree) (path : Text) : Bool := tree.find? path == some .directory

def read (tree : FileTree) (path : Text) : Except ReadFault Text :=
  match tree.locate path with
  | .error fault => .error fault
  | .ok at_ =>
    match tree.item? at_ with
    | some (.file (.text t)) => .ok t
    | some (.file .bytes) => .error .notUnicode
    | some .directory => .error .isDirectory
    | none => .error .missing

def document (tree : FileTree) (path : Text) : Except Error Document :=
  if tree.isFile path then
    match tree.read path with
    | .ok text => .ok ⟨path, text⟩
    | .error fault => .error (.unreadable fault)
  else .error (.fileNotFound path)

def save (tree : FileTree) (d : Document) : FileTree :=
  match tree.locate d.path with
  | .ok at_ => { tree with items := tree.items.insert at_ (.file (.text d.text)) }
  | .error _ => tree

def outward (at_ : Location) : List Location :=
  (List.range (at_.length + 1)).map fun n => at_.take (at_.length - n)

def put (tree : FileTree) (at_ : Location) (item : Item) : FileTree :=
  let missing := (outward at_.dropLast).filter fun dir => (tree.item? dir).isNone
  let items := missing.foldl (fun items dir => items.insert dir .directory) tree.items
  { tree with items := items.insert at_ item }

def remove (tree : FileTree) (at_ : Location) : FileTree :=
  let gone := (tree.items.entries.map (·.1)).filter fun other => at_.isPrefixOf other
  { tree with items := gone.foldl (fun items other => items.erase other) tree.items }

end FileTree
end Javadoc
