import Javadoc.Text.Search

/-! Paths as text, and what they mean: two spellings of a path are the same path when they have the
same components. -/
namespace Javadoc.Path

instance : Std.TransOrd (List Text) := List.instTransOrd

instance : Std.LawfulEqOrd (List Text) := List.instLawfulEqOrd

def root : Text := ['/']

def here : Text := ['.']

def above : Text := ['.', '.']

/-- The components of a path. Empty pieces say nothing, and a single dot counts only at the start
of a relative path. -/
def components (path : Text) : List Text :=
  let pieces := Text.splitOnChar '/' path
  let names := pieces.filter fun p => !p.isEmpty && p != here
  if path.head? == some '/' then root :: names
  else if pieces.head? == some here then here :: names
  else names

def join (dir name : Text) : Text :=
  if dir.isEmpty || dir.getLast? == some '/' then dir ++ name else dir ++ '/' :: name

/-- Pieces in reverse, without those at the front that are no component. The piece that comes last
here is the first of the path. -/
def dropVoid : List Text → List Text
  | [] => []
  | [first] => if first.isEmpty then [] else [first]
  | piece :: earlier =>
    if piece.isEmpty || piece == here then dropVoid earlier else piece :: earlier

def relativeParent? (path : Text) : Option Text :=
  match dropVoid (Text.splitOnChar '/' path).reverse with
  | [] => none
  | _ :: earlier => some (Text.joinWith ['/'] (dropVoid earlier).reverse)

/-- A path without its last component, if it has one. Nothing is looked up for this, so a component
that leads upwards is dropped like any other. -/
def parent? : Text → Option Text
  | '/' :: rest => (relativeParent? rest).map fun parent => '/' :: parent
  | path => relativeParent? path

def same (p q : Text) : Bool := components p == components q

def fileName? (path : Text) : Option Text :=
  match (components path).getLast? with
  | some name => if name == root || name == here || name == above then none else some name
  | none => none

def javaSuffix : Text := ".java".toList

def isJava (path : Text) : Bool :=
  match fileName? path with
  | some name => javaSuffix.isSuffixOf name && name.length != javaSuffix.length
  | none => false

end Javadoc.Path
