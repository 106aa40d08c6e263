import Javadoc.Sync.Entry
import Javadoc.Java.Member
import Javadoc.Edit
import Javadoc.Files.Path

/-! The synchronizer of one type: it remembers the descriptions of the fields, and when they change
it updates the entries of constructors and setters that were made from them. -/
namespace Javadoc

/-- Which type is followed: a top-level type and the file it is in. -/
structure Container where
  path : Text
  name : Text
  deriving DecidableEq, Repr

/-- Whether both are the same type, however their paths are spelled. -/
def Container.same (c d : Container) : Bool := Path.same c.path d.path && c.name == d.name

/-- A stretch of a source text that belongs to one type, nested types left out. -/
structure Segment where
  start : Nat
  stop : Nat
  /-- The dotted path of the type. -/
  path : Text
  deriving DecidableEq, Repr

namespace Segment

mutual

def ofClass (path : Text) : ClassDecl → List Segment
  | .mk own nested => ofRest path own.start own.stop nested

/-- The segments from byte `cursor` to byte `stop` of the type at `path`, around the given nested
types. -/
def ofRest (path : Text) (cursor stop : Nat) : List ClassDecl → List Segment
  | [] => [⟨cursor, stop, path⟩]
  | c :: cs =>
    ⟨cursor, c.own.start, path⟩ :: ofClass (path ++ '.' :: c.own.name) c ++
      ofRest path c.own.stop stop cs

end

/-- The segments of a top-level type. -/
def all (c : ClassDecl) : List Segment := ofClass c.own.name c

end Segment

/-- The constructors and setters of a type and of the types nested in it, with the paths of their
types. -/
def ClassDecl.entryOwners (c : ClassDecl) : List (Text × Method) :=
  c.withPaths.flatMap fun (path, own) =>
    (own.constructors ++ own.methods.filter fun m => m.role == .mutator).map fun m => (path, m)

def Edit.firstAtEach : List Edit → List Edit
  | [] => []
  | e :: es => e :: (firstAtEach es).filter fun later => later.start != e.start

/-- The container that is followed, and what was recorded of it last. -/
structure Synchronizer where
  tracked? : Option Container := none
  snapshot : Snapshot := .empty
  deriving DecidableEq

namespace Synchronizer

def reset (_ : Synchronizer) : Synchronizer := {}

def updateClass (source : Text) (c : ClassDecl) (changes : List FieldChange) : Text :=
  (Segment.all c).flatMap fun segment =>
    let piece := (Text.slice? segment.start segment.stop source).getD []
    match changes.filter fun change => change.container == segment.path with
    | [] => piece
    | own => Entry.update own piece

/-- The edits that give the declarations among `live` with the path, the body and another comment
the comment of a declaration of the updated text. -/
def editsFor (live : List (Text × Method)) (path : Text) (m : Method) : List Edit :=
  match m.flatBody?, m.comment.doc? with
  | some body, some new =>
    live.filterMap fun (livePath, liveMethod) =>
      if livePath == path && liveMethod.flatBody? == some body then
        match liveMethod.comment.doc? with
        | some doc => if doc.text = new.text then none else some (.replace doc.start doc.stop new.text)
        | none => none
      else none
  | _, _ => []

def commentEdits (file : SourceFile) (c : ClassDecl) (changes : List FieldChange) :
    Except Error (List Edit) :=
  match Text.slice? c.own.start c.own.stop file.source with
  | none => .error (.invalidEdit (.classOutside file.path))
  | some text =>
    let updated := updateClass file.source c changes
    if updated = text then .ok []
    else
      match (SourceFile.read file.path updated).primary? with
      | none => .error (.noContainer file.path)
      | some fresh =>
        .ok (Edit.firstAtEach
          (fresh.entryOwners.flatMap fun (path, m) => editsFor c.entryOwners path m))

/-- Takes notice of a file: the first time its type is only recorded, later the edits are given
that its changed fields ask for. A failure changes nothing. -/
def observe (s : Synchronizer) (file : SourceFile) : Except Error (List Edit) × Synchronizer :=
  match file.primary? with
  | none => (.error (.noContainer file.path), s)
  | some c =>
    let id : Container := ⟨file.path, c.own.name⟩
    let fresh := Snapshot.ofClass c
    if s.tracked?.any id.same then
      if fresh = s.snapshot then (.ok [], s)
      else
        match s.snapshot.changes fresh with
        | [] => (.ok [], { s with snapshot := fresh })
        | changes =>
          match commentEdits file c changes with
          | .ok edits => (.ok edits, { s with snapshot := fresh })
          | .error e => (.error e, s)
    else (.ok [], ⟨some id, fresh⟩)

end Synchronizer
end Javadoc
