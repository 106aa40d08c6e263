import Javadoc.Files.Listing
import Javadoc.Plan

/-! Documentation passes over files: one Java source, or all those under a directory, one after the
other. A pass that fails keeps what it has written before. -/
namespace Javadoc.Pass

inductive Mode where
  | write
  | dryRun
  deriving DecidableEq, Repr

/-- What a pass did. -/
structure Report where
  scanned : Nat := 0
  /-- The comments of all files. -/
  added : Nat := 0
  /-- The files that got at least one comment, in order. -/
  changed : List Text := []
  deriving DecidableEq, Repr

def Report.record (report : Report) (path : Text) (count : Nat) : Report :=
  { scanned := report.scanned + 1
    added := report.added + count
    changed := if count = 0 then report.changed else report.changed ++ [path] }

def Report.summary (report : Report) (link : Text) : Text :=
  Text.ofNat report.added ++ " comments ".toList ++ link ++ [' '] ++
    Text.ofNat report.changed.length ++ " of ".toList ++ Text.ofNat report.scanned ++
    " files".toList

def documentFile (t : Templates) (mode : Mode) (path : Text) (tree : FileTree) :
    Except Error Nat × FileTree :=
  match tree.document path with
  | .error e => (.error e, tree)
  | .ok d =>
    match d.complete t with
    | .error e => (.error e, tree)
    | .ok (count, d) => (.ok count, if count ≠ 0 ∧ mode = .write then tree.save d else tree)

def documentFiles (t : Templates) (mode : Mode) (report : Report) (tree : FileTree) :
    List Text → Except Error Report × FileTree
  | [] => (.ok report, tree)
  | path :: paths =>
    match documentFile t mode path tree with
    | (.error e, tree) => (.error e, tree)
    | (.ok count, tree) => documentFiles t mode (report.record path count) tree paths

/-- The files that a pass over `root` is about. -/
def sources (tree : FileTree) (root : Text) : Except Error (List Text) :=
  if !tree.contains root then .error (.directoryNotFound root)
  else if tree.isFile root then
    if Path.isJava root then .ok [root] else .error (.invalidConfig (.notJavaSource root))
  else .ok (tree.javaSources root)

/-- Documents the Java sources under a root. -/
def run (t : Templates) (mode : Mode) (root : Text) (tree : FileTree) :
    Except Error Report × FileTree :=
  match sources tree root with
  | .error e => (.error e, tree)
  | .ok paths => documentFiles t mode {} tree paths

end Javadoc.Pass
