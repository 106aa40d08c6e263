import Javadoc.Files.Tree
import Javadoc.Sync.Synchronizer

/-! Synchronizers of files. A registry holds one for each path that is followed; observing a file
through its synchronizer writes the updated entries back. -/
namespace Javadoc

/-- Lets the synchronizer of a file see its content, and writes the file if entries were updated;
gives their number. -/
def Synchronizer.synchronize (s : Synchronizer) (path : Text) (tree : FileTree) :
    Except Error Nat × Synchronizer × FileTree :=
  match tree.document path with
  | .error e => (.error e, s, tree)
  | .ok d =>
    match s.observe (SourceFile.read path d.text) with
    | (.error e, s) => (.error e, s, tree)
    | (.ok [], s) => (.ok 0, s, tree)
    | (.ok edits, s) =>
      match d.commit edits with
      | .error e => (.error e, s, tree)
      | .ok (count, d) => (.ok count, s, tree.save d)

/-- Synchronizers by the components of their paths, so that each path has one however it is
spelled. -/
abbrev Registry := OrderedMap (List Text) Synchronizer

namespace Registry

/-- The synchronizer of a path. -/
def at? (r : Registry) (path : Text) : Option Synchronizer := r.get? (Path.components path)

def store (r : Registry) (path : Text) (s : Synchronizer) : Registry :=
  r.insert (Path.components path) s

def forget (r : Registry) (path : Text) : Registry := r.erase (Path.components path)

/-- Stores a synchronizer after it has seen the file of a path. A file without a type is not
followed. -/
def settle (r : Registry) (path : Text) (result : Except Error Nat) (s : Synchronizer) : Registry :=
  match result with
  | .error (.noContainer _) => r.forget path
  | _ => r.store path s

end Registry
end Javadoc
