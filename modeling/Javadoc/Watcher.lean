import Javadoc.Files.Listing
import Javadoc.Sync.Registry

/-! A watcher of a directory: it follows the Java sources in it, and synchronizes each when it
changes. -/
namespace Javadoc

/-- The root of a watched directory, and the synchronizers of its files. -/
structure Watcher where
  root : Text
  registry : Registry := .empty
  deriving DecidableEq

inductive EventKind where
  | created
  /-- A new content or a new name. -/
  | modified
  | removed
  /-- Anything else, or nothing in particular. -/
  | other
  deriving DecidableEq, Repr

structure Event where
  kind : EventKind
  paths : List Text
  deriving DecidableEq, Repr

namespace Watcher

def start (tree : FileTree) (root : Text) : Except Error Watcher :=
  if tree.isDirectory root then .ok { root } else .error (.directoryNotFound root)

def tracked (w : Watcher) : Nat := w.registry.size

/-- Synchronizes a file; gives the number of updated comments. -/
def change (w : Watcher) (path : Text) (tree : FileTree) :
    Except Error Nat × Watcher × FileTree :=
  let s := (w.registry.at? path).getD {}
  match s.synchronize path tree with
  | (result, s, tree) => (result, { w with registry := w.registry.settle path result s }, tree)

def changeAll (w : Watcher) (tree : FileTree) : List Text → Watcher × FileTree
  | [] => (w, tree)
  | path :: paths =>
    match w.change path tree with
    | (_, w, tree) => changeAll w tree paths

def prime (w : Watcher) (tree : FileTree) : Watcher × FileTree :=
  w.changeAll tree (tree.javaSources w.root)

/-- What a notification that matters means for one of its paths. A Java source that is gone is
forgotten. -/
def handlePath (kind : EventKind) (path : Text) (w : Watcher) (tree : FileTree) :
    Watcher × FileTree :=
  if !Path.isJava path then (w, tree)
  else if !tree.isFile path then ({ w with registry := w.registry.forget path }, tree)
  else if kind = .removed then (w, tree)
  else
    match w.change path tree with
    | (_, w, tree) => (w, tree)

def handle (event : Event) (w : Watcher) (tree : FileTree) : Watcher × FileTree :=
  if event.kind = .other then (w, tree)
  else event.paths.foldl (fun (w, tree) path => handlePath event.kind path w tree) (w, tree)

end Watcher
end Javadoc
