import Javadoc.Files.Ignore
import Javadoc.Files.Tree

/-! The Java sources of a directory, with the directories in it. Hidden entries are left out, and so
are those that ignore files match, except for the directory itself. An ignore file can show what is
hidden. -/
namespace Javadoc

namespace FileTree

def ignoreName : Text := ".ignore".toList

def repositoryIgnoreName : Text := ".gitignore".toList

def repositoryName : Text := ".git".toList

def excludeLocation : Location := [repositoryName, "info".toList, "exclude".toList]

def rulesIn (tree : FileTree) (file : Location) : List IgnoreRule :=
  match tree.item? file with
  | some (.file (.text t)) => IgnoreRule.ofText t
  | _ => []

def isRepository (tree : FileTree) (dir : Location) : Bool :=
  (tree.item? (dir ++ [repositoryName])).isSome

/-- The directories whose repository ignore files count for entries of `dir`: those from it outward
to the top of its repository, if it lies in one. -/
def repositoryDirectories (tree : FileTree) (dir : Location) : List Location :=
  let dirs := outward dir
  if dirs.any tree.isRepository then dirs.take (dirs.findIdx tree.isRepository + 1) else []

/-- What ignore files say about an entry of a directory, if anything: whether it is left out. Of the
files of one kind, the one in the innermost directory counts. -/
def verdict? (tree : FileTree) (dir : Location) (name : Text) : Option Bool :=
  let isDirectory := tree.item? (dir ++ [name]) == some .directory
  let judged (file : Location) (tops : List Location) : Option Bool :=
    tops.findSome? fun top =>
      let path := Text.joinWith ['/'] ((dir ++ [name]).drop top.length)
      IgnoreRule.verdict? (tree.rulesIn (top ++ file)) path isDirectory
  (judged [ignoreName] (outward dir)).or <|
    (judged [repositoryIgnoreName] (tree.repositoryDirectories dir)).or <|
      judged excludeLocation (tree.repositoryDirectories dir)

def isLeftOut (tree : FileTree) (dir : Location) (name : Text) : Bool :=
  (tree.verdict? dir name).getD (name.head? == some '.')

def isListed (tree : FileTree) (dir : Location) : List Text → Bool
  | [] => true
  | name :: names => !tree.isLeftOut dir name && tree.isListed (dir ++ [name]) names

def namesFrom? (dir at_ : Location) : Option (List Text) :=
  if dir.isPrefixOf at_ then some (at_.drop dir.length) else none

def listedSource? (tree : FileTree) (root : Text) (dir : Location) (entry : Location × Item) :
    Option Text :=
  match entry.2, namesFrom? dir entry.1 with
  | .file _, some names =>
    let path := names.foldl Path.join root
    if tree.isListed dir names && Path.isJava path then some path else none
  | _, _ => none

def javaSources (tree : FileTree) (root : Text) : List Text :=
  match tree.locate root with
  | .ok dir => tree.items.entries.filterMap (tree.listedSource? root dir)
  | .error _ => []

end FileTree
end Javadoc
