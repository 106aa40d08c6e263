import Javadoc.Files.Tree
import Javadoc.Template.ConfigText

/-! Template configurations in files: where one is searched for, and which one counts. -/
namespace Javadoc.FileTree

def configName : Text := ".javadocky.toml".toList

def searchDepth : Nat := 4

def searchOutward (tree : FileTree) : Nat → Text → Option Text
  | 0, _ => none
  | depth + 1, dir =>
    let candidate := Path.join dir configName
    if tree.isFile candidate then some candidate
    else
      match Path.parent? dir with
      | some parent => searchOutward tree depth parent
      | none => none

def findConfig? (tree : FileTree) (start : Text) : Option Text :=
  if tree.isFile start then (Path.parent? start).bind (searchOutward tree searchDepth)
  else searchOutward tree searchDepth start

def templatesIn (tree : FileTree) (path : Text) : Except Error Templates :=
  match tree.document path with
  | .ok d => Templates.ofConfigText d.text
  | .error e => .error e

/-- The templates that count for a root: those of the given file, else those found by search, else
the standard ones. -/
def templatesFor (tree : FileTree) (root : Text) (config? : Option Text) :
    Except Error Templates :=
  match config? with
  | some path => tree.templatesIn path
  | none =>
    match tree.findConfig? root with
    | some path => tree.templatesIn path
    | none => .ok Templates.standard

end Javadoc.FileTree
