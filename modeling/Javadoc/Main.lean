import Javadoc.CommandLine.Outcome

/-! The program: it brings the files that a command is about into memory, runs the command, and
writes back what has changed. -/
namespace Javadoc.Main

def systemPath (at_ : Location) : String := "/" ++ String.ofList (Text.joinWith ['/'] at_)

def itemAt? (at_ : Location) : IO (Option Item) := do
  let path := System.mkFilePath [systemPath at_]
  if ← path.isDir then return some .directory
  if !(← path.pathExists) then return none
  match String.fromUTF8? (← IO.FS.readBinFile path) with
  | some s => return some (.file (.text s.toList))
  | none => return some (.file .bytes)

def loadItem (tree : FileTree) (at_ : Location) : IO FileTree := do
  match ← itemAt? at_ with
  | some item => return if at_.isEmpty then tree else tree.put at_ item
  | none => return tree

def markers : List Text :=
  [FileTree.ignoreName, FileTree.repositoryIgnoreName, FileTree.repositoryName, FileTree.configName]

/-- Brings the files that say something about a directory into memory, and those of the directories
that it lies in. -/
def loadMarkers (tree : FileTree) (dir : Location) : IO FileTree :=
  (FileTree.outward dir).foldlM
    (fun tree dir => markers.foldlM (fun tree name => loadItem tree (dir ++ [name])) tree) tree

/-- Brings the Java sources in a directory into memory. -/
partial def loadSources (tree : FileTree) (dir : Location) : IO FileTree := do
  let mut tree ← loadMarkers tree dir
  for entry in ← (System.mkFilePath [systemPath dir]).readDir do
    let name := entry.fileName.toList
    if name.head? != some '.' then
      if ← (System.mkFilePath [systemPath (dir ++ [name])]).isDir then
        tree ← loadSources (tree.put (dir ++ [name]) .directory) (dir ++ [name])
      else if Path.isJava name then tree ← loadItem tree (dir ++ [name])
  return tree

def passed (home : Location) (path : Text) : List Location :=
  let start := if path.head? == some '/' then [] else home
  ((Text.splitOnChar '/' path).foldl (fun found piece =>
    let at_ := found.headD start
    if piece.isEmpty || piece == Path.here then at_ :: found
    else if piece == Path.above then at_.dropLast :: found
    else (at_ ++ [piece]) :: found) []).reverse

def loadPath (tree : FileTree) (path : Text) : IO FileTree := do
  let mut tree := tree
  for at_ in passed tree.home path do
    tree ← loadItem tree at_
    if tree.item? at_ == some .directory then tree ← loadMarkers tree at_
  return tree

def loadRoot (tree : FileTree) (path : Text) : IO FileTree := do
  let tree ← loadPath tree path
  match tree.locate path with
  | .ok at_ => if tree.item? at_ == some .directory then loadSources tree at_ else return tree
  | .error _ => return tree

def loadFor (tree : FileTree) : CommandLine.Command → IO FileTree
  | .apply path config? _ => do (config?.toList).foldlM loadPath (← loadRoot tree path)
  | .sync file baseline _ => do loadPath (← loadPath tree file) baseline
  | .watch dir => loadRoot tree dir
  | .help | .version => return tree

def start : IO FileTree := do
  let here := (← IO.currentDir).toString.toList
  let home := (Text.splitOnChar '/' here).filter fun name => !name.isEmpty
  let tree : FileTree := { home }
  loadMarkers (if home.isEmpty then tree else tree.put home .directory) home

def store (old new : FileTree) : IO Unit :=
  for (at_, item) in new.items.entries do
    match item with
    | .file (.text t) =>
      if old.item? at_ != some item then IO.FS.writeFile (systemPath at_) (String.ofList t)
    | _ => pure ()

def eventsBetween (root : Text) (old new : FileTree) : List Event :=
  ((old.javaSources root).filterMap fun path =>
    if new.isFile path then none else some { kind := .removed, paths := [path] }) ++
  (new.javaSources root).filterMap fun path =>
    match old.find? path with
    | none => some { kind := .created, paths := [path] }
    | item => if item == new.find? path then none else some { kind := .modified, paths := [path] }

/-- Looks at a directory again and again, and lets its watcher handle what has happened. -/
partial def watch (w : Watcher) (seen : FileTree) : IO Unit := do
  IO.sleep 500
  let tree ← loadRoot (← start) w.root
  let (w, after) := (eventsBetween w.root seen tree).foldl
    (fun (w, tree) event => w.handle event tree) (w, tree)
  store tree after
  watch w after

end Javadoc.Main

def main (args : List String) : IO UInt32 := do
  let args := args.map String.toList
  let tree ← Javadoc.Main.start
  let tree ← match Javadoc.CommandLine.Command.ofArgs? args with
    | some command => Javadoc.Main.loadFor tree command
    | none => pure tree
  let (outcome, watcher?, after) := Javadoc.CommandLine.run args tree
  Javadoc.Main.store tree after
  IO.print (String.ofList outcome.output)
  (← IO.getStdout).flush
  IO.eprint (String.ofList outcome.errors)
  match watcher? with
  | some w => Javadoc.Main.watch w after
  | none => pure ()
  return outcome.code.toUInt32
