import Javadoc.CommandLine.Command
import Javadoc.Files.Configuration
import Javadoc.Pass
import Javadoc.Watcher

/-! What commands do to files, and what they print. -/
namespace Javadoc.CommandLine

structure Outcome where
  code : Nat := 0
  output : Text := []
  errors : Text := []
  deriving DecidableEq, Repr

namespace Outcome

def failed (message : Text) (cause? : Option Text) : Outcome where
  code := 1
  errors := "Error: ".toList ++ message ++ ['\n'] ++
    match cause? with
    | some cause => "\nCaused by:\n    ".toList ++ cause ++ ['\n']
    | none => []

def ofError : Error → Outcome
  | .unreadable fault => failed (Error.unreadable fault).message (some fault.message)
  | e => failed e.message none

def usage : Text :=
  ("Usage: docky <COMMAND>\n\nCommands:\n" ++
    "  apply [-c CONFIG] [--dry-run] PATH\n" ++
    "  sync -b BASELINE [--dry-run] FILE\n" ++
    "  watch DIR\n").toList

def misuse : Outcome where
  code := 2
  errors := usage

def version : Text := "docky 0.1.0\n".toList

end Outcome

def passOutput (dryRun : Bool) (report : Pass.Report) : Text :=
  (report.changed.flatMap fun path => path ++ ['\n']) ++
    (if dryRun then "Would add ".toList else "Added ".toList) ++
    report.summary "in".toList ++ ['\n']

def apply (path : Text) (config? : Option Text) (dryRun : Bool) (tree : FileTree) :
    Outcome × FileTree :=
  match tree.templatesFor path config? with
  | .error e => (.ofError e, tree)
  | .ok t =>
    match Pass.run t (if dryRun then .dryRun else .write) path tree with
    | (.error e, tree) => (.ofError e, tree)
    | (.ok report, tree) => ({ output := passOutput dryRun report }, tree)

/-- The document of a file after the changes made since an earlier version of it, and the number of
updated comments. -/
def synchronized (file before : Text) (tree : FileTree) : Except Error (Nat × Document) :=
  match Synchronizer.observe {} (SourceFile.read file before) with
  | (.error e, _) => .error e
  | (.ok _, s) =>
    match tree.document file with
    | .error e => .error e
    | .ok d =>
      match s.observe (SourceFile.read file d.text) with
      | (.error e, _) => .error e
      | (.ok edits, _) => d.commit edits

/-- Updates the entries in a file that are older than the changes made since a baseline. -/
def sync (file baseline : Text) (dryRun : Bool) (tree : FileTree) : Outcome × FileTree :=
  match tree.read baseline with
  | .error fault =>
    (.failed ("failed to read baseline ".toList ++ baseline) (some fault.message), tree)
  | .ok before =>
    match synchronized file before tree with
    | .error e => (.ofError e, tree)
    | .ok (count, d) =>
      ({ output := if dryRun then d.text else []
         errors := "Rewrote ".toList ++ Text.ofNat count ++ " comments in ".toList ++ file ++
           ['\n'] },
        if dryRun ∨ count = 0 then tree else tree.save d)

def watch (dir : Text) (tree : FileTree) : Except Outcome (Outcome × Watcher × FileTree) :=
  match Watcher.start tree dir with
  | .error e => .error (.ofError e)
  | .ok w =>
    match w.prime tree with
    | (w, tree) =>
      .ok ({ output := "Tracking ".toList ++ Text.ofNat w.tracked ++ " files in ".toList ++ dir ++
              ['\n'] }, w, tree)

def run (args : List Text) (tree : FileTree) : Outcome × Option Watcher × FileTree :=
  match Command.ofArgs? args with
  | none => (.misuse, none, tree)
  | some .version => ({ output := Outcome.version }, none, tree)
  | some .help => ({ output := Outcome.usage }, none, tree)
  | some (.apply path config? dryRun) =>
    match apply path config? dryRun tree with
    | (outcome, tree) => (outcome, none, tree)
  | some (.sync file baseline dryRun) =>
    match sync file baseline dryRun tree with
    | (outcome, tree) => (outcome, none, tree)
  | some (.watch dir) =>
    match watch dir tree with
    | .error outcome => (outcome, none, tree)
    | .ok (outcome, w, tree) => (outcome, some w, tree)

end Javadoc.CommandLine
