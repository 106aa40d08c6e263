import Javadoc.Files.Configuration
import Javadoc.Pass
import Javadoc.Sync.Registry

/-! A server with two tools: one documents files, the other takes notice of changed files. Its state
is the registry of the files that it was told about. -/
namespace Javadoc.ToolServer

inductive Tool where
  | applyTemplates
  | documentChanged
  deriving DecidableEq, Repr

namespace Tool

def all : List Tool := [applyTemplates, documentChanged]

def name : Tool → Text
  | applyTemplates => "apply_templates".toList
  | documentChanged => "document_changed".toList

def description : Tool → Text
  | applyTemplates =>
    ("Add Javadoc comments to every undocumented class, field, constructor and method of a Java " ++
      "file or source tree, using the project's templates.").toList
  | documentChanged =>
    ("Notify that a Java file changed. Field comment edits since the previous notification are " ++
      "propagated into the matching @param lines of constructors and setters. The first " ++
      "notification for a file only records its state.").toList

def ofName? (name : Text) : Option Tool := all.find? fun tool => tool.name == name

end Tool

def instructions : Text :=
  ("A JavaDocky MCP server that documents Java sources from templates and keeps @param " ++
    "descriptions in sync with field comments").toList

inductive Fault where
  | unknownTool
  | badArguments (detail : Text)
  | noSuchPath (path : Text)
  | noSuchFile (path : Text)
  | badTemplates (error : Error)
  | passFailed (error : Error)
  | noContainer (path : Text)
  | syncFailed (path : Text) (error : Error)
  deriving DecidableEq, Repr

namespace Fault

def isArgumentFault : Fault → Bool
  | passFailed _ | syncFailed _ _ => false
  | _ => true

def code (fault : Fault) : Int := if fault.isArgumentFault then -32602 else -32603

def message : Fault → Text
  | unknownTool => "tool not found".toList
  | badArguments detail => "failed to deserialize parameters: ".toList ++ detail
  | noSuchPath path => "Path does not exist: ".toList ++ path
  | noSuchFile path => "File does not exist: ".toList ++ path
  | badTemplates error => "Failed to load templates: ".toList ++ error.message
  | passFailed error => "Failed to apply templates: ".toList ++ error.message
  | noContainer path => (Error.noContainer path).message
  | syncFailed path error => "Failed to synchronize ".toList ++ path ++ ": ".toList ++ error.message

end Fault

structure ApplyRequest where
  path : Text
  config? : Option Text := none
  dryRun : Bool := false
  deriving DecidableEq, Repr

def passAnswer (report : Pass.Report) : Text :=
  "Added ".toList ++ report.summary "to".toList ++ report.changed.flatMap fun path => '\n' :: path

def applyTemplates (request : ApplyRequest) (tree : FileTree) : Except Fault Text × FileTree :=
  if !tree.contains request.path then (.error (.noSuchPath request.path), tree)
  else
    match tree.templatesFor request.path request.config? with
    | .error e => (.error (.badTemplates e), tree)
    | .ok t =>
      match Pass.run t (if request.dryRun then .dryRun else .write) request.path tree with
      | (.error e, tree) => (.error (.passFailed e), tree)
      | (.ok report, tree) => (.ok (passAnswer report), tree)

/-- The answer to a notification, given whether the file was followed before, and the number of
field comments that its synchronizer holds now. -/
def changeAnswer (path : Text) (followed : Bool) (size : Nat) : Except Error Nat → Except Fault Text
  | .ok count =>
    if followed then
      .ok ("Rewrote ".toList ++ Text.ofNat count ++ " comments in ".toList ++ path)
    else
      .ok ("Tracking ".toList ++ path ++ " (".toList ++ Text.ofNat size ++
        " field comments)".toList)
  | .error (.noContainer p) => .error (.noContainer p)
  | .error e => .error (.syncFailed path e)

/-- Takes notice of a changed file, in three steps: its synchronizer is taken from the registry, it
sees the file, and it is stored again. -/
def documentChanged (path : Text) (r : Registry) (tree : FileTree) :
    Except Fault Text × Registry × FileTree :=
  if !tree.isFile path then (.error (.noSuchFile path), r, tree)
  else
    let taken := r.at? path
    let r := r.forget path
    match (taken.getD {}).synchronize path tree with
    | (result, s, tree) =>
      (changeAnswer path taken.isSome s.snapshot.size result, r.settle path result s, tree)

end Javadoc.ToolServer
