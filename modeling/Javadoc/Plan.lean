import Javadoc.Template.Resolve
import Javadoc.Edit
import Javadoc.Java.Member

/-! The plan of a documentation pass: one comment before every declaration that has none and for
which the configuration gives one. Applying a plan inserts all its comments at once. -/
namespace Javadoc

/-- A declaration as the plan sees it. -/
structure Site where
  start : Nat
  /-- Whether a comment precedes the declaration already. -/
  commented : Bool
  /-- The comment that the configuration gives for it. -/
  comment? : Option Text
  deriving DecidableEq, Repr

namespace Site

def ofOwn (t : Templates) (own : ClassInfo) : List Site :=
  ⟨own.start, own.comment.isComment, t.classComment? own⟩ ::
    own.fields.map (fun f => ⟨f.start, f.comment.isComment, t.fieldComment? f⟩) ++
    own.constructors.map (fun m => ⟨m.start, m.comment.isComment, t.constructorComment? m⟩) ++
    own.methods.map fun m => ⟨m.start, m.comment.isComment, t.methodComment? m (some own)⟩

def ofClass (t : Templates) (c : ClassDecl) : List Site :=
  c.withPaths.flatMap fun (_, own) => ofOwn t own

def firstOfEach : List Site → List Site
  | [] => []
  | s :: ss => s :: (firstOfEach ss).filter fun later => later.start != s.start

end Site

namespace Plan

def newlineOf (source : Text) : Text :=
  if Text.includes ['\r', '\n'] source then ['\r', '\n'] else ['\n']

/-- What a comment line that stands at byte `offset` is indented with: what precedes it on its
line, if that is blank. -/
def indentAt (source : Text) (offset : Nat) : Text :=
  match Text.splitAtByte? offset source with
  | none => []
  | some (before, _) =>
    let head := Text.lineHead before
    if Text.isBlankText head then head else []

/-- Lays out a comment so that it stands on lines of its own, at the given indentation, before
what follows it. -/
def layOut (newline indent comment : Text) : Text :=
  Text.joinWith (newline ++ indent) (Text.lines comment) ++ newline ++ indent

def insertion? (source newline : Text) (site : Site) : Option Edit :=
  site.comment?.map fun comment =>
    .insert site.start (layOut newline (indentAt source site.start) comment)

/-- The insertions for a source file. -/
def edits (t : Templates) (file : SourceFile) : List Edit :=
  let open_ := (file.classes.flatMap (Site.ofClass t)).filter fun site => !site.commented
  (Site.firstOfEach open_).filterMap (insertion? file.source (newlineOf file.source))

end Plan

/-- Documents a document; gives the number of comments and the new text. -/
def Document.complete (t : Templates) (d : Document) : Except Error (Nat × Document) :=
  d.commit (Plan.edits t (SourceFile.read d.path d.text))

end Javadoc
