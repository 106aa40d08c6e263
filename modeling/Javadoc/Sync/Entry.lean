import Javadoc.Sync.Snapshot
import Javadoc.Text.Search

/-! Entries for parameters in comments, and updating them after the description of a field has
changed. While a text is updated, the characters of comment markup are written as tokens, so that
descriptions that hold them are compared as plain text. -/
namespace Javadoc.Entry

def mark : Char := '\uF8FF'

def markup : List (Char × Text) :=
  [('\x7b', mark :: "OCBR".toList ++ [mark]), ('\x7d', mark :: "CCBR".toList ++ [mark]),
    ('*', mark :: "STRX".toList ++ [mark])]

def encodeChar (c : Char) : Text :=
  match markup.find? fun e => e.1 = c with
  | some (_, token) => token
  | none => [c]

/-- Writes the characters of markup as tokens. -/
def encode (t : Text) : Text := t.flatMap encodeChar

/-- Puts the characters of markup back, those of one kind after the other. -/
def decode (t : Text) : Text :=
  markup.foldl (fun t (c, token) => Text.replaceAll token [c] t) t

def afterGaps : Text → List Text
  | [] => [[]]
  | c :: cs => if Text.isGap c then afterGaps cs ++ [c :: cs] else [c :: cs]

def afterSomeGaps : Text → List Text
  | [] => []
  | c :: cs => if Text.isGap c then afterGaps cs else []

def after (lead t : Text) : List Text := (Text.stripPrefix? lead t).toList

/-- The rests of an encoded line after the start of an entry for `field`: gaps, one star with gaps
behind it if there is one, the block tag, gaps, the name and a colon. -/
def afterLead (field line : Text) : List Text :=
  (afterGaps line).flatMap fun t =>
    ((after (encode ['*']) t).flatMap afterGaps ++ [t]).flatMap fun t =>
      (after "@param".toList t).flatMap fun t =>
        (afterSomeGaps t).flatMap fun t => after (field ++ [':']) t

def ending? (old t : Text) : Option Text :=
  ((afterGaps t).flatMap fun t => (after old t).flatMap afterGaps).find? fun t =>
    t == [] || t == ['\r']

/-- Splits a line that is an entry for `field` with the description `old` into what stands before
the description and what ends the line. -/
def split? (field old line : Text) : Option (Text × Text) :=
  (afterLead field line).findSome? fun rest =>
    (ending? old rest).map fun ending => (line.take (line.length - rest.length), ending)

def updateLine? (change : FieldChange) (line : Text) : Option Text :=
  (split? change.field (encode change.old) line).map fun (lead, ending) =>
    if change.new.isEmpty then lead ++ ending else lead ++ ' ' :: encode change.new ++ ending

/-- Updates entries that take one line and `more` lines behind it. An entry takes as many lines
as the name and the description have. -/
def updateLines (change : FieldChange) (more : Nat) : List Text → List Text
  | [] => []
  | l :: ls =>
    match updateLine? change (Text.joinLines (l :: ls.take more)) with
    | some entry => entry :: updateLines change more (ls.drop more)
    | none => l :: updateLines change more ls
termination_by ls => ls.length
decreasing_by
  · simp only [List.length_drop, List.length_cons]; omega
  · simp only [List.length_cons]; omega

def updateOne (t : Text) (change : FieldChange) : Text :=
  let more := (change.field ++ change.old).count '\n'
  Text.joinLines (updateLines change more (Text.splitLines t))

/-- Updates the entries of a text that the changes are about, one change after the other. -/
def update (changes : List FieldChange) (t : Text) : Text :=
  decode (changes.foldl updateOne (encode t))

end Javadoc.Entry
