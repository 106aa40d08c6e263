/-! Text is a list of characters. This module holds the pieces every reader and writer here is
made of: blank characters, trimming, and the lines of a text. -/
namespace Javadoc

abbrev Text := List Char

namespace Text

/-- A blank is a character of the Unicode class of white space, line breaks included. -/
def isBlank (c : Char) : Bool :=
  let n := c.toNat
  (0x09 ≤ n && n ≤ 0x0D) || n == 0x20 || n == 0x85 || n == 0xA0 || n == 0x1680 ||
    (0x2000 ≤ n && n ≤ 0x200A) || n == 0x2028 || n == 0x2029 || n == 0x202F || n == 0x205F ||
    n == 0x3000

def isGap (c : Char) : Bool := c == ' ' || c == '\t'

def isBlankText (t : Text) : Bool := t.all isBlank

def trimStart (t : Text) : Text := t.dropWhile isBlank

def dropEndWhile (p : Char → Bool) : Text → Text
  | [] => []
  | c :: cs =>
    match dropEndWhile p cs with
    | [] => if p c then [] else [c]
    | d :: ds => c :: d :: ds

def trimEnd (t : Text) : Text := dropEndWhile isBlank t

def trim (t : Text) : Text := trimEnd (trimStart t)

/-- The text without any blank. -/
def compact (t : Text) : Text := t.filter fun c => !isBlank c

def stripPrefix? (lead t : Text) : Option Text :=
  if lead.isPrefixOf t then some (t.drop lead.length) else none

def stripSuffix? (tail t : Text) : Option Text :=
  if tail.isSuffixOf t then some (t.take (t.length - tail.length)) else none

/-- The pieces between line feeds. A text without a line feed is one piece. -/
def splitLines : Text → List Text
  | [] => [[]]
  | c :: cs =>
    if c = '\n' then [] :: splitLines cs
    else
      match splitLines cs with
      | [] => [[c]]
      | l :: ls => (c :: l) :: ls

def joinWith (sep : Text) : List Text → Text
  | [] => []
  | [t] => t
  | t :: u :: ts => t ++ sep ++ joinWith sep (u :: ts)

def joinLines (ls : List Text) : Text := joinWith ['\n'] ls

def dropReturn (l : Text) : Text := (stripSuffix? ['\r'] l).getD l

def linesOfPieces : List Text → List Text
  | [] => []
  | [p] => if p.isEmpty then [] else [p]
  | p :: q :: ps => dropReturn p :: linesOfPieces (q :: ps)

/-- The lines of a text, without their line endings: a line feed, or a carriage return and a
line feed. -/
def lines (t : Text) : List Text := linesOfPieces (splitLines t)

/-- The words of a text: its longest runs without a blank. The accumulator holds the word being
read. -/
def wordsFrom (word : Text) : Text → List Text
  | [] => if word.isEmpty then [] else [word]
  | c :: cs =>
    if isBlank c then
      if word.isEmpty then wordsFrom [] cs else word :: wordsFrom [] cs
    else wordsFrom (word ++ [c]) cs

def collapse (t : Text) : Text := joinWith [' '] (wordsFrom [] t)

theorem splitLines_ne_nil (t : Text) : splitLines t ≠ [] := by
  cases t with
  | nil => simp [splitLines]
  | cons c cs =>
    unfold splitLines
    split
    · simp
    · split <;> simp

theorem joinLines_cons_cons (l m : Text) (ls : List Text) :
    joinLines (l :: m :: ls) = l ++ '\n' :: joinLines (m :: ls) := by
  simp [joinLines, joinWith]

/-- Cutting at line feeds and joining with line feeds gives the text back. -/
theorem joinLines_splitLines (t : Text) : joinLines (splitLines t) = t := by
  induction t with
  | nil => rfl
  | cons c cs ih =>
    unfold splitLines
    split
    · next h =>
      cases hs : splitLines cs with
      | nil => exact absurd hs (splitLines_ne_nil cs)
      | cons l ls =>
        rw [joinLines_cons_cons, ← hs, ih, h]; rfl
    · cases hs : splitLines cs with
      | nil => exact absurd hs (splitLines_ne_nil cs)
      | cons l ls =>
        rw [hs] at ih
        cases ls with
        | nil => simpa [joinLines, joinWith] using ih
        | cons m ms =>
          rw [joinLines_cons_cons] at ih
          simp only [joinLines_cons_cons]
          simpa using ih

end Text
end Javadoc
