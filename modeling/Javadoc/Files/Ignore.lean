import Javadoc.Text.Search

/-! Ignore files. A line of one is a pattern for paths, and says that what it matches is left out,
or shown nevertheless. The last line that matches counts. -/
namespace Javadoc

inductive Glob where
  | literal (c : Char)
  | anyChar
  /-- Any characters of one name. -/
  | anyChars
  | oneOf (isNegated : Bool) (ranges : List (Char × Char))
  /-- Any directories that a path starts with, or none. -/
  | leading
  /-- A slash, or any directories between two. -/
  | between
  deriving DecidableEq, Repr

namespace Glob

/-- The ranges of a class of characters, when `low` to `high` has been read. A range that runs
backwards is an error. -/
def rangesFrom? (low high : Char) : Text → Option (List (Char × Char))
  | [] => some [(low, high)]
  | ['-'] => some [(low, high), ('-', '-')]
  | '-' :: c :: cs => if low ≤ c then rangesFrom? low c cs else none
  | c :: cs => (rangesFrom? c c cs).map ((low, high) :: ·)

def oneOf? (isNegated : Bool) : Text → Option Glob
  | [] => none
  | c :: cs => (rangesFrom? c c cs).map (oneOf isNegated)

/-- What a pattern is read in: between its parts, behind the given character, or in a class of
characters, of which the given ones have been read. -/
inductive Reading where
  | parts (behind : Char)
  | chars (isNegated : Bool) (read : Text)

/-- Reads a pattern behind the parts `read`, of which the last one comes first. A class that is not
closed is an error, and so is a backslash at the end. -/
def ofText? (read : List Glob) : Reading → Text → Option (List Glob)
  | .parts _, [] => some read.reverse
  | .chars .., [] => none
  | .chars isNegated cs, c :: rest =>
    if c = ']' && !cs.isEmpty then
      match oneOf? isNegated cs.reverse with
      | some part => ofText? (part :: read) (.parts ']') rest
      | none => none
    else if (c = '!' || c = '^') && cs.isEmpty && !isNegated then ofText? read (.chars true []) rest
    else ofText? read (.chars isNegated (c :: cs)) rest
  | .parts behind, c :: rest =>
    if c = '?' then ofText? (anyChar :: read) (.parts c) rest
    else if c = '[' then ofText? read (.chars false []) rest
    else if c = '\\' then
      match rest with
      | [] => none
      | escaped :: rest => ofText? (literal escaped :: read) (.parts escaped) rest
    else if c = '*' then
      match rest, read with
      | '*' :: '/' :: rest, [] => ofText? [leading] (.parts '/') rest
      | '*' :: '/' :: rest, last :: earlier =>
        -- two stars stand for directories where they fill the place of a name
        if behind = '/' then
          ofText? ((if last = leading then leading else between) :: earlier) (.parts '/') rest
        else ofText? (literal '/' :: anyChars :: last :: earlier) (.parts '/') rest
      | rest, read => ofText? (anyChars :: read) (.parts c) rest
    else ofText? (literal c :: read) (.parts c) rest

def behindChars : Text → List Text
  | [] => [[]]
  | c :: cs => if c = '/' then [c :: cs] else (c :: cs) :: behindChars cs

def behindSlashes : Text → List Text
  | [] => []
  | c :: cs => if c = '/' then cs :: behindSlashes cs else behindSlashes cs

/-- What a part can leave of the text that it starts. -/
def rests : Glob → Text → List Text
  | literal c, d :: ds => if c = d then [ds] else []
  | anyChar, d :: ds => if d = '/' then [] else [ds]
  | anyChars, t => behindChars t
  | oneOf isNegated ranges, d :: ds =>
    if (ranges.any fun (low, high) => low ≤ d && d ≤ high) != isNegated then [ds] else []
  | leading, t => t :: behindSlashes t
  | between, d :: ds => if d = '/' then ds :: behindSlashes ds else []
  | _, [] => []

def isMatch : List Glob → Text → Bool
  | [], t => t.isEmpty
  | part :: parts, t => (part.rests t).any (isMatch parts)

end Glob

structure IgnoreRule where
  parts : List Glob
  /-- Whether what matches is shown, although other rules leave it out. -/
  isException : Bool
  directoriesOnly : Bool
  deriving DecidableEq, Repr

namespace IgnoreRule

/-- The pattern of a rule. One without a slash is about names at any depth, and one that ends with
two stars is about everything inside a directory, but not about the directory. -/
def patternOf (isAnchored : Bool) (name : Text) : Text :=
  let anyDepth := "**/".toList
  let pattern :=
    if isAnchored || name.contains '/' || name = "**".toList then name else anyDepth ++ name
  if pattern = "**".toList || "/**".toList.isSuffixOf pattern then pattern ++ "/*".toList
  else pattern

def ofName? (isException isAnchored : Bool) (name : Text) : Option IgnoreRule :=
  match Text.stripSuffix? ['/'] name with
  | some name =>
    let pattern := patternOf isAnchored ((Text.stripSuffix? ['\\'] name).getD name)
    (Glob.ofText? [] (.parts '/') pattern).map fun parts => ⟨parts, isException, true⟩
  | none =>
    (Glob.ofText? [] (.parts '/') (patternOf isAnchored name)).map fun parts =>
      ⟨parts, isException, false⟩

def ofPattern? (isException : Bool) : Text → Option IgnoreRule
  | '/' :: name => ofName? isException true name
  | name => ofName? isException false name

/-- Reads a line of an ignore file. Blank lines, comments and patterns with errors are no rules. -/
def ofLine? (line : Text) : Option IgnoreRule :=
  match if "\\ ".toList.isSuffixOf line then line else Text.trimEnd line with
  | [] | '#' :: _ => none
  | '!' :: pattern => ofPattern? true pattern
  | '\\' :: '!' :: pattern => ofPattern? false ('!' :: pattern)
  | '\\' :: '#' :: pattern => ofPattern? false ('#' :: pattern)
  | pattern => ofPattern? false pattern

def ofText (t : Text) : List IgnoreRule :=
  (Text.lines (t.dropWhile (· == '\uFEFF'))).filterMap ofLine?

def appliesTo (rule : IgnoreRule) (path : Text) (isDirectory : Bool) : Bool :=
  Glob.isMatch rule.parts path && (isDirectory || !rule.directoriesOnly)

/-- What rules say about a path, if anything: whether it is left out. -/
def verdict? (rules : List IgnoreRule) (path : Text) (isDirectory : Bool) : Option Bool :=
  (rules.reverse.find? (·.appliesTo path isDirectory)).map (!·.isException)

end IgnoreRule
end Javadoc
