import Javadoc.Text.Basic

/-! The markup of a documentation comment: its delimiters, the decoration at the start of its
lines, and the plain description that is left when both are taken away. -/
namespace Javadoc.Comment

def docStart : Text := "/**".toList

def blockOpen : Text := "/*".toList

def blockClose : Text := "*/".toList

def isDecorative (line : Text) : Bool := line.all fun c => Text.isBlank c || c == '*'

/-- The decoration that a line starts with: its indentation, and one star with the gap after it
unless the star closes the comment. -/
def decorationOf (line : Text) : Text :=
  let indent := line.takeWhile Text.isBlank
  match line.dropWhile Text.isBlank with
  | '*' :: rest =>
    if rest.head? == some '/' then indent else indent ++ '*' :: rest.takeWhile Text.isGap
  | _ => indent

def inner (comment : Text) : Text :=
  let body := Text.trim comment
  let body :=
    match Text.stripPrefix? docStart body with
    | some rest => rest
    | none => (Text.stripPrefix? blockOpen body).getD body
  (Text.stripSuffix? blockClose body).getD body

def lineContent (line : Text) : Text := Text.trim ((Text.trim line).dropWhile (· == '*'))

def startsBlockTag (content : Text) : Bool := content.head? == some '@'

/-- The plain description of a comment: the contents of its lines before the first block tag,
the empty ones left out, with single spaces between them. -/
def description (comment : Text) : Text :=
  let contents := (Text.lines (inner comment)).map lineContent
  Text.joinWith [' ']
    ((contents.takeWhile fun c => !startsBlockTag c).filter fun c => !c.isEmpty)

end Javadoc.Comment
