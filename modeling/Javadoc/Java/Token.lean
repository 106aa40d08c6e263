import Javadoc.Declaration.Basic
import Javadoc.Java.Lexeme
import Javadoc.Comment.Markup
import Javadoc.Text.Offset

/-! Tokens: lexemes of a program with the blanks and comments before them and their place in the
source. What documents a declaration is read off its first token. -/
namespace Javadoc.Java

def sizeOfLexemes (ls : List Lexeme) : Nat := Text.size (ls.flatMap (·.text))

/-- A lexeme that is neither blank nor comment, with those before it. -/
structure Token where
  /-- The byte at which the blanks and comments before the lexeme start. -/
  origin : Nat
  /-- The blanks and comments before the lexeme. -/
  lead : List Lexeme
  lexeme : Lexeme
  deriving DecidableEq, Repr

namespace Token

def text (t : Token) : Text := t.lexeme.text

def start (t : Token) : Nat := t.origin + sizeOfLexemes t.lead

def stop (t : Token) : Nat := t.start + Text.size t.text

def source (t : Token) : Text := t.lead.flatMap (·.text) ++ t.text

def is (t : Token) (s : String) : Bool := t.lexeme.kind != .quoted && t.text == s.toList

def isWord (t : Token) : Bool := t.lexeme.kind == .word

/-- The comment that comes last among blanks and comments from byte `at_` on, if any does; else
what was found before. Behind a stray character nothing counts as found. -/
def lastComment (found : Preceding) (at_ : Nat) : List Lexeme → Preceding
  | [] => found
  | l :: ls =>
    let stop := at_ + Text.size l.text
    let found :=
      match l.kind with
      | .blockComment =>
        if Comment.docStart.isPrefixOf l.text then .doc ⟨l.text, at_, stop⟩ else .remark
      | .lineComment => .remark
      | .stray => .nothing
      | _ => found
    lastComment found stop ls

def preceding (t : Token) : Preceding := lastComment .nothing t.origin t.lead

def written : List Token → Text
  | [] => []
  | t :: ts => t.text ++ ts.flatMap source

def ofLexemes (origin : Nat) (lead : List Lexeme) : List Lexeme → List Token
  | [] => []
  | l :: ls =>
    if l.isTrivia then ofLexemes origin (lead ++ [l]) ls
    else
      ⟨origin, lead, l⟩ ::
        ofLexemes (origin + sizeOfLexemes lead + Text.size l.text) [] ls

def scan (t : Text) : List Token := ofLexemes 0 [] (Lexeme.scan t)

end Token
end Javadoc.Java
