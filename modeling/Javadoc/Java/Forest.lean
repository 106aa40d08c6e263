import Javadoc.Java.Token

/-! Tokens with their brackets matched. A forest is a row of tokens and bracketed groups; what is
inside a group is a forest again. -/
namespace Javadoc.Java

/-- A row of tokens and groups, front first. -/
inductive Forest where
  | nil
  | leaf (token : Token) (rest : Forest)
  | group (opening : Token) (inner : Forest) (closing : Token) (rest : Forest)

namespace Forest

def tokens : Forest → List Token
  | nil => []
  | leaf t rest => t :: rest.tokens
  | group o inner c rest => o :: inner.tokens ++ c :: rest.tokens

def append : Forest → Forest → Forest
  | nil, g => g
  | leaf t rest, g => leaf t (append rest g)
  | group o inner c rest, g => group o inner c (append rest g)

def isOpening (t : Token) : Bool := t.is "(" || t.is "[" || t.is "\x7b"

def isClosing (t : Token) : Bool := t.is ")" || t.is "]" || t.is "\x7d"

/-- Closing brackets whose opening ones lie further to the front, innermost first, each with the
forest behind it. -/
abbrev Pending := List (Token × Forest)

/-- Puts a token before a forest. A closing bracket starts a new forest inside its group, and an
opening one ends it. -/
def push (t : Token) : Forest × Pending → Forest × Pending
  | (f, pending) =>
    if isClosing t then (nil, (t, f) :: pending)
    else if isOpening t then
      match pending with
      | (c, behind) :: pending => (group t f c behind, pending)
      | [] => (leaf t f, [])
    else (leaf t f, pending)

def settle (f : Forest) : Pending → Forest
  | [] => f
  | (c, behind) :: pending => f.append (leaf c (settle behind pending))

def ofTokens (ts : List Token) : Forest :=
  let (f, pending) := ts.foldr push (nil, [])
  settle f pending

def scan (t : Text) : Forest := ofTokens (Token.scan t)

private theorem tokens_append (f g : Forest) : (f.append g).tokens = f.tokens ++ g.tokens := by
  induction f with
  | nil => rfl
  | leaf t rest ih => simp [append, tokens, ih]
  | group o inner c rest _ ih => simp [append, tokens, ih]

private theorem tokens_settle_push (t : Token) (s : Forest × Pending) :
    (settle (push t s).1 (push t s).2).tokens = t :: (settle s.1 s.2).tokens := by
  obtain ⟨f, pending⟩ := s
  simp only [push]
  split
  · simp [settle, append, tokens]
  · split
    · cases pending with
      | nil => simp [settle, tokens]
      | cons p ps =>
        obtain ⟨c, behind⟩ := p
        cases ps with
        | nil => simp [settle, tokens, tokens_append]
        | cons q qs => simp [settle, tokens, tokens_append, append]
    · cases pending with
      | nil => simp [settle, tokens]
      | cons p ps => simp [settle, tokens, append]

/-- Matching brackets loses no token and keeps their order. -/
theorem tokens_ofTokens (ts : List Token) : (ofTokens ts).tokens = ts := by
  unfold ofTokens
  induction ts with
  | nil => rfl
  | cons t ts ih =>
    simp only [List.foldr_cons]
    rw [tokens_settle_push]
    exact congrArg _ ih

end Forest
end Javadoc.Java
