import Javadoc.Proofs.Java.Contents

/-! The tree of members that reading a source walks through. It keeps every token, so that the
members can be told from the tree, and the tree of changed tokens from the tree of the old ones. -/
namespace Javadoc.Java

inductive Tree where
  /-- The end of the row, behind pieces that end no member. -/
  | nil (head : List Piece)
  /-- A part of the constants of an enumeration. -/
  | filler (p : Piece) (rest : Tree)
  /-- A member that is no type, or nothing; it ends with a semicolon or with its body. -/
  | plain (head : List Piece) (last : Piece) (rest : Tree)
  | type (kind : ClassKind) (name : Text) (head : List Piece) (opening : Token) (inside : Tree)
      (closing : Token) (rest : Tree)

namespace Tree

def bodyAt : Piece → Option Piece
  | .token _ => none
  | .group o inner c => some (.group o inner c)

def tokens : Tree → List Token
  | nil head => head.flatMap Piece.tokens
  | filler p rest => p.tokens ++ rest.tokens
  | plain head last rest => head.flatMap Piece.tokens ++ (last.tokens ++ rest.tokens)
  | type _ _ head o inside c rest =>
    head.flatMap Piece.tokens ++ (o :: inside.tokens ++ (c :: rest.tokens))

def map (g : Token → Token) : Tree → Tree
  | nil head => nil (head.map (Piece.map g))
  | filler p rest => filler (p.map g) (rest.map g)
  | plain head last rest => plain (head.map (Piece.map g)) (last.map g) (rest.map g)
  | type kind name head o inside c rest =>
    type kind name (head.map (Piece.map g)) (g o) (inside.map g) (g c) (rest.map g)

def members : Tree → List Member
  | nil _ => []
  | filler _ rest => rest.members
  | plain head last rest => Member.ofHead head (bodyAt last) ++ rest.members
  | type kind name head _ inside c rest =>
    .nested (Member.declare kind name head c.stop inside.members) :: rest.members

def ofForest (kind : ClassKind) (constants : Bool) (head : List Piece) : Forest → Tree
  | .nil => nil head
  | .leaf t rest =>
    if constants then filler (.token t) (ofForest kind (!t.is ";") [] rest)
    else if t.is ";" then plain head (.token t) (ofForest kind false [] rest)
    else ofForest kind false (head ++ [.token t]) rest
  | .group o inner c rest =>
    if constants then filler (.group o inner c) (ofForest kind true [] rest)
    else if o.is "\x7b" && Member.endsMember kind head then
      match Member.typeHead? head with
      | some (nestedKind, name) =>
        type nestedKind name head o (ofForest nestedKind (nestedKind == .enum) [] inner) c
          (ofForest kind false [] rest)
      | none => plain head (.group o inner c) (ofForest kind false [] rest)
    else ofForest kind false (head ++ [.group o inner c]) rest

/-- The tree of a source text. -/
def scan (source : Text) : Tree := ofForest .class false [] (Forest.scan source)

private theorem members_ofForest (kind : ClassKind) (constants : Bool) (head : List Piece)
    (f : Forest) :
    (ofForest kind constants head f).members = Member.ofBody kind constants head f := by
  induction f generalizing kind constants head with
  | nil => rfl
  | leaf t rest ih =>
    simp only [ofForest, Member.ofBody]
    split
    · exact ih ..
    · split
      · simp only [members, ih, bodyAt]
      · exact ih ..
  | group o inner c rest ih₁ ih₂ =>
    simp only [ofForest, Member.ofBody]
    split
    · exact ih₂ ..
    · split
      · cases Member.typeHead? head <;> simp only [members, ih₁, ih₂, bodyAt]
      · exact ih₂ ..

theorem read_classes (path source : Text) :
    (SourceFile.read path source).classes = (scan source).members.filterMap Member.nested? := by
  rw [SourceFile.read, scan, members_ofForest]

/-- The tree keeps every token, the head that has been read included. -/
theorem tokens_ofForest (kind : ClassKind) {constants : Bool} {head : List Piece} (f : Forest)
    (h : constants → head = []) :
    (ofForest kind constants head f).tokens = head.flatMap Piece.tokens ++ f.tokens := by
  induction f generalizing kind constants head with
  | nil => simp [ofForest, tokens, Forest.tokens]
  | leaf t rest ih =>
    simp only [ofForest]
    split
    · next hc => simp [tokens, ih, h hc, Piece.tokens, Forest.tokens]
    · split
      · simp [tokens, ih, Piece.tokens, Forest.tokens]
      · simp [ih, Piece.tokens, Forest.tokens]
  | group o inner c rest ih₁ ih₂ =>
    simp only [ofForest]
    split
    · next hc => simp [tokens, ih₂, h hc, Piece.tokens, Forest.tokens]
    · split
      · split <;> simp [tokens, ih₁, ih₂, Piece.tokens, Forest.tokens]
      · simp [ih₂, Piece.tokens, Forest.tokens]

theorem tokens_scan (source : Text) : (scan source).tokens = Token.scan source := by
  rw [scan, tokens_ofForest _ _ (by simp), Forest.scan, Forest.tokens_ofTokens]
  rfl

/-- The tree of changed tokens is the tree with its tokens changed. -/
theorem ofForest_map {g : Token → Token} (hg : KeepsSymbols g) (kind : ClassKind)
    (constants : Bool) (head : List Piece) (f : Forest) :
    ofForest kind constants (head.map (Piece.map g)) (f.map g) =
      (ofForest kind constants head f).map g := by
  induction f generalizing kind constants head with
  | nil => rfl
  | leaf t rest ih =>
    have h₁ := ih kind (!t.is ";") []
    have h₂ := ih kind false []
    have h₃ := ih kind false (head ++ [.token t])
    simp only [List.map_append, List.map_cons, List.map_nil, Piece.map] at h₁ h₂ h₃
    simp only [Forest.map, ofForest, hg.is]
    split
    · simp only [map, Piece.map, h₁]
    · split
      · simp only [map, Piece.map, h₂]
      · exact h₃
  | group o inner c rest ih₁ ih₂ =>
    have h₁ := ih₂ kind true []
    have h₂ := ih₂ kind false []
    have h₃ := ih₂ kind false (head ++ [.group o inner c])
    simp only [List.map_append, List.map_cons, List.map_nil, Piece.map] at h₁ h₂ h₃
    simp only [Forest.map, ofForest, hg.is, Member.endsMember_map hg, Member.typeHead?_map hg]
    split
    · simp only [map, Piece.map, h₁]
    · split
      · split
        · next nestedKind name _ =>
          have h₄ := ih₁ nestedKind (nestedKind == .enum) []
          simp only [List.map_nil] at h₄
          simp only [map, h₂, h₄]
        · simp only [map, Piece.map, h₂]
      · exact h₃

theorem scan_of_map {g : Token → Token} (hg : KeepsSymbols g) {source source' : Text}
    (h : Token.scan source' = (Token.scan source).map g) : scan source' = (scan source).map g := by
  rw [scan, scan, Forest.scan, Forest.scan, h, Forest.ofTokens_map hg]
  exact ofForest_map hg .class false [] _

end Tree
end Javadoc.Java
