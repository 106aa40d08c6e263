import Javadoc.Java.Member
import Javadoc.Proofs.Java.Brackets

/-! Reading the head of a member commutes with a change of the tokens that keeps symbols and words:
what kind of member it is, its name and the number of parameters stay, and what is written in it
stays where the blanks and comments inside it do. -/
namespace Javadoc.Java
namespace Piece

def map (g : Token → Token) : Piece → Piece
  | token t => token (g t)
  | group o inner c => group (g o) (inner.map g) (g c)

private theorem tokens_map (g : Token → Token) (p : Piece) : (p.map g).tokens = p.tokens.map g := by
  cases p <;> simp [map, tokens, Forest.tokens_map]

theorem first_map (g : Token → Token) (p : Piece) : (p.map g).first = g p.first := by
  cases p <;> rfl

theorem flatMap_tokens_map (g : Token → Token) (ps : List Piece) :
    (ps.map (map g)).flatMap tokens = (ps.flatMap tokens).map g := by
  induction ps with
  | nil => rfl
  | cons p ps ih => simp [tokens_map, ih]

theorem ofForest_map (g : Token → Token) (f : Forest) :
    ofForest (f.map g) = (ofForest f).map (map g) := by
  induction f with
  | nil => rfl
  | leaf t rest ih => simp [Forest.map, ofForest, map, ih]
  | group o inner c rest _ ih => simp [Forest.map, ofForest, map, ih]

theorem written_word {p : Piece} {w : Text} (h : p.word? = some w) : written [p] = w := by
  cases p with
  | token t =>
    simp only [word?] at h
    split at h
    · cases h
      simp [written, tokens, Token.written]
    · cases h
  | group o inner c => cases h

section

variable {g : Token → Token} (hg : KeepsSymbols g)
include hg

theorem is_map (p : Piece) (s : String) : (p.map g).is s = p.is s := by
  cases p <;> simp [map, is, hg.is]

theorem word?_map (p : Piece) : (p.map g).word? = p.word? := by
  cases p with
  | token t =>
    rw [map, word?, word?, hg.isWord]
    split
    · next hw => rw [hg.text t hw]
    · rfl
  | group o inner c => rfl

private theorem opensWith_map (p : Piece) (s : String) : (p.map g).opensWith s = p.opensWith s := by
  cases p <;> simp [map, opensWith, hg.is]

private theorem continuesType_map (ps : List Piece) :
    continuesType (ps.map (map g)) = continuesType ps := by
  cases ps <;> simp [continuesType, is_map hg, word?_map hg]

theorem dropModifiers_map (annotated : Bool) (ps : List Piece) :
    dropModifiers annotated (ps.map (map g)) = (dropModifiers annotated ps).map (map g) := by
  fun_induction dropModifiers annotated ps
  all_goals
    rw [dropModifiers.eq_def]
    simp only [List.map_cons, List.map_nil, is_map hg, word?_map hg, opensWith_map hg,
      continuesType_map hg, *, if_true, if_false, Bool.false_eq_true]
  next ps hno =>
    match ps with
    | [] | [_] => rfl
    | p :: q :: ps => exact (hno p q ps rfl).elim

private theorem dropAngles_map (depth : Nat) (ps : List Piece) :
    dropAngles depth (ps.map (map g)) = (dropAngles depth ps).map (map g) := by
  fun_induction dropAngles depth ps
  all_goals simp_all [dropAngles, is_map hg]

private theorem dropTypeParameters_map (ps : List Piece) :
    dropTypeParameters (ps.map (map g)) = (dropTypeParameters ps).map (map g) := by
  cases ps with
  | nil => rfl
  | cons p ps =>
    simp only [List.map_cons, dropTypeParameters, is_map hg]
    split
    · exact dropAngles_map hg 1 ps
    · rfl

private theorem beforeAnnotationName_map (annotated : Bool) (p : Piece) :
    beforeAnnotationName annotated (p.map g) = beforeAnnotationName annotated p := by
  simp [beforeAnnotationName, is_map hg]

private theorem isAnnotationArguments_map (annotated : Bool) (p : Piece) :
    isAnnotationArguments annotated (p.map g) = isAnnotationArguments annotated p := by
  simp [isAnnotationArguments, opensWith_map hg]

theorem splitType_map (depth : Nat) (named annotated : Bool) (ps : List Piece) :
    splitType depth named annotated (ps.map (map g)) =
      ((splitType depth named annotated ps).1.map (map g), (splitType depth named annotated ps).2.map (map g)) := by
  fun_induction splitType depth named annotated ps
  all_goals
    rw [splitType.eq_def]
    simp +zetaDelta only [List.map_cons, List.map_nil, is_map hg, word?_map hg, opensWith_map hg,
      beforeAnnotationName_map hg, isAnnotationArguments_map hg, *, if_true, if_false, Bool.false_eq_true]

private theorem declaratorsFollow_map (d : Declarator) (ps : List Piece) :
    declaratorsFollow d (ps.map (map g)) = declaratorsFollow d ps := by
  induction ps generalizing d with
  | nil => cases d <;> rfl
  | cons p ps ih =>
    cases d <;> simp [declaratorsFollow, is_map hg, word?_map hg, opensWith_map hg, ih]

private theorem laterNames_map (ps : List Piece) : laterNames (ps.map (map g)) = laterNames ps := by
  fun_induction laterNames ps with
  | case1 => rfl
  | case2 p h => simp [declaratorsFollow] at h
  | case3 p name rest h ih =>
    obtain ⟨w, hw⟩ : ∃ w, name.word? = some w := by
      simp only [declaratorsFollow, Bool.and_eq_true] at h
      exact Option.isSome_iff_exists.1 h.2.1
    have hd := declaratorsFollow_map hg .start (name :: rest)
    simp only [List.map_cons] at hd
    simp only [List.map_cons, laterNames, is_map hg, hd, h, if_true, ih, written_word hw,
      written_word ((word?_map hg name).trans hw)]
  | case4 p ps h ih =>
    rw [List.map_cons, laterNames.eq_def]
    simp only [is_map hg, declaratorsFollow_map hg, h, if_false, Bool.false_eq_true, ih]

theorem splitCommas_map (depth : Nat) (ps : List Piece) :
    splitCommas depth (ps.map (map g)) = (splitCommas depth ps).map (List.map (map g)) := by
  induction ps generalizing depth with
  | nil => rfl
  | cons p ps ih =>
    simp only [List.map_cons, splitCommas, is_map hg, ih]
    split
    · cases splitCommas (depth + 1) ps <;> rfl
    · split
      · cases splitCommas (depth - 1) ps <;> rfl
      · split
        · rfl
        · cases splitCommas depth ps <;> rfl

end
end Piece

namespace Member

section

variable {g : Token → Token} (hg : KeepsSymbols g)
include hg

private theorem parenthesised?_map (ps : List Piece) :
    parenthesised? (ps.map (Piece.map g)) =
      (parenthesised? ps).map fun (inner, rest) => (inner.map g, rest.map (Piece.map g)) := by
  match ps with
  | [] | .token _ :: _ => rfl
  | .group o inner c :: rest =>
    simp only [List.map_cons, Piece.map, parenthesised?, hg.is]
    split <;> rfl

theorem typeHead?_map (head : List Piece) :
    typeHead? (head.map (Piece.map g)) = typeHead? head := by
  unfold typeHead?
  rw [Piece.dropModifiers_map hg]
  match Piece.dropModifiers false head with
  | [] | [_] | [_, _] | _ :: _ :: _ :: _ =>
    simp [Piece.is_map hg, Piece.word?_map hg, Piece.opensWith_map hg]

theorem endsMember_map (kind : ClassKind) (head : List Piece) :
    endsMember kind (head.map (Piece.map g)) = endsMember kind head := by
  simp [endsMember, Piece.is_map hg, Function.comp_def]

private theorem isSome_parameter?_map (ps : List Piece) :
    (parameter? (ps.map (Piece.map g))).isSome = (parameter? ps).isSome := by
  simp only [parameter?, Piece.dropModifiers_map hg, Piece.splitType_map hg]
  match (Piece.splitType 0 false false (Piece.dropModifiers false ps)).2 with
  | [] => rfl
  | p :: more =>
    simp only [List.map_cons, List.any_cons, List.any_map, Function.comp_def, Piece.is_map hg,
      Piece.word?_map hg]
    split
    · rw [Piece.dropModifiers_map hg]
      cases Piece.dropModifiers false more <;> rfl
    · by_cases ht : (p.is "this" || more.any fun x => x.is "this")
      · simp only [ht, if_true]
      · simp only [ht, if_false, Bool.false_eq_true, Option.isSome_map]

theorem length_parameters_map (inner : Forest) :
    (parameters (inner.map g)).length = (parameters inner).length := by
  rw [parameters, parameters, Piece.ofForest_map, Piece.splitCommas_map hg,
    List.length_filterMap_eq_countP, List.length_filterMap_eq_countP, List.countP_map]
  simp only [Function.comp_def, isSome_parameter?_map hg]

end

/-- What a member is read from, apart from its place: the pieces of its type, the inside of its
parentheses, its body. -/
inductive Shape where
  | field (name : Text) (type : List Piece)
  | constructor (name : Text) (inner : Forest) (body? : Option Piece)
  | method (name : Text) (inner : Forest) (type behind : List Piece) (body? : Option Piece)

namespace Shape

def member (place : Preceding × Nat) : Shape → Member
  | field name type =>
    .field { name, type := Piece.written type, comment := place.1, start := place.2 }
  | constructor name inner body? =>
    .constructor
      { name, isConstructor := true, parameters := parameters inner, returnType? := none
        body? := (bodyOf body?).1
        returned? := (bodyOf body?).2
        comment := place.1
        start := place.2 }
  | method name inner type behind body? =>
    .method
      { name, isConstructor := false, parameters := parameters inner
        returnType? := some (Piece.written type ++ dimensions behind)
        body? := (bodyOf body?).1
        returned? := (bodyOf body?).2
        comment := place.1
        start := place.2 }

def map (g : Token → Token) : Shape → Shape
  | field name type => field name (type.map (Piece.map g))
  | constructor name inner body? => constructor name (inner.map g) (body?.map (Piece.map g))
  | method name inner type behind body? =>
    method name (inner.map g) (type.map (Piece.map g)) (behind.map (Piece.map g))
      (body?.map (Piece.map g))

end Shape

def shapes (head : List Piece) (body? : Option Piece) : List Shape :=
  match Piece.dropModifiers false (Piece.dropTypeParameters (Piece.dropModifiers false head)) with
  | [] => []
  | p :: ps =>
    match parenthesised? ps, p.word? with
    | some (inner, _), some name => [.constructor name inner body?]
    | some _, none => []
    | none, _ =>
      match Piece.splitType 0 false false (p :: ps), body? with
      | (_, []), none => []
      | (_, []), some body => (p.word?.map fun name => .constructor name .nil (some body)).toList
      | (type, name :: rest), body? =>
        match name.word?, parenthesised? rest with
        | none, _ => []
        | some name, some (inner, behind) => [.method name inner type behind body?]
        | some name, none => (name :: Piece.laterNames rest).map fun name => .field name type

theorem ofHead_eq (head : List Piece) (body? : Option Piece) :
    ofHead head body? = (shapes head body?).map (Shape.member (placeOf head)) := by
  unfold ofHead shapes
  generalize Piece.dropModifiers false
    (Piece.dropTypeParameters (Piece.dropModifiers false head)) = qs
  match qs with
  | [] => rfl
  | p :: ps =>
    simp only
    cases parenthesised? ps with
    | some inside => cases p.word? <;> rfl
    | none =>
      obtain ⟨type, rest⟩ := Piece.splitType 0 false false (p :: ps)
      cases rest with
      | nil => cases body? <;> cases p.word? <;> rfl
      | cons name rest =>
        simp only
        cases name.word? with
        | none => rfl
        | some w =>
          cases parenthesised? rest with
          | none => simp [fieldsOf, Shape.member, Function.comp_def]
          | some inside => rfl

section

variable {g : Token → Token} (hg : KeepsSymbols g)
include hg

/-- What a head declares is read from the same parts after a change of the tokens. -/
theorem shapes_map (head : List Piece) (body? : Option Piece) :
    shapes (head.map (Piece.map g)) (body?.map (Piece.map g)) =
      (shapes head body?).map (Shape.map g) := by
  unfold shapes
  rw [Piece.dropModifiers_map hg, Piece.dropTypeParameters_map hg, Piece.dropModifiers_map hg]
  generalize Piece.dropModifiers false
    (Piece.dropTypeParameters (Piece.dropModifiers false head)) = qs
  match qs with
  | [] => rfl
  | p :: ps =>
    have hs := Piece.splitType_map hg 0 false false (p :: ps)
    simp only [List.map_cons] at hs
    simp only [List.map_cons, parenthesised?_map hg, Piece.word?_map hg, hs]
    cases parenthesised? ps with
    | some inside => cases p.word? <;> rfl
    | none =>
      obtain ⟨type, rest⟩ := Piece.splitType 0 false false (p :: ps)
      cases rest with
      | nil => cases body? <;> cases p.word? <;> rfl
      | cons name rest =>
        simp only [Option.map_none, List.map_cons, Piece.word?_map hg, parenthesised?_map hg,
          Piece.laterNames_map hg]
        cases name.word? with
        | none => rfl
        | some w => cases parenthesised? rest <;> simp [Shape.map, Function.comp_def]

end

end Member
end Javadoc.Java
