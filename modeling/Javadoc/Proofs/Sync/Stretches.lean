import Javadoc.Proofs.Java.Alone
import Javadoc.Sync.Synchronizer

/-! The stretches that a type is updated in: its own text around the types nested in it, cut into
lexemes, with the comments in which entries may stand. -/
namespace Javadoc

namespace Java

structure Stretch where
  path : Text
  lexemes : List (Lexeme × Bool)

def textOf (ls : List (Lexeme × Bool)) : Text := ls.flatMap (·.1.text)

@[simp] theorem textOf_nil : textOf [] = [] := rfl

@[simp] theorem textOf_append (ls ms : List (Lexeme × Bool)) :
    textOf (ls ++ ms) = textOf ls ++ textOf ms := List.flatMap_append

namespace Token

def markedLead (inBody : Bool) (t : Token) : List (Lexeme × Bool) :=
  t.lead.map fun l => (l, l.kind == .blockComment && !inBody)

def marked (inBody : Bool) (t : Token) : List (Lexeme × Bool) :=
  t.markedLead inBody ++ [(t.lexeme, false)]

@[simp] theorem textOf_markedLead (inBody : Bool) (t : Token) :
    textOf (t.markedLead inBody) = t.lead.flatMap (·.text) := by
  simp [textOf, markedLead, List.flatMap_map]

@[simp] theorem textOf_marked (inBody : Bool) (t : Token) :
    textOf (t.marked inBody) = t.source := by
  rw [marked, textOf_append, textOf_markedLead]
  simp [textOf, source, text]

end Token

private theorem textOf_flatMap_marked (inBody : Bool) (ts : List Token) :
    textOf (ts.flatMap (Token.marked inBody)) = ts.flatMap Token.source := by
  induction ts with
  | nil => rfl
  | cons t ts ih => simp [ih]

def Mark.lexemes (m : Mark) : List (Lexeme × Bool) := m.token.marked m.inBody

theorem textOf_flatMap_lexemes (ms : List Mark) :
    textOf (ms.flatMap Mark.lexemes) = (ms.map Mark.token).flatMap Token.source := by
  induction ms with
  | nil => rfl
  | cons m ms ih => simp [Mark.lexemes, ih]

namespace Tree

def beforeHead (head : List Piece) : List (Lexeme × Bool) :=
  match head.flatMap Piece.tokens with
  | [] => []
  | t :: _ => t.markedLead false

def ownHead (head : List Piece) : List (Lexeme × Bool) :=
  match head.flatMap Piece.tokens with
  | [] => []
  | t :: ts => (t.lexeme, false) :: ts.flatMap (Token.marked false)

/-- The stretches of the type at `path` and of the types in it, when `before` has been read of one
and `behind` follows the tree. -/
def stretches (path : Text) (before behind : List (Lexeme × Bool)) : Tree → List Stretch
  | nil head => [⟨path, before ++ ((headMarks path path head).flatMap Mark.lexemes ++ behind)⟩]
  | filler p rest => rest.stretches path (before ++ p.tokens.flatMap (Token.marked false)) behind
  | plain head last rest =>
    let body := lastMarks path ((Member.ofHead head (bodyAt last)).any Member.ownsEntries) last
    rest.stretches path
      (before ++ ((headMarks path path head).flatMap Mark.lexemes ++ body.flatMap Mark.lexemes))
      behind
  | type _ name head o inside c rest =>
    ⟨path, before ++ beforeHead head⟩ ::
      (inside.stretches (ClassDecl.pathIn path name) (ownHead head ++ o.marked false)
        (c.marked false) ++ rest.stretches path [] behind)

def ownStretches (source : Text) : List Stretch :=
  match (scan source).firstType? with
  | some (type _ name head o inside c _) =>
    inside.stretches name (ownHead head ++ o.marked false) (c.marked false)
  | _ => []

theorem exists_flatMap_tokens {head : List Piece} (h : head ≠ []) :
    ∃ t ts, head.flatMap Piece.tokens = t :: ts := by
  obtain ⟨p, ps, rfl⟩ := List.exists_cons_of_ne_nil h
  exact ⟨p.first, _, by rw [List.flatMap_cons, Piece.tokens_eq_cons, List.cons_append]⟩

theorem placeOf_eq {head : List Piece} {t : Token} {ts : List Token}
    (h : head.flatMap Piece.tokens = t :: ts) :
    Member.placeOf head = (t.preceding, t.start) := by
  cases head with
  | nil => cases h
  | cons p ps =>
    rw [List.flatMap_cons, Piece.tokens_eq_cons, List.cons_append, List.cons.injEq] at h
    rw [Member.placeOf, h.1]

private theorem textOf_beforeHead {head : List Piece} {t : Token} {ts : List Token}
    (h : head.flatMap Piece.tokens = t :: ts) :
    textOf (beforeHead head) = t.lead.flatMap (·.text) := by
  rw [beforeHead, h, Token.textOf_markedLead]

private theorem textOf_ownHead {head : List Piece} {t : Token} {ts : List Token}
    (h : head.flatMap Piece.tokens = t :: ts) :
    textOf (ownHead head) = t.text ++ ts.flatMap Token.source := by
  rw [ownHead, h]
  exact congrArg (t.text ++ ·) (textOf_flatMap_marked false ts)

section

variable {kind : ClassKind} {name : Text} {head : List Piece} {o c : Token} {inside rest : Tree}

/-- The text of a type around what is inside of it, and of what follows it. -/
theorem flatMap_source_type (h : head ≠ []) :
    (type kind name head o inside c rest).tokens.flatMap Token.source =
      textOf (beforeHead head) ++ (textOf (ownHead head ++ o.marked false) ++
        (inside.tokens.flatMap Token.source ++
          (textOf (c.marked false) ++ rest.tokens.flatMap Token.source))) := by
  obtain ⟨t, ts, hhead⟩ := exists_flatMap_tokens h
  simp [tokens, hhead, textOf_beforeHead hhead, textOf_ownHead hhead, Token.source]

/-- Where a type starts and stops, and where what is inside and what follows stands. -/
theorem place_type (h : head ≠ []) {origin : Nat}
    (hplace : Token.place origin (type kind name head o inside c rest).tokens =
      (type kind name head o inside c rest).tokens) :
    (Member.placeOf head).2 = origin + Text.size (textOf (beforeHead head)) ∧
      c.stop = (Member.placeOf head).2 + Text.size (textOf (ownHead head ++ o.marked false) ++
        (inside.tokens.flatMap Token.source ++ textOf (c.marked false))) ∧
      Token.place ((Member.placeOf head).2 + Text.size (textOf (ownHead head ++ o.marked false)))
        inside.tokens = inside.tokens ∧
      Token.place c.stop rest.tokens = rest.tokens := by
  obtain ⟨t, ts, hhead⟩ := exists_flatMap_tokens h
  have htokens : (type kind name head o inside c rest).tokens =
      ([t] ++ (ts ++ [o])) ++ (inside.tokens ++ ([c] ++ rest.tokens)) := by
    simp [tokens, hhead]
  have hfront : Text.size (([t] ++ (ts ++ [o])).flatMap Token.source) =
      Text.size (textOf (beforeHead head)) + Text.size (textOf (ownHead head ++ o.marked false)) := by
    rw [← Text.size_append, textOf_append, textOf_beforeHead hhead, textOf_ownHead hhead]
    simp [Token.source]
  rw [htokens] at hplace
  obtain ⟨ht, hplace⟩ := Token.place_append_eq hplace
  obtain ⟨hinside, hplace⟩ := Token.place_append_eq hplace
  obtain ⟨hc, hrest⟩ := Token.place_append_eq hplace
  have hc := Token.origin_eq hc
  rw [hfront, ← Nat.add_assoc] at hinside hc hrest
  have hstart : (Member.placeOf head).2 = origin + Text.size (textOf (beforeHead head)) := by
    rw [placeOf_eq hhead, textOf_beforeHead hhead, Token.size_lead,
      ← Token.origin_eq (Token.place_append_eq ht).1]
    rfl
  have hstop : c.stop = c.origin + Text.size c.source := by
    rw [Token.stop, Token.start, Token.size_source, Nat.add_assoc]
  have hclosing : Text.size ([c].flatMap Token.source) = Text.size c.source := by simp
  rw [hclosing, ← hc, ← hstop] at hrest
  rw [← hstart] at hinside hc
  refine ⟨hstart, ?_, hinside, hrest⟩
  rw [hstop, hc, Token.textOf_marked, Text.size_append, Text.size_append, Nat.add_assoc,
    Nat.add_assoc]

end

/-- The segments of a type are the texts of its stretches. -/
theorem slices_ofRest {T : Tree} (hT : T.Typed) {source x y path : Text}
    {before behind : List (Lexeme × Bool)} {start stop : Nat} (hpath : path ≠ [])
    (hsource : source = x ++ (textOf before ++ (T.tokens.flatMap Token.source ++
      (textOf behind ++ y))))
    (hplace : Token.place (Text.size (x ++ textOf before)) T.tokens = T.tokens)
    (hstart : start = Text.size x)
    (hstop : stop = Text.size (x ++ (textOf before ++ (T.tokens.flatMap Token.source ++
      textOf behind)))) :
    (Segment.ofRest path start stop (T.members.filterMap Member.nested?)).map
        (fun s => (s.path, Text.slice? s.start s.stop source)) =
      (T.stretches path before behind).map fun s => (s.path, some (textOf s.lexemes)) := by
  induction T generalizing x y path before behind start stop with
  | nil head =>
    have hslice := Text.slice?_size x
      (textOf before ++ ((head.flatMap Piece.tokens).flatMap Token.source ++ textOf behind)) y
    simp only [List.append_assoc] at hslice
    simp only [members, List.filterMap_nil, Segment.ofRest, stretches, List.map_cons, List.map_nil,
      textOf_append, textOf_flatMap_lexemes, map_token_headMarks]
    rw [hstart, hstop, hsource, Text.size_append x, tokens, hslice]
  | filler p rest ih =>
    rw [tokens] at hplace hsource hstop
    obtain ⟨-, hplace⟩ := Token.place_append_eq hplace
    rw [stretches]
    refine ih (y := y) hT hpath ?_ ?_ hstart ?_
    · simpa [textOf_flatMap_marked] using hsource
    · simpa [textOf_flatMap_marked, Text.size_append, Nat.add_assoc] using hplace
    · simpa [textOf_flatMap_marked] using hstop
  | plain head last rest ih =>
    rw [tokens, ← List.append_assoc] at hplace hsource hstop
    obtain ⟨-, hplace⟩ := Token.place_append_eq hplace
    rw [members, List.filterMap_append, filterMap_nested?_ofHead, List.nil_append, stretches]
    refine ih (y := y) hT hpath ?_ ?_ hstart ?_
    · simpa [textOf_flatMap_lexemes, map_token_headMarks, map_token_lastMarks] using hsource
    · simpa [textOf_flatMap_lexemes, map_token_headMarks, map_token_lastMarks, Text.size_append,
        Nat.add_assoc] using hplace
    · simpa [textOf_flatMap_lexemes, map_token_headMarks, map_token_lastMarks] using hstop
  | type kind name head o inside c rest ih₁ ih₂ =>
    obtain ⟨hh, hi, hr⟩ := hT
    have hne := ne_nil_of_typeHead? hh
    have hinner : ClassDecl.pathIn path name = path ++ '.' :: name := by
      simp [ClassDecl.pathIn, hpath]
    obtain ⟨hbegin, hend, hinside, hrest⟩ := place_type hne hplace
    rw [flatMap_source_type hne] at hsource hstop
    simp only [List.append_assoc] at hsource hstop
    rw [← Text.size_append, List.append_assoc] at hbegin
    rw [hbegin, ← Text.size_append] at hend hinside
    simp only [members, List.filterMap_cons, Member.nested?, Member.declare, Segment.ofRest,
      Segment.ofClass, ClassDecl.own, stretches, List.map_cons, List.map_append, List.cons_append,
      ← hinner]
    -- what stands before the type, the inside of the type, and what follows it
    refine congrArg₂ List.cons ?_ (congrArg₂ (· ++ ·) ?_ ?_)
    · have hslice := Text.slice?_size x (textOf before ++ textOf (beforeHead head))
        (textOf (ownHead head ++ o.marked false) ++ (inside.tokens.flatMap Token.source ++
          (textOf (c.marked false) ++ (rest.tokens.flatMap Token.source ++ (textOf behind ++ y)))))
      rw [List.append_assoc, ← hsource, ← Text.size_append, ← hbegin, ← hstart] at hslice
      rw [hslice, textOf_append]
    · refine ih₁ (y := rest.tokens.flatMap Token.source ++ (textOf behind ++ y)) hi
        (by simp [hinner]) ?_ hinside hbegin hend
      simpa only [List.append_assoc] using hsource
    · refine ih₂ (y := y) hr hpath ?_ ?_ hend ?_
      · simpa only [List.append_assoc, textOf_nil, List.nil_append] using hsource
      · rwa [textOf_nil, List.append_nil, ← hend]
      · simpa only [List.append_assoc, textOf_nil, List.nil_append] using hstop

private theorem path_of_mem_headMarks {path : Text} {head : List Piece} {m : Mark}
    (h : m ∈ headMarks path path head) : m.path = path := by
  unfold headMarks at h
  split at h
  · cases h
  · rcases List.mem_cons.1 h with rfl | h
    · rfl
    · obtain ⟨t, -, rfl⟩ := List.mem_map.1 h
      rfl

private theorem path_of_mem_lastMarks {path : Text} {inBody : Bool} {last : Piece} {m : Mark}
    (h : m ∈ lastMarks path inBody last) : m.path = path := by
  unfold lastMarks at h
  split at h
  · cases h
  · rcases List.mem_cons.1 h with rfl | h
    · rfl
    · obtain ⟨t, -, rfl⟩ := List.mem_map.1 h
      rfl

/-- What is made of the stretches lexeme by lexeme is made of the tokens one after the other. -/
theorem flatMap_stretches {f : Text → Lexeme × Bool → Text} (hf : ∀ p l, f p (l, false) = l.text)
    (T : Tree) (path : Text) (before behind : List (Lexeme × Bool)) :
    (T.stretches path before behind).flatMap (fun s => s.lexemes.flatMap (f s.path)) =
      before.flatMap (f path) ++ ((T.marks path).flatMap (fun m => m.lexemes.flatMap (f m.path)) ++
        behind.flatMap (f path)) := by
  have hhead (outer path : Text) (head : List Piece) :
      (headMarks outer path head).flatMap (fun m => m.lexemes.flatMap (f m.path)) =
        (beforeHead head).flatMap (f outer) ++ (ownHead head).flatMap (f path) := by
    rw [headMarks, beforeHead, ownHead]
    cases head.flatMap Piece.tokens with
    | nil => rfl
    | cons t ts => simp [Mark.lexemes, Token.marked, List.flatMap_assoc, List.flatMap_map, hf]
  have hmarks {path : Text} {ms : List Mark} (h : ∀ m ∈ ms, m.path = path) :
      (ms.flatMap Mark.lexemes).flatMap (f path) =
        ms.flatMap fun m => m.lexemes.flatMap (f m.path) := by
    rw [List.flatMap_assoc]
    exact List.flatMap_congr fun m hm => by rw [h m hm]
  induction T generalizing path before behind with
  | nil head =>
    simp only [stretches, marks, List.flatMap_cons, List.flatMap_nil, List.append_nil,
      List.flatMap_append]
    rw [hmarks fun m => path_of_mem_headMarks]
  | filler p rest ih =>
    have hfill : (p.tokens.flatMap (Token.marked false)).flatMap (f path) =
        (p.tokens.map (⟨path, false, false, ·⟩)).flatMap
          fun m : Mark => m.lexemes.flatMap (f m.path) := by
      rw [List.flatMap_map, List.flatMap_assoc]
      rfl
    simp only [stretches, marks, ih, List.flatMap_append, hfill, List.append_assoc]
  | plain head last rest ih =>
    simp only [stretches, marks, ih, List.flatMap_append, List.append_assoc]
    rw [hmarks fun m => path_of_mem_headMarks, hmarks fun m => path_of_mem_lastMarks]
  | type kind name head o inside c rest ih₁ ih₂ =>
    simp only [stretches, marks, List.flatMap_cons, List.flatMap_append, ih₁, ih₂, hhead,
      List.append_assoc, List.flatMap_nil, List.nil_append]
    rfl

/-- The first type is a type with nothing behind it. -/
theorem firstType?_eq_some {T N : Tree} (h : T.firstType? = some N) (hT : T.Typed) :
    N.Typed ∧ ∃ kind name head o inside c, N = type kind name head o inside c (nil []) := by
  induction T with
  | nil head => cases h
  | filler p rest ih => exact ih h hT
  | plain head last rest ih => exact ih h hT
  | type kind name head o inside c rest ih₁ ih₂ =>
    simp only [firstType?, Option.some.injEq] at h
    subst h
    exact ⟨⟨hT.1, hT.2.1, trivial⟩, kind, name, head, o, inside, c, rfl⟩

end Tree
end Java
end Javadoc
