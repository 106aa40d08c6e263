import Javadoc.Proofs.Java.Nodes

/-! The first type of a source read on its own: the tokens from the start of its head to its
closing brace are read as the same type, whatever stands around it in the source. -/
namespace Javadoc.Java

namespace Forest

def ofPieces : List Piece → Forest → Forest
  | [], f => f
  | .token t :: ps, f => leaf t (ofPieces ps f)
  | .group o inner c :: ps, f => group o inner c (ofPieces ps f)

private theorem tokens_ofPieces (ps : List Piece) (f : Forest) :
    (ofPieces ps f).tokens = ps.flatMap Piece.tokens ++ f.tokens := by
  induction ps with
  | nil => rfl
  | cons p ps ih => cases p <;> simp [ofPieces, tokens, Piece.tokens, ih]

private theorem ofPieces_append (ps qs : List Piece) (f : Forest) :
    ofPieces (ps ++ qs) f = ofPieces ps (ofPieces qs f) := by
  induction ps with
  | nil => rfl
  | cons p ps ih => cases p <;> simp [ofPieces, ih]

private theorem exists_row_of_ofPieces {a b : Bool} {ps : List Piece} {f : Forest}
    (h : Row a b (ofPieces ps f)) : ∃ a', Row a' b f := by
  induction ps generalizing a with
  | nil => exact ⟨a, h⟩
  | cons p ps ih =>
    cases p with
    | token t =>
      simp only [ofPieces, Row] at h
      split at h
      · exact ih h.2
      · split at h
        · exact ih h.2
        · exact ih h
    | group o inner c => exact ih h.2.2.2.2

private theorem row_ofPieces {a b : Bool} {ps : List Piece} {f g : Forest}
    (h : Row a b (ofPieces ps f))
    (hg : ∀ a', Row a' b f → Row a' b g) : Row a b (ofPieces ps g) := by
  induction ps generalizing a with
  | nil => exact hg a h
  | cons p ps ih =>
    cases p with
    | token t =>
      simp only [ofPieces, Row] at h ⊢
      split at h
      · next hc => rw [if_pos hc]; exact ⟨h.1, ih h.2⟩
      · next hc =>
        rw [if_neg hc]
        split at h
        · next ho => rw [if_pos ho]; exact ⟨h.1, ih h.2⟩
        · next ho => rw [if_neg ho]; exact ih h
    | group o inner c => exact ⟨h.1, h.2.1, h.2.2.1, h.2.2.2.1, ih h.2.2.2.2⟩

end Forest

namespace Tree

def firstType? : Tree → Option Tree
  | nil _ => none
  | filler _ rest => rest.firstType?
  | plain _ _ rest => rest.firstType?
  | type kind name head o inside c _ => some (type kind name head o inside c (nil []))

theorem firstType?_map (g : Token → Token) (T : Tree) :
    (T.map g).firstType? = T.firstType?.map (map g) := by
  induction T with
  | nil head => rfl
  | filler p rest ih => exact ih
  | plain head last rest ih => exact ih
  | type kind name head o inside c rest => rfl

theorem head?_nested (T : Tree) :
    (T.members.filterMap Member.nested?).head? =
      T.firstType?.bind fun N => (N.members.filterMap Member.nested?).head? := by
  induction T with
  | nil head => rfl
  | filler p rest ih => exact ih
  | plain head last rest ih =>
    rw [members, List.filterMap_append, filterMap_nested?_ofHead, List.nil_append, ih, firstType?]
  | type kind name head o inside c rest => rfl

private def Runs (kind : ClassKind) (head : List Piece) : Prop :=
  ∀ f, ofForest kind false [] (Forest.ofPieces head f) = ofForest kind false head f

private theorem alone {kind : ClassKind} {head : List Piece} (hr : Runs kind head) {f : Forest}
    (hf : Forest.Row true true (Forest.ofPieces head f)) {N : Tree}
    (h : (ofForest kind false head f).firstType? = some N) :
    ∃ F, F.tokens = N.tokens ∧ Forest.Row true true F ∧ ofForest kind false [] F = N ∧
      ∃ pre post, head.flatMap Piece.tokens ++ f.tokens = pre ++ (N.tokens ++ post) := by
  have hskip (lead : List Token) {rest : Forest} (hrest : ∃ a, Forest.Row a true rest)
      (ih : Forest.Row true true rest → ∃ F, F.tokens = N.tokens ∧ Forest.Row true true F ∧
        ofForest kind false [] F = N ∧ ∃ pre post, rest.tokens = pre ++ (N.tokens ++ post)) :
      ∃ F, F.tokens = N.tokens ∧ Forest.Row true true F ∧ ofForest kind false [] F = N ∧
        ∃ pre post, lead ++ rest.tokens = pre ++ (N.tokens ++ post) := by
    obtain ⟨a, ha⟩ := hrest
    obtain ⟨F, h₁, h₂, h₃, pre, post, hp⟩ := ih (ha.mono (by simp) (by simp))
    exact ⟨F, h₁, h₂, h₃, lead ++ pre, post, by rw [hp, List.append_assoc]⟩
  have hnil : Runs kind [] := fun _ => rfl
  induction f generalizing head with
  | nil => cases h
  | leaf t rest ih =>
    have hrow : Forest.Row true true (Forest.ofPieces (head ++ [.token t]) rest) := by
      rw [Forest.ofPieces_append]
      exact hf
    simp only [ofForest, Bool.false_eq_true, if_false] at h
    split at h
    · have := hskip (head.flatMap Piece.tokens ++ [t])
        (Forest.exists_row_of_ofPieces hrow) fun hr' => by
          simpa using ih hnil hr' h
      simpa [Forest.tokens] using this
    · next ht =>
      have hruns : Runs kind (head ++ [.token t]) := by
        intro g
        rw [Forest.ofPieces_append, hr]
        simp [Forest.ofPieces, ofForest, ht]
      simpa [Piece.tokens, Forest.tokens] using ih hruns hrow h
  | group o inner c rest _ ih =>
    have hrow : Forest.Row true true (Forest.ofPieces (head ++ [.group o inner c]) rest) := by
      rw [Forest.ofPieces_append]
      exact hf
    simp only [ofForest, Bool.false_eq_true, if_false] at h
    split at h
    · next hb =>
      split at h
      · next nestedKind name htype =>
        simp only [firstType?, Option.some.injEq] at h
        refine ⟨Forest.ofPieces head (.group o inner c .nil), ?_, ?_, ?_, [], rest.tokens, ?_⟩
        · rw [← h, Forest.tokens_ofPieces, tokens, tokens_ofForest _ _ (by simp)]
          simp [Forest.tokens, tokens]
        · exact Forest.row_ofPieces hf fun a' ha => ⟨ha.1, ha.2.1, ha.2.2.1, ha.2.2.2.1, trivial⟩
        · rw [hr, ← h]
          simp [ofForest, hb, htype]
        · rw [← h, tokens, tokens_ofForest _ _ (by simp)]
          simp [Forest.tokens, tokens]
      · have := hskip (head.flatMap Piece.tokens ++ (o :: inner.tokens ++ [c]))
          (Forest.exists_row_of_ofPieces hrow) fun hr' => by
            simpa using ih hnil hr' h
        simpa [Forest.tokens] using this
    · next hb =>
      have hruns : Runs kind (head ++ [.group o inner c]) := by
        intro g
        rw [Forest.ofPieces_append, hr]
        simp only [Forest.ofPieces, ofForest, hb]
        rfl
      simpa [Piece.tokens, Forest.tokens] using ih hruns hrow h

/-- The first type lies in one stretch of the tokens of a source. -/
theorem tokens_firstType {source : Text} {N : Tree} (h : (scan source).firstType? = some N) :
    ∃ pre post, Token.scan source = pre ++ (N.tokens ++ post) := by
  have hrow : Forest.Row true true (Forest.ofPieces [] (Forest.scan source)) :=
    Forest.row_ofTokens (Token.scan source)
  obtain ⟨-, -, -, -, pre, post, hp⟩ := alone (fun _ => rfl) hrow h
  refine ⟨pre, post, ?_⟩
  rw [Forest.scan, Forest.tokens_ofTokens] at hp
  exact hp

theorem nodup_firstType {source : Text} {N : Tree} (h : (scan source).firstType? = some N) :
    N.tokens.Nodup := by
  obtain ⟨pre, post, hscan⟩ := tokens_firstType h
  have hnodup := Token.nodup_scan source
  rw [hscan] at hnodup
  exact (List.nodup_append.1 (List.nodup_append.1 hnodup).2.1).1

private theorem exists_closing {kind : ClassKind} {head : List Piece} {a b : Bool} {f : Forest}
    (hf : f.Row a b) {N : Tree} (h : (ofForest kind false head f).firstType? = some N) :
    ∃ ts c, N.tokens = ts ++ [c] ∧ Forest.isClosing c := by
  induction f generalizing head a with
  | nil => cases h
  | leaf t rest ih =>
    have hrest : ∃ a, rest.Row a b := Forest.exists_row_of_ofPieces (show Forest.Row a b (Forest.ofPieces [.token t] rest) from hf)
    obtain ⟨a, hrest⟩ := hrest
    simp only [ofForest, Bool.false_eq_true, if_false] at h
    split at h
    · exact ih hrest h
    · exact ih hrest h
  | group o inner c rest _ ih =>
    obtain ⟨-, -, hc, -, hrest⟩ := hf
    simp only [ofForest, Bool.false_eq_true, if_false] at h
    split at h
    · split at h
      · simp only [firstType?, Option.some.injEq] at h
        rw [← h, tokens, tokens]
        exact ⟨_, c, by rw [List.flatMap_nil, ← List.append_assoc], hc⟩
      · exact ih hrest h
    · exact ih hrest h

/-- The first type ends with a closing bracket. -/
theorem exists_closing_firstType {source : Text} {N : Tree} (h : (scan source).firstType? = some N) :
    ∃ ts c, N.tokens = ts ++ [c] ∧ Forest.isClosing c :=
  exists_closing (Forest.row_ofTokens (Token.scan source)) h

/-- The first type with its tokens changed is what reading the changed tokens alone gives. -/
theorem scan_of_alone {source text : Text} {N : Tree} (h : (scan source).firstType? = some N)
    {g : Token → Token} (hg : KeepsSymbols g) (ht : Token.scan text = N.tokens.map g) :
    scan text = N.map g := by
  have hscan : Forest.Row true true (Forest.ofPieces [] (Forest.scan source)) :=
    Forest.row_ofTokens (Token.scan source)
  obtain ⟨F, hF, hrow, hN, -⟩ := alone (fun _ => rfl) hscan h
  rw [scan, Forest.scan, ht, ← hF, Forest.ofTokens_map hg, Forest.ofTokens_tokens hrow, ← hN]
  exact ofForest_map hg .class false [] F

end Tree
end Javadoc.Java
