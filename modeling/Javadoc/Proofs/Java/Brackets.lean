import Javadoc.Java.Piece
import Javadoc.Proofs.Java.Tokens

/-! Matching brackets looks at symbols alone, so that it commutes with moving tokens and changing
what stands before them, and it matches the tokens of a part of a row as it did in the row. -/
namespace Javadoc.Java

def KeepsLexeme (g : Token → Token) : Prop := ∀ t, (g t).lexeme = t.lexeme

theorem KeepsLexeme.text {g : Token → Token} (hg : KeepsLexeme g) (t : Token) :
    (g t).text = t.text := congrArg Lexeme.text (hg t)

/-- Tokens that change one by one and keep their lexemes are changed by a function that keeps lexemes. -/
theorem exists_keepsLexeme {R : Token → Token → Prop} {ts us : List Token}
    (h : List.Forall₂ R ts us) (hn : ts.Nodup) (hR : ∀ s t, R s t → t.lexeme = s.lexeme) :
    ∃ g, KeepsLexeme g ∧ us = ts.map g ∧ ∀ t ∈ ts, R t (g t) :=
  Token.exists_map_of_forall₂ h hn (P := fun s t => t.lexeme = s.lexeme) (fun _ => rfl) hR

structure KeepsSymbols (g : Token → Token) : Prop where
  is : ∀ t s, (g t).is s = t.is s
  isWord : ∀ t, (g t).isWord = t.isWord
  text : ∀ t, t.isWord → (g t).text = t.text

theorem KeepsLexeme.symbols {g : Token → Token} (hg : KeepsLexeme g) : KeepsSymbols g where
  is t s := by rw [Token.is, Token.is, hg.text, hg t]
  isWord t := by rw [Token.isWord, Token.isWord, hg t]
  text t _ := hg.text t

namespace KeepsSymbols

variable {g : Token → Token} (hg : KeepsSymbols g)
include hg

private theorem isOpening (t : Token) : Forest.isOpening (g t) = Forest.isOpening t := by
  simp [Forest.isOpening, hg.is]

private theorem isClosing (t : Token) : Forest.isClosing (g t) = Forest.isClosing t := by
  simp [Forest.isClosing, hg.is]

end KeepsSymbols

namespace Forest

def map (g : Token → Token) : Forest → Forest
  | nil => nil
  | leaf t rest => leaf (g t) (rest.map g)
  | group o inner c rest => group (g o) (inner.map g) (g c) (rest.map g)

theorem tokens_map (g : Token → Token) (f : Forest) : (f.map g).tokens = f.tokens.map g := by
  induction f with
  | nil => rfl
  | leaf t rest ih => simp [map, tokens, ih]
  | group o inner c rest ih₁ ih₂ => simp [map, tokens, ih₁, ih₂]

private theorem map_append (g : Token → Token) (f h : Forest) :
    (f.append h).map g = (f.map g).append (h.map g) := by
  induction f with
  | nil => rfl
  | leaf t rest ih => simp [map, append, ih]
  | group o inner c rest _ ih => simp [map, append, ih]

/-- Two changes agree on a forest if they do on its tokens. -/
theorem map_congr {g h : Token → Token} {f : Forest} (hf : ∀ t ∈ f.tokens, g t = h t) :
    f.map g = f.map h := by
  induction f with
  | nil => rfl
  | leaf t rest ih =>
    simp only [tokens, List.mem_cons, forall_eq_or_imp] at hf
    simp only [map, hf.1, ih hf.2]
  | group o inner c rest ih₁ ih₂ =>
    simp only [tokens, List.cons_append, List.mem_cons, List.mem_append, forall_eq_or_imp] at hf
    obtain ⟨ho, hf⟩ := hf
    rw [map, map, ho, hf c (.inr (.inl rfl)), ih₁ fun t ht => hf t (.inl ht),
      ih₂ fun t ht => hf t (.inr (.inr ht))]

theorem map_map (g h : Token → Token) (f : Forest) : (f.map g).map h = f.map fun t => h (g t) := by
  induction f with
  | nil => rfl
  | leaf t rest ih => simp [map, ih]
  | group o inner c rest ih₁ ih₂ => simp [map, ih₁, ih₂]

private def mapPending (g : Token → Token) (pending : Pending) : Pending :=
  pending.map fun (c, f) => (g c, f.map g)

private theorem push_map {g : Token → Token} (hg : KeepsSymbols g) (t : Token) (f : Forest)
    (pending : Pending) :
    push (g t) (f.map g, mapPending g pending) =
      ((push t (f, pending)).1.map g, mapPending g (push t (f, pending)).2) := by
  simp only [push, hg.isClosing, hg.isOpening]
  split
  · simp [map, mapPending]
  · split
    · cases pending <;> simp [map, mapPending]
    · simp [map]

private theorem settle_map (g : Token → Token) (f : Forest) (pending : Pending) :
    settle (f.map g) (mapPending g pending) = (settle f pending).map g := by
  induction pending generalizing f with
  | nil => rfl
  | cons p pending ih =>
    obtain ⟨c, behind⟩ := p
    simp only [mapPending, List.map_cons, settle, map_append, map] at ih ⊢
    rw [ih]

/-- Matching brackets commutes with a change of the tokens. -/
theorem ofTokens_map {g : Token → Token} (hg : KeepsSymbols g) (ts : List Token) :
    ofTokens (ts.map g) = (ofTokens ts).map g := by
  have hfold : (ts.map g).foldr push (nil, []) =
      ((ts.foldr push (nil, [])).1.map g, mapPending g (ts.foldr push (nil, [])).2) := by
    induction ts with
    | nil => rfl
    | cons t ts ih =>
      rw [List.map_cons, List.foldr_cons, ih, push_map hg, List.foldr_cons]
  simp only [ofTokens, hfold]
  exact settle_map g _ _

/-- Whether brackets stand in a row as matching leaves them: closing ones that nothing opened only
if `closing` says so and before all others, and opening ones that nothing closed only if `opening`
says so. -/
def Row (closing opening : Bool) : Forest → Prop
  | nil => True
  | leaf t rest =>
    if isClosing t then closing ∧ Row closing opening rest
    else if isOpening t then opening ∧ Row false opening rest
    else Row closing opening rest
  | group o inner c rest =>
    isClosing o = false ∧ isOpening o ∧ isClosing c ∧ Row false false inner ∧
      Row closing opening rest

theorem Row.mono {a b c d : Bool} {f : Forest} (h : Row a b f) (hac : a → c) (hbd : b → d) :
    Row c d f := by
  induction f generalizing a c with
  | nil => trivial
  | leaf t rest ih =>
    simp only [Row] at h ⊢
    split at h
    · next hc => rw [if_pos hc]; exact ⟨hac h.1, ih h.2 hac⟩
    · next hc =>
      rw [if_neg hc]
      split at h
      · next ho => rw [if_pos ho]; exact ⟨hbd h.1, ih h.2 (by simp)⟩
      · next ho => rw [if_neg ho]; exact ih h hac
  | group o inner c rest _ ih =>
    obtain ⟨h₁, h₂, h₃, h₄, h₅⟩ := h
    exact ⟨h₁, h₂, h₃, h₄, ih h₅ hac⟩

private theorem Row.append {f g : Forest} (hf : Row false false f) (hg : Row true true g) :
    Row true true (f.append g) := by
  induction f with
  | nil => exact hg
  | leaf t rest ih =>
    simp only [Row, Forest.append] at hf ⊢
    split at hf
    · simp at hf
    · next hc =>
      rw [if_neg hc]
      split at hf
      · simp at hf
      · next ho => rw [if_neg ho]; exact ih hf
  | group o inner c rest _ ih =>
    obtain ⟨h₁, h₂, h₃, h₄, h₅⟩ := hf
    exact ⟨h₁, h₂, h₃, h₄, ih h₅⟩

private def Matched (f : Forest) : Pending → Prop
  | [] => Row false true f
  | (c, behind) :: pending => Row false false f ∧ isClosing c ∧ Matched behind pending

private theorem matched_push (t : Token) {f : Forest} {pending : Pending}
    (h : Matched f pending) : Matched (push t (f, pending)).1 (push t (f, pending)).2 := by
  simp only [push]
  split
  · next hc => exact ⟨trivial, hc, h⟩
  · next hc =>
    split
    · next ho =>
      cases pending with
      | nil => simpa [Matched, Row, hc, ho] using h
      | cons p pending =>
        obtain ⟨c, behind⟩ := p
        obtain ⟨hf, hcl, hb⟩ := h
        cases pending with
        | nil => exact ⟨by simpa using hc, ho, hcl, hf, hb⟩
        | cons q pending => exact ⟨⟨by simpa using hc, ho, hcl, hf, hb.1⟩, hb.2⟩
    · next ho =>
      cases pending with
      | nil => simpa [Matched, Row, hc, ho] using h
      | cons p pending => exact ⟨by simpa [Row, hc, ho] using h.1, h.2⟩

private theorem row_settle {f : Forest} {pending : Pending} (h : Matched f pending) :
    Row true true (settle f pending) := by
  induction pending generalizing f with
  | nil => exact h.mono (by simp) (by simp)
  | cons p pending ih =>
    obtain ⟨c, behind⟩ := p
    exact h.1.append (by simpa [Row, h.2.1] using ih h.2.2)

theorem row_ofTokens (ts : List Token) : Row true true (ofTokens ts) := by
  have h : Matched (ts.foldr push (nil, [])).1 (ts.foldr push (nil, [])).2 := by
    induction ts with
    | nil => trivial
    | cons t ts ih => exact matched_push t ih
  exact row_settle h

private theorem append_nil (f : Forest) : f.append nil = f := by
  induction f with
  | nil => rfl
  | leaf t rest ih => simp [append, ih]
  | group o inner c rest _ ih => simp [append, ih]

private theorem foldr_push_nested {f : Forest} (h : Row false false f) (g : Forest)
    (pending : Pending) : f.tokens.foldr push (g, pending) = (f.append g, pending) := by
  induction f generalizing g pending with
  | nil => rfl
  | leaf t rest ih =>
    simp only [Row] at h
    split at h
    · simp at h
    · next hc =>
      split at h
      · simp at h
      · next ho => simp [tokens, append, ih h, push, hc, ho]
  | group o inner c rest ih₁ ih₂ =>
    obtain ⟨h₁, h₂, h₃, h₄, h₅⟩ := h
    simp [tokens, append, ih₂ h₅, ih₁ h₄, push, h₁, h₂, h₃, append_nil]

private theorem foldr_push_opened {f : Forest} (h : Row false true f) :
    f.tokens.foldr push (nil, []) = (f, []) := by
  induction f with
  | nil => rfl
  | leaf t rest ih =>
    simp only [Row] at h
    split at h
    · simp at h
    · next hc =>
      split at h
      · next ho => simp [tokens, ih h.2, push, hc, ho]
      · next ho => simp [tokens, ih h, push, hc, ho]
  | group o inner c rest _ ih =>
    obtain ⟨h₁, h₂, h₃, h₄, h₅⟩ := h
    simp [tokens, ih h₅, foldr_push_nested h₄, push, h₁, h₂, h₃, append_nil]

private theorem settle_leaf (t : Token) (f : Forest) (pending : Pending) :
    settle (leaf t f) pending = leaf t (settle f pending) := by
  cases pending <;> rfl

private theorem settle_group (o : Token) (inner : Forest) (c : Token) (f : Forest)
    (pending : Pending) :
    settle (group o inner c f) pending = group o inner c (settle f pending) := by
  cases pending <;> rfl

/-- The tokens of a row are matched as they are in the row. -/
theorem ofTokens_tokens {f : Forest} (h : Row true true f) : ofTokens f.tokens = f := by
  induction f with
  | nil => rfl
  | leaf t rest ih =>
    simp only [Row] at h
    simp only [ofTokens, tokens, List.foldr_cons] at ih ⊢
    split at h
    · next hc => simp [push, hc, settle, append, ih h.2]
    · next hc =>
      split at h
      · next ho => simp [foldr_push_opened h.2, push, hc, ho, settle]
      · next ho => simp [push, hc, ho, settle_leaf, ih h]
  | group o inner c rest _ ih =>
    obtain ⟨h₁, h₂, h₃, h₄, h₅⟩ := h
    simp only [ofTokens, tokens, List.foldr_cons, List.foldr_append, List.cons_append] at ih ⊢
    simp [push, h₃, foldr_push_nested h₄, h₁, h₂, append_nil, settle_group, ih h₅]

end Forest
end Javadoc.Java
