import Javadoc.Proofs.Java.Nodes
import Javadoc.Proofs.Java.Tokens

/-! The names of types and of their members: each is a word that a token of the source writes. -/
namespace Javadoc.Java

def IsWordOf (name : Text) (ps : List Piece) : Prop :=
  ∃ t ∈ ps.flatMap Piece.tokens, t.isWord ∧ name = t.text

private theorem isWordOf_of_word? {p : Piece} {name : Text} {ps : List Piece} (hp : p ∈ ps)
    (h : p.word? = some name) : IsWordOf name ps := by
  cases p with
  | group o inner c => cases h
  | token t =>
    rw [Piece.word?] at h
    split at h
    · next hw =>
      cases h
      exact ⟨t, List.mem_flatMap.2 ⟨_, hp, List.mem_singleton_self t⟩, hw, rfl⟩
    · cases h

private theorem IsWordOf.mono {name : Text} {ps qs : List Piece} (h : IsWordOf name ps)
    (hs : ps ⊆ qs) :
    IsWordOf name qs := by
  obtain ⟨t, ht, hw⟩ := h
  obtain ⟨p, hp, ht⟩ := List.mem_flatMap.1 ht
  exact ⟨t, List.mem_flatMap.2 ⟨p, hs hp, ht⟩, hw⟩

private theorem isWordOf_of_mem_laterNames {ps : List Piece} {name : Text}
    (h : name ∈ Piece.laterNames ps) : IsWordOf name ps := by
  fun_induction Piece.laterNames ps with
  | case1 => cases h
  | case2 p hp => cases h
  | case3 p q ps hp ih =>
    rcases List.mem_cons.1 h with rfl | h
    · simp only [Piece.declaratorsFollow, Bool.and_eq_true] at hp
      obtain ⟨w, hw⟩ := Option.isSome_iff_exists.1 hp.2.1
      have hq : Piece.written [q] = w := by
        cases q with
        | group o inner c => cases hw
        | token t =>
          rw [Piece.word?] at hw
          split at hw
          · cases hw
            simp [Piece.written, Piece.tokens, Token.written]
          · cases hw
      rw [hq]
      exact isWordOf_of_word? (by simp) hw
    · exact (ih h).mono (by simp)
  | case4 p ps hp ih => exact (ih h).mono (List.subset_cons_self _ _)

def Member.Shape.name : Member.Shape → Text
  | field name _ => name
  | constructor name .. => name
  | method name .. => name

/-- Every member that a head declares is named by a word of the head. -/
theorem isWordOf_of_mem_shapes {head : List Piece} {body? : Option Piece} {σ : Member.Shape}
    (h : σ ∈ Member.shapes head body?) : IsWordOf σ.name head := by
  have hqs : Piece.dropModifiers false
      (Piece.dropTypeParameters (Piece.dropModifiers false head)) <:+ head :=
    (Piece.dropModifiers_suffix _ _).trans
      ((Piece.dropTypeParameters_suffix _).trans (Piece.dropModifiers_suffix _ _))
  unfold Member.shapes at h
  generalize Piece.dropModifiers false
    (Piece.dropTypeParameters (Piece.dropModifiers false head)) = qs at h hqs
  refine IsWordOf.mono ?_ hqs.subset
  split at h
  · cases h
  · next p ps =>
    split at h
    · next hw =>
      rw [List.mem_singleton.1 h]
      exact isWordOf_of_word? (by simp) hw
    · cases h
    · have hs := Piece.splitType_append 0 false false (p :: ps)
      split at h
      · cases h
      · obtain ⟨w, hw, rfl⟩ := Option.map_eq_some_iff.1 (Option.mem_toList.1 h)
        exact isWordOf_of_word? (by simp) hw
      · next hsplit =>
        rw [hsplit] at hs
        split at h
        · cases h
        · next hw _ =>
          rw [List.mem_singleton.1 h, ← hs]
          exact isWordOf_of_word? (by simp) hw
        · next hw _ =>
          obtain ⟨n, hn, rfl⟩ := List.mem_map.1 h
          rw [← hs]
          rcases List.mem_cons.1 hn with rfl | hn
          · exact isWordOf_of_word? (by simp) hw
          · exact (isWordOf_of_mem_laterNames hn).mono (by simp)

theorem isWordOf_of_typeHead? {head : List Piece} {kind : ClassKind} {name : Text}
    (h : Member.typeHead? head = some (kind, name)) : IsWordOf name head := by
  refine IsWordOf.mono ?_ (Piece.dropModifiers_suffix false head).subset
  have hword {p : Piece} {ps : List Piece} {k : ClassKind} (hp : p ∈ ps)
      (h : (p.word?.map fun n => (k, n)) = some (kind, name)) : IsWordOf name ps := by
    obtain ⟨w, hw, he⟩ := Option.map_eq_some_iff.1 h
    cases he
    exact isWordOf_of_word? hp hw
  unfold Member.typeHead? at h
  split at h
  · next p q rest heq =>
    rw [heq]
    split at h
    · exact hword (by simp) h
    · split at h
      · exact hword (by simp) h
      · split at h
        · exact hword (by simp) h
        · split at h
          · cases h
          · split at h
            · exact hword (by simp) h
            · split at h
              · exact hword (by simp) h
              · cases h
  · cases h

/-- The token of a word holds nothing but the characters of words. -/
theorem Token.isWordPart_of_mem_scan {source : Text} {t : Token} (ht : t ∈ Token.scan source)
    (hw : t.isWord) : ∀ c ∈ t.text, Lexeme.isWordPart c := by
  obtain ⟨r, hr⟩ := Token.exists_reads_lexemes ht
  exact (Lexeme.reads_append.1 hr).2.1.word (by simpa [Token.isWord] using hw)

def IsWordIn (name : Text) (ts : List Token) : Prop := ∃ t ∈ ts, t.isWord ∧ name = t.text

private theorem IsWordIn.mono {name : Text} {ts us : List Token} (h : IsWordIn name ts)
    (hs : ts ⊆ us) :
    IsWordIn name us := by
  obtain ⟨t, ht, hw⟩ := h
  exact ⟨t, hs ht, hw⟩

def Member.name? : Member → Option Text
  | .field f => some f.name
  | .constructor m => some m.name
  | .method m => some m.name
  | .nested _ => none

structure Named (ts : List Token) (own : ClassInfo) : Prop where
  name : IsWordIn own.name ts
  fields : ∀ f ∈ own.fields, IsWordIn f.name ts
  constructors : ∀ m ∈ own.constructors, IsWordIn m.name ts
  methods : ∀ m ∈ own.methods, IsWordIn m.name ts

private theorem Named.mono {ts us : List Token} {own : ClassInfo} (h : Named ts own)
    (hs : ts ⊆ us) :
    Named us own where
  name := h.name.mono hs
  fields f hf := (h.fields f hf).mono hs
  constructors m hm := (h.constructors m hm).mono hs
  methods m hm := (h.methods m hm).mono hs

namespace Tree

private theorem isWordIn_of_mem_members {T : Tree} {m : Member} (h : m ∈ T.members) :
    ∀ name ∈ m.name?, IsWordIn name T.tokens := by
  induction T with
  | nil head => cases h
  | filler p rest ih => exact fun name hn => (ih h name hn).mono (List.subset_append_right _ _)
  | plain head last rest ih =>
    intro name hn
    rcases List.mem_append.1 h with h | h
    · rw [Member.ofHead_eq] at h
      obtain ⟨σ, hσ, rfl⟩ := List.mem_map.1 h
      have hname : σ.name = name := by
        cases σ <;> exact Option.some.inj hn
      exact IsWordIn.mono (hname ▸ isWordOf_of_mem_shapes hσ) (List.subset_append_left _ _)
    · exact (ih h name hn).mono
        (List.subset_append_of_subset_right _ (List.subset_append_right _ _))
  | type kind name' head o inside c rest ih₁ ih₂ =>
    intro name hn
    rcases List.mem_cons.1 h with rfl | h
    · cases hn
    · refine (ih₂ h name hn).mono (List.subset_append_of_subset_right _ ?_)
      exact List.subset_append_of_subset_right _ (List.subset_cons_self _ _)

/-- The types of a tree are named by words of the tree. -/
theorem named_of_mem_withPaths {T : Tree} (hT : T.Typed) {outer : Text} {p : Text × ClassInfo}
    (h : p ∈ ClassDecl.withPathsEach outer (T.members.filterMap Member.nested?)) :
    Named T.tokens p.2 := by
  induction T generalizing outer with
  | nil head => cases h
  | filler q rest ih => exact (ih hT h).mono (List.subset_append_right _ _)
  | plain head last rest ih =>
    simp only [members, List.filterMap_append, filterMap_nested?_ofHead, List.nil_append] at h
    exact (ih hT h).mono (List.subset_append_of_subset_right _ (List.subset_append_right _ _))
  | type kind name head o inside c rest ih₁ ih₂ =>
    obtain ⟨hh, hi, hr⟩ := hT
    have hinside : inside.tokens ⊆ (type kind name head o inside c rest).tokens :=
      List.subset_append_of_subset_right _
        (List.subset_append_of_subset_left _ (List.subset_cons_self _ _))
    have hmember {m : Member} (hm : m ∈ inside.members) {name : Text} (hn : m.name? = some name) :=
      (isWordIn_of_mem_members hm name hn).mono hinside
    simp only [members, List.filterMap_cons, Member.nested?, Member.declare,
      ClassDecl.withPathsEach, ClassDecl.withPathsFrom, List.cons_append, List.mem_cons,
      List.mem_append] at h
    rcases h with rfl | h | h
    · refine ⟨IsWordIn.mono (isWordOf_of_typeHead? hh) (List.subset_append_left _ _), ?_, ?_, ?_⟩
      all_goals
        intro f hf
        obtain ⟨m, hm, he⟩ := List.mem_filterMap.1 hf
        cases m <;> cases he
        exact hmember hm rfl
    · exact (ih₁ hi h).mono hinside
    · refine (ih₂ hr h).mono (List.subset_append_of_subset_right _ ?_)
      exact List.subset_append_of_subset_right _ (List.subset_cons_self _ _)

end Tree

/-- The types of a source text are named by its words, as their members are. -/
theorem named_of_mem_read {path source : Text} {p : Text × ClassInfo}
    (h : p ∈ (SourceFile.read path source).classes.flatMap ClassDecl.withPaths) :
    Named (Token.scan source) p.2 := by
  rw [← ClassDecl.withPathsEach_nil, Tree.read_classes] at h
  rw [← Tree.tokens_scan]
  exact Tree.named_of_mem_withPaths (Tree.typed_scan source) h

end Javadoc.Java
