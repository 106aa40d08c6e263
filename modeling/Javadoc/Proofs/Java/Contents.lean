import Javadoc.Proofs.Java.Heads
import Javadoc.Proofs.Java.Outlines

/-! What is written in a member: it depends on the blanks and comments between the tokens of its
head and of its body, and not on what stands before the first of them. -/
namespace Javadoc.Java

def KeepsLead (g : Token → Token) (ts : List Token) : Prop := ∀ t ∈ ts, (g t).lead = t.lead

private theorem KeepsLead.mono {g : Token → Token} {ts us : List Token} (h : KeepsLead g ts)
    (hs : us ⊆ ts) : KeepsLead g us := fun t ht => h t (hs ht)

namespace Token

private theorem still_map {g : Token → Token} (hg : KeepsLexeme g) {t : Token}
    (h : (g t).lead = t.lead) : (g t).still = t.still := by
  simp only [still, h, hg t]

/-- The text from the first token on leaves out what stands before it. -/
theorem written_map {g : Token → Token} (hg : KeepsLexeme g) {ts : List Token}
    (h : KeepsLead g ts.tail) : written (ts.map g) = written ts := by
  cases ts with
  | nil => rfl
  | cons t ts =>
    simp only [List.map_cons, written, hg.text, List.flatMap_map]
    congr 1
    refine List.flatMap_congr fun u hu => ?_
    rw [source, source, hg.text, h u hu]

end Token

namespace Forest

private theorem map_still {g : Token → Token} (hg : KeepsLexeme g) {f : Forest}
    (h : KeepsLead g f.tokens) : (f.map g).map Token.still = f.map Token.still := by
  rw [map_map]
  exact map_congr fun t ht => Token.still_map hg (h t ht)

end Forest

namespace Piece

private theorem written_still (ps : List Piece) :
    written (ps.map (map Token.still)) = written ps := by
  rw [written, flatMap_tokens_map, Token.written_still, written]

private theorem written_map {g : Token → Token} (hg : KeepsLexeme g) (ps : List Piece)
    (h : KeepsLead g (ps.flatMap tokens).tail) : written (ps.map (map g)) = written ps := by
  rw [written, flatMap_tokens_map, Token.written_map hg h, written]

/-- The tokens of a stretch of pieces but its first one are not the first one of the row. -/
theorem tail_subset_of_infix {ps qs : List Piece} (h : ps <:+: qs) :
    (ps.flatMap tokens).tail ⊆ (qs.flatMap tokens).tail := by
  obtain ⟨a, b, rfl⟩ := h
  simp only [List.flatMap_append]
  cases ha : a.flatMap tokens with
  | nil =>
    cases hp : ps.flatMap tokens with
    | nil => simp
    | cons t ts => exact fun u hu => List.mem_append_left _ hu
  | cons t ts =>
    intro u hu
    exact List.mem_append_left _ (List.mem_append_right _ (List.mem_of_mem_tail hu))

theorem dropModifiers_suffix (annotated : Bool) (ps : List Piece) :
    dropModifiers annotated ps <:+ ps := by
  fun_induction dropModifiers annotated ps
  all_goals
    first
    | exact List.suffix_refl _
    | exact List.nil_suffix
    | exact List.IsSuffix.trans ‹_› (List.suffix_cons _ _)
    | exact List.IsSuffix.trans ‹_› ((List.suffix_cons _ _).trans (List.suffix_cons _ _))
    | exact List.IsSuffix.trans ‹_›
        ((List.suffix_cons _ _).trans ((List.suffix_cons _ _).trans (List.suffix_cons _ _)))

private theorem dropAngles_suffix (depth : Nat) (ps : List Piece) : dropAngles depth ps <:+ ps := by
  fun_induction dropAngles depth ps
  all_goals
    first
    | exact List.suffix_refl _
    | exact List.IsSuffix.trans ‹_› (List.suffix_cons _ _)

theorem dropTypeParameters_suffix (ps : List Piece) : dropTypeParameters ps <:+ ps := by
  cases ps with
  | nil => exact List.suffix_refl _
  | cons p ps =>
    simp only [dropTypeParameters]
    split
    · exact (dropAngles_suffix 1 ps).trans (List.suffix_cons p ps)
    · exact List.suffix_refl _

theorem splitType_append (depth : Nat) (named annotated : Bool) (ps : List Piece) :
    (splitType depth named annotated ps).1 ++ (splitType depth named annotated ps).2 = ps := by
  fun_induction splitType depth named annotated ps
  all_goals
    first
    | simp +zetaDelta [*]; done
    | simp_all

end Piece

namespace Member

private theorem parenthesised?_eq_some {ps rest : List Piece} {inner : Forest}
    (h : parenthesised? ps = some (inner, rest)) : ∃ o c, ps = .group o inner c :: rest := by
  match ps with
  | [] | .token _ :: _ => cases h
  | .group o i c :: rest =>
    simp only [parenthesised?] at h
    split at h
    · cases h
      exact ⟨o, c, rfl⟩
    · cases h

/-- The inside of a group is not the first token of the row that the group is in. -/
theorem inner_subset_tail {o c : Token} {inner : Forest} {ps qs : List Piece}
    (h : .group o inner c :: ps <:+: qs) : inner.tokens ⊆ (qs.flatMap Piece.tokens).tail := by
  refine List.Subset.trans ?_ (Piece.tail_subset_of_infix h)
  simp [Piece.tokens]

private theorem spreadType_still (modified : Bool) (type : List Piece) :
    spreadType modified (type.map (Piece.map Token.still)) = spreadType modified type := by
  have hw := Piece.written_still type
  cases type with
  | nil => rfl
  | cons p type =>
    simp only [List.map_cons] at hw
    cases modified with
    | false => simp only [spreadType, List.map_cons, hw]
    | true =>
      simp only [spreadType, List.map_cons, Piece.first_map, hw]
      rfl

private theorem parameter?_still (ps : List Piece) :
    parameter? (ps.map (Piece.map Token.still)) = parameter? ps := by
  have hg := Token.keepsLexeme_still.symbols
  simp only [parameter?, Piece.dropModifiers_map hg, Piece.splitType_map hg, List.length_map]
  cases (Piece.splitType 0 false false (Piece.dropModifiers false ps)).2 with
  | nil => rfl
  | cons p more =>
    simp only [List.map_cons, List.any_cons, List.any_map, Function.comp_def, Piece.is_map hg,
      Piece.word?_map hg, Piece.written_still, spreadType_still, Piece.dropModifiers_map hg]
    split
    · cases Piece.dropModifiers false more with
      | nil => rfl
      | cons name more =>
        have := Piece.written_still [name]
        simp only [List.map_cons, List.map_nil] at this
        simp only [List.map_cons, this]
    · rfl

private theorem parameters_still (inner : Forest) :
    parameters (inner.map Token.still) = parameters inner := by
  rw [parameters, Piece.ofForest_map, Piece.splitCommas_map Token.keepsLexeme_still.symbols,
    List.filterMap_map]
  simp only [Function.comp_def, parameter?_still, parameters]

private theorem parameters_map {g : Token → Token} (hg : KeepsLexeme g) {inner : Forest}
    (h : KeepsLead g inner.tokens) : parameters (inner.map g) = parameters inner := by
  rw [← parameters_still, Forest.map_still hg h, parameters_still]

private theorem dimensions_map {g : Token → Token} (hg : KeepsLexeme g) {ps : List Piece}
    (h : KeepsLead g (ps.flatMap Piece.tokens).tail) :
    dimensions (ps.map (Piece.map g)) = dimensions ps := by
  rw [dimensions, List.takeWhile_map, Piece.written_map hg _]
  · simp only [Function.comp_def, Piece.is_map hg.symbols, dimensions]
  · exact h.mono (Piece.tail_subset_of_infix (List.takeWhile_prefix _).isInfix)

theorem bodyOf_map {g : Token → Token} (hg : KeepsLexeme g) {body? : Option Piece}
    (h : ∀ b ∈ body?, KeepsLead g b.tokens.tail) :
    bodyOf (body?.map (Piece.map g)) = bodyOf body? := by
  match body? with
  | none | some (.token _) => rfl
  | some (.group o inner c) =>
    have hb := h _ rfl
    have hw : Piece.written [(Piece.group o inner c).map g] = Piece.written [.group o inner c] :=
      Piece.written_map hg [.group o inner c] (by simpa using hb)
    have hi : KeepsLead g inner.tokens := hb.mono (by simp [Piece.tokens])
    simp only [Piece.map] at hw
    simp only [Option.map_some, Piece.map, bodyOf, hw]
    rw [← Outline.ofBody_still, Forest.map_still hg hi, Outline.ofBody_still]

def Shape.Within (head : List Piece) (body? : Option Piece) : Shape → Prop
  | .field _ type => type <:+: head
  | .constructor _ inner body => inner.tokens ⊆ (head.flatMap Piece.tokens).tail ∧ body = body?
  | .method _ inner type behind body =>
    inner.tokens ⊆ (head.flatMap Piece.tokens).tail ∧ type <:+: head ∧ behind <:+: head ∧
      body = body?

theorem within_of_mem_shapes {head : List Piece} {body? : Option Piece} {σ : Shape}
    (h : σ ∈ shapes head body?) : σ.Within head body? := by
  have hqs : Piece.dropModifiers false
      (Piece.dropTypeParameters (Piece.dropModifiers false head)) <:+ head :=
    (Piece.dropModifiers_suffix _ _).trans
      ((Piece.dropTypeParameters_suffix _).trans (Piece.dropModifiers_suffix _ _))
  unfold shapes at h
  generalize Piece.dropModifiers false
    (Piece.dropTypeParameters (Piece.dropModifiers false head)) = qs at h hqs
  match qs with
  | [] => simp at h
  | p :: ps =>
    have hs := Piece.splitType_append 0 false false (p :: ps)
    simp only at h
    cases hp : parenthesised? ps with
    | some inside =>
      obtain ⟨inner, rest⟩ := inside
      cases hw : p.word? with
      | none => simp [hp, hw] at h
      | some w =>
        obtain ⟨o, c, rfl⟩ := parenthesised?_eq_some hp
        simp only [hp, hw, List.mem_singleton] at h
        subst h
        exact ⟨inner_subset_tail ((List.suffix_cons p _).trans hqs).isInfix, rfl⟩
    | none =>
      rcases hst : Piece.splitType 0 false false (p :: ps) with ⟨type, rest⟩
      simp only [hst] at hs
      simp only [hp, hst] at h
      cases rest with
      | nil =>
        cases body? with
        | none => simp at h
        | some body =>
          cases hw : p.word? with
          | none => simp [hw] at h
          | some w =>
            simp only [hw, Option.map_some, Option.toList_some, List.mem_singleton] at h
            subst h
            exact ⟨by simp [Forest.tokens], rfl⟩
      | cons name rest =>
        have htype : type <:+: head := by
          obtain ⟨a, ha⟩ := hqs
          exact ⟨a, name :: rest, by rw [List.append_assoc, hs, ha]⟩
        simp only at h
        cases hn : name.word? with
        | none => simp [hn] at h
        | some w =>
          cases hr : parenthesised? rest with
          | none =>
            simp only [hn, hr, List.mem_map] at h
            obtain ⟨n, -, rfl⟩ := h
            exact htype
          | some inside =>
            obtain ⟨inner, behind⟩ := inside
            obtain ⟨o, c, rfl⟩ := parenthesised?_eq_some hr
            simp only [hn, hr, List.mem_singleton] at h
            subst h
            have hgroup : .group o inner c :: behind <:+ head := by
              refine List.IsSuffix.trans ?_ hqs
              exact ⟨type ++ [name], by rw [← hs]; simp⟩
            exact ⟨inner_subset_tail hgroup.isInfix, htype,
              ((List.suffix_cons _ behind).trans hgroup).isInfix, rfl⟩

/-- A member stays as it is where the blanks and comments in its head and in its body do. -/
theorem Shape.member_map {g : Token → Token} (hg : KeepsLexeme g) {head : List Piece}
    {body? : Option Piece} {σ : Shape} (hσ : σ.Within head body?)
    (hh : KeepsLead g (head.flatMap Piece.tokens).tail)
    (hb : ∀ b ∈ body?, KeepsLead g b.tokens.tail) (place : Preceding × Nat) :
    (σ.map g).member place = σ.member place := by
  cases σ with
  | field name type =>
    simp only [map, member, Piece.written_map hg _ (hh.mono (Piece.tail_subset_of_infix hσ))]
  | constructor name inner body =>
    obtain ⟨hi, rfl⟩ := hσ
    simp only [map, member, parameters_map hg (hh.mono hi), bodyOf_map hg hb]
  | method name inner type behind body =>
    obtain ⟨hi, ht, hd, rfl⟩ := hσ
    simp only [map, member, parameters_map hg (hh.mono hi), bodyOf_map hg hb,
      Piece.written_map hg _ (hh.mono (Piece.tail_subset_of_infix ht)),
      dimensions_map hg (hh.mono (Piece.tail_subset_of_infix hd))]

end Member
end Javadoc.Java
