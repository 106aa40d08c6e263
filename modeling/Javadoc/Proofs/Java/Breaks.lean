import Javadoc.Proofs.Java.Names
import Javadoc.Proofs.Java.Returns
import Javadoc.Proofs.Template.LineBreaks

/-! Line breaks in what declarations say. No token ends inside a line break of the source, so that a
text in which every carriage return stands before a line feed gives names, types and expressions that are
such texts, too. -/
namespace Javadoc

namespace Text

private theorem IsFed.of_isInfix {s t : Text} (h : IsFed t) (hin : s <:+: t)
    (hl : '\r' ∉ s.getLast?) :
    IsFed s where
  next := List.IsChain.infix h.next hin
  last := hl

end Text

namespace Java
open Text

structure Token.Fed (t : Token) : Prop where
  source : IsFed t.source
  text : IsFed t.text

private theorem Token.fed_of_mem_scan {source : Text} (hs : IsFed source) {t : Token}
    (ht : t ∈ Token.scan source) : t.Fed := by
  obtain ⟨trailing, -, hlex, hproper, -⟩ := Token.scan_spec source
  obtain ⟨as, bs, hscan⟩ := List.append_of_mem ht
  have hreads := Lexeme.reads_scan source
  have hsource := Lexeme.flatMap_text_scan source
  rw [hlex, hscan, List.flatMap_append, List.flatMap_cons, List.append_assoc, List.append_assoc,
    Lexeme.reads_append, Lexeme.reads_append, Token.lexemes, Lexeme.reads_append] at hreads
  rw [hlex, List.flatMap_append, Token.flatMap_flatMap_text, hscan, List.flatMap_append,
    List.flatMap_cons, List.append_assoc, List.append_assoc] at hsource
  have hbefore := hreads.2.1.2.1
  have hne := Token.text_ne_nil_of_mem_scan ht
  have hsplit : t.source = t.lead.flatMap (·.text) ++ t.text := rfl
  -- a carriage return at the end of the token would end the source
  have hlast : '\r' ∉ t.text.getLast? := by
    by_cases hrest : bs.flatMap Token.source ++ trailing.flatMap (·.text) = []
    · rw [hrest, List.append_nil, hsplit] at hsource
      refine fun hm => hs.last ?_
      rwa [← hsource, ← List.append_assoc, List.getLast?_append_of_ne_nil _ hne]
    · have hrest : (bs.flatMap Token.lexemes ++ trailing).flatMap (·.text) ≠ [] := by
        simpa [Token.flatMap_flatMap_text] using hrest
      exact fun hm => absurd (hbefore.isBlank_last (hproper t ht).2 (by simpa using hrest) _ hm)
        (by decide)
  have hin : t.source <:+: source := by
    rw [← hsource]
    exact ⟨as.flatMap Token.source, _, List.append_assoc ..⟩
  refine ⟨hs.of_isInfix hin ?_, hs.of_isInfix ((List.suffix_append _ _).isInfix.trans hin) hlast⟩
  rwa [hsplit, List.getLast?_append_of_ne_nil _ hne]

private theorem Piece.isFed_written {ps : List Piece} (h : ∀ t ∈ ps.flatMap tokens, t.Fed) :
    IsFed (written ps) := by
  have hjoin {ts : List Token} (h : ∀ t ∈ ts, t.Fed) : IsFed (ts.flatMap Token.source) := by
    induction ts with
    | nil => exact breakRule_isFed.nil
    | cons t ts ih =>
      rw [List.forall_mem_cons] at h
      exact breakRule_isFed.append h.1.source (ih h.2)
  rw [written]
  generalize ps.flatMap tokens = ts at h
  cases ts with
  | nil => exact breakRule_isFed.nil
  | cons t ts =>
    rw [List.forall_mem_cons] at h
    exact breakRule_isFed.append h.1.text (hjoin h.2)

private theorem Piece.flatMap_tokens_ofForest (f : Forest) :
    (ofForest f).flatMap tokens = f.tokens := by
  induction f with
  | nil => rfl
  | leaf t rest ih => simp [ofForest, tokens, Forest.tokens, ih]
  | group o inner c rest _ ih => simp [ofForest, tokens, Forest.tokens, ih]

private theorem Piece.subset_of_mem_splitCommas {depth : Nat} {ps qs : List Piece}
    (h : qs ∈ splitCommas depth ps) : qs ⊆ ps := by
  induction ps generalizing depth qs with
  | nil => simpa [splitCommas] using h
  | cons p ps ih =>
    -- the piece goes before the first row of the rest, if there is one
    have halone (h : qs ∈ [[p]]) : qs ⊆ p :: ps := by
      rw [List.mem_singleton.1 h]
      exact List.cons_subset_cons p (List.nil_subset ps)
    have hextend {depth : Nat} {q : List Piece} {rest : List (List Piece)}
        (hs : splitCommas depth ps = q :: rest) (h : qs ∈ (p :: q) :: rest) : qs ⊆ p :: ps := by
      have ih {rs : List Piece} (hrs : rs ∈ q :: rest) : rs ⊆ ps := ih (hs ▸ hrs)
      rcases List.mem_cons.1 h with rfl | h
      · exact List.cons_subset_cons p (ih List.mem_cons_self)
      · exact List.subset_cons_of_subset p (ih (List.mem_cons_of_mem q h))
    simp only [splitCommas] at h
    split at h
    · split at h
      · exact halone h
      · next hs => exact hextend hs h
    · split at h
      · split at h
        · exact halone h
        · next hs => exact hextend hs h
      · split at h
        · rcases List.mem_cons.1 h with rfl | h
          · exact List.nil_subset _
          · exact List.subset_cons_of_subset p (ih h)
        · split at h
          · exact halone h
          · next hs => exact hextend hs h

namespace Member

private theorem isFed_parameter? {ps : List Piece} (h : ∀ t ∈ ps.flatMap Piece.tokens, t.Fed)
    {p : Parameter}
    (hp : parameter? ps = some p) : IsFed p.name := by
  have hname {q : Piece} (hq : q ∈ ps) : IsFed (Piece.written [q]) := Piece.isFed_written fun t ht =>
    h t (List.mem_flatMap.2 ⟨q, hq, by simpa using ht⟩)
  have hrest : (Piece.splitType 0 false false (Piece.dropModifiers false ps)).2 ⊆ ps := by
    refine List.Subset.trans ?_ (Piece.dropModifiers_suffix false ps).subset
    conv_rhs => rw [← Piece.splitType_append 0 false false (Piece.dropModifiers false ps)]
    exact List.subset_append_right _ _
  unfold parameter? at hp
  simp only at hp
  generalize (Piece.splitType 0 false false (Piece.dropModifiers false ps)).2 = rest at hp hrest
  split at hp
  · cases hp
  · next q more =>
    split at hp
    · split at hp
      · cases hp
      · next name behind hmore =>
        cases hp
        have hsub := (Piece.dropModifiers_suffix false more).subset
        exact hname (hrest (List.mem_cons_of_mem q (hsub (by simp [hmore]))))
    · split at hp
      · cases hp
      · obtain ⟨name, hw, rfl⟩ := Option.map_eq_some_iff.1 hp
        rw [← Piece.written_word hw]
        exact hname (hrest (by simp))

private theorem isFed_of_mem_parameters {inner : Forest} (h : ∀ t ∈ inner.tokens, t.Fed) :
    ∀ p ∈ parameters inner, IsFed p.name := by
  intro p hp
  obtain ⟨ps, hps, hp⟩ := List.mem_filterMap.1 hp
  refine isFed_parameter? (fun t ht => h t ?_) hp
  obtain ⟨q, hq, ht⟩ := List.mem_flatMap.1 ht
  rw [← Piece.flatMap_tokens_ofForest]
  exact List.mem_flatMap.2 ⟨q, Piece.subset_of_mem_splitCommas hps hq, ht⟩

private theorem isFed_dimensions {ps : List Piece} (h : ∀ t ∈ ps.flatMap Piece.tokens, t.Fed) :
    IsFed (dimensions ps) := Piece.isFed_written fun t ht => by
  obtain ⟨p, hp, ht⟩ := List.mem_flatMap.1 ht
  exact h t (List.mem_flatMap.2 ⟨p, (List.takeWhile_prefix _).subset hp, ht⟩)

/-- The expression that a body returns is written without blanks. -/
theorem isFed_returned {body? : Option Piece} : ∀ value ∈ (bodyOf body?).2, IsFed value := by
  have hcompact (f : Forest) : ∀ value ∈ Outline.returnedValue? f, '\r' ∉ value := by
    intro value hv
    rw [Outline.returnedValue?] at hv
    split at hv
    · cases hv
    · rw [← Option.some.inj hv]
      exact fun hm => absurd (List.mem_filter.1 hm).2 (by decide)
  have hin (hidden : Bool) (f : Forest) :
      ∀ value? ∈ Outline.returnsIn hidden f, ∀ value ∈ value?, '\r' ∉ value := by
    induction f generalizing hidden with
    | nil => simp [Outline.returnsIn]
    | leaf t rest ih =>
      rw [Outline.returnsIn]
      split
      · exact List.forall_mem_cons.2 ⟨hcompact rest, ih true⟩
      · exact ih _
    | group o inner c rest ih₁ ih₂ =>
      rw [Outline.returnsIn]
      split
      · exact ih₂ true
      · exact List.forall_mem_append.2 ⟨ih₁ false, ih₂ false⟩
  intro value hv
  rcases body? with _ | ⟨t⟩ | ⟨o, inner, c⟩
  · cases hv
  · cases hv
  · rw [bodyOf, Outline.firstReturned?_eq_findSome? true] at hv
    obtain ⟨r, hr, hvalue⟩ := List.exists_of_findSome?_eq_some (Option.mem_def.1 hv)
    have hsub := Outline.met_sublist true (Outline.ofBody inner)
    rw [Outline.allReturns_ofBody] at hsub
    exact isFed_of_not_mem
      (hin false inner _ (hsub.subset (List.mem_map_of_mem hr)) value hvalue)

end Member

open Template (Target)

/-- A type of which all texts that comments are filled in with have their carriage returns before line
feeds. -/
structure FedTexts (own : ClassInfo) : Prop where
  name : IsFed own.name
  fields : ∀ f ∈ own.fields, IsFed f.name
  constructors : ∀ m ∈ own.constructors, ∀ x ∈ (Target.constructor m).texts, IsFed x
  methods : ∀ m ∈ own.methods, ∀ x ∈ (Target.method m (some own)).texts, IsFed x

private theorem Tree.tokens_subset_of_mem_nodes {path : Text} {T : Tree} {n : Node}
    (h : n ∈ T.nodes path) :
    n.head.flatMap Piece.tokens ⊆ T.tokens ∧ n.last.tokens ⊆ T.tokens := by
  rw [← Tree.map_token_marks path]
  exact ⟨map_token_headMarks n.path n.path n.head ▸ List.map_subset _ (headMarks_subset_marks h),
    map_token_lastMarks n.path _ n.last ▸ List.map_subset _ (lastMarks_subset_marks h)⟩

private theorem isFed_of_isWordIn {name : Text} {source : Text}
    (h : IsWordIn name (Token.scan source)) :
    IsFed name := by
  obtain ⟨t, ht, hw, rfl⟩ := h
  exact isFed_of_not_mem fun hm => absurd (Token.isWordPart_of_mem_scan ht hw _ hm) (by decide)

/-- What the members of a source are filled in with is made of its tokens. -/
theorem isFed_of_mem_nodes {T : Tree} (hT : ∀ t ∈ T.tokens, t.Fed) {path : Text} {n : Node}
    (hn : n ∈ T.nodes path) {σ : Member.Shape} (hσ : σ ∈ Member.shapes n.head (Tree.bodyAt n.last))
    {place : Preceding × Nat} {m : Method}
    (hm : σ.member place = .constructor m ∨ σ.member place = .method m) :
    (∀ p ∈ m.parameters, IsFed p.name) ∧ (∀ value ∈ m.returned?, IsFed value) ∧
      ∀ type ∈ m.returnType?, IsFed type := by
  have hhead : ∀ t ∈ n.head.flatMap Piece.tokens, t.Fed := fun t ht =>
    hT t ((Tree.tokens_subset_of_mem_nodes hn).1 ht)
  have hinner {inner : Forest} (h : inner.tokens ⊆ (n.head.flatMap Piece.tokens).tail) :
      ∀ p ∈ Member.parameters inner, IsFed p.name :=
    Member.isFed_of_mem_parameters fun t ht => hhead t (List.mem_of_mem_tail (h ht))
  have hpieces {ps : List Piece} (h : ps <:+: n.head) : ∀ t ∈ ps.flatMap Piece.tokens, t.Fed := by
    intro t ht
    obtain ⟨p, hp, ht⟩ := List.mem_flatMap.1 ht
    exact hhead t (List.mem_flatMap.2 ⟨p, h.subset hp, ht⟩)
  have hwithin := Member.within_of_mem_shapes hσ
  cases σ with
  | field name type => rcases hm with hm | hm <;> cases hm
  | constructor name inner body? =>
    rcases hm with hm | hm <;> cases hm
    exact ⟨hinner hwithin.1, Member.isFed_returned, by simp⟩
  | method name inner type behind body? =>
    rcases hm with hm | hm <;> cases hm
    obtain ⟨hi, htype, hbehind, -⟩ := hwithin
    refine ⟨hinner hi, Member.isFed_returned, fun written hw => ?_⟩
    rw [← Option.some.inj hw]
    exact breakRule_isFed.append (Piece.isFed_written (hpieces htype))
      (Member.isFed_dimensions (hpieces hbehind))

theorem fedTexts_of_mem_read {path source : Text} (hs : IsFed source) {p : Text × ClassInfo}
    (h : p ∈ (SourceFile.read path source).classes.flatMap ClassDecl.withPaths) : FedTexts p.2 := by
  have hnamed := named_of_mem_read h
  have hid : Token.scan source = (Token.scan source).map id := (List.map_id _).symm
  have hkeeps : KeepsSymbols id := KeepsLexeme.symbols fun _ => rfl
  have hrel := Tree.forall₂_withPaths hkeeps (Tree.typed_scan source) []
  rw [← Tree.scan_of_map hkeeps hid] at hrel
  rw [← ClassDecl.withPathsEach_nil, Tree.read_classes] at h
  have hown := List.forall₂_same.1 hrel p h
  have hT : ∀ t ∈ (Tree.scan source).tokens, t.Fed := by
    rw [Tree.tokens_scan]
    exact fun t => Token.fed_of_mem_scan hs
  have hfields : ∀ f ∈ p.2.fields, IsFed f.name := fun f hf =>
    isFed_of_isWordIn (hnamed.fields f hf)
  refine ⟨isFed_of_isWordIn hnamed.name, hfields, fun m hm x hx => ?_, fun m hm x hx => ?_⟩
  · obtain ⟨n, hn, -, σ, hσ, hmember, -⟩ := List.forall₂_same.1 hown.constructors m hm
    obtain ⟨hparams, -, -⟩ := isFed_of_mem_nodes hT hn hσ (.inl hmember.symm)
    rcases List.mem_cons.1 hx with rfl | hx
    · exact isFed_of_isWordIn (hnamed.constructors m hm)
    · obtain ⟨q, hq, rfl⟩ := List.mem_map.1 hx
      exact hparams q hq
  · obtain ⟨n, hn, -, σ, hσ, hmember, -⟩ := List.forall₂_same.1 hown.methods m hm
    obtain ⟨hparams, hreturned, htype⟩ := isFed_of_mem_nodes hT hn hσ (.inr hmember.symm)
    simp only [Target.texts, List.mem_append, List.mem_map, Option.mem_toList, List.mem_flatMap] at hx
    rcases hx with (⟨q, hq, rfl⟩ | hx | hx) | ⟨own, hown, f, hf, rfl⟩
    · exact hparams q hq
    · exact hreturned x hx
    · exact htype x hx
    · cases hown
      exact hfields f hf

end Java
end Javadoc
