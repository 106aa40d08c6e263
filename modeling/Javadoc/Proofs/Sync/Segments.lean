import Javadoc.Proofs.Sync.Descriptions

/-! The segments of a type: their texts are those of its stretches, so that updating the text of the
type segment by segment is updating the comments in its stretches one by one. -/
namespace Javadoc

namespace Segment

def text (source : Text) (s : Segment) : Text := (Text.slice? s.start s.stop source).getD []

def updated (changes : List FieldChange) (source : Text) (s : Segment) : Text :=
  if changes.isEmpty then s.text source else Entry.update changes (s.text source)

end Segment

/-- In the updated text of a type, every segment is updated for the changes of its own type. -/
theorem Synchronizer.updateClass_eq_flatMap (source : Text) (c : ClassDecl)
    (changes : List FieldChange) : updateClass source c changes =
      (Segment.all c).flatMap fun s => s.updated (FieldChange.ofType changes s.path) source := by
  refine List.flatMap_congr fun s _ => ?_
  dsimp only [Segment.updated, Segment.text, FieldChange.ofType]
  cases changes.filter fun change => change.container == s.path <;> rfl

namespace Java

private theorem renewLexeme_nil (l : Lexeme × Bool) : renewLexeme [] l = l.1 := by
  obtain ⟨l, b⟩ := l
  cases b <;> simp [renewLexeme, Entry.renewIf]

/-- The segments of the first type are the texts of its stretches, and together its text. -/
theorem slices_primary {path source : Text} {c : ClassDecl}
    (h : (SourceFile.read path source).primary? = some c) :
    (Segment.all c).map (fun s => (s.path, Text.slice? s.start s.stop source)) =
        (Tree.ownStretches source).map (fun s => (s.path, some (textOf s.lexemes))) ∧
      Text.slice? c.own.start c.own.stop source = some (renewedText [] source) := by
  obtain ⟨N, hN, hc⟩ := exists_firstType h
  obtain ⟨hT, kind, name, head, o, inside, closing, rfl⟩ :=
    Tree.firstType?_eq_some hN (Tree.typed_scan source)
  have hne := Tree.ne_nil_of_typeHead? hT.1
  obtain ⟨pre, post, hscan⟩ := Tree.tokens_firstType hN
  obtain ⟨trailing, -, hlex, -, hplace⟩ := Token.scan_spec source
  have hname : name ≠ [] := by
    obtain ⟨u, hu, -, rfl⟩ := isWordOf_of_typeHead? hT.1
    refine Token.text_ne_nil_of_mem_scan (?_ : _ ∈ Token.scan source)
    rw [hscan]
    simp [Tree.tokens, hu]
  obtain rfl : Member.declare kind name head closing.stop inside.members = c := by
    simpa [Tree.members, Member.nested?] using hc
  have hsource := Lexeme.flatMap_text_scan source
  rw [hlex, List.flatMap_append, Token.flatMap_flatMap_text, hscan, List.flatMap_append,
    List.flatMap_append, Tree.flatMap_source_type hne] at hsource
  rw [hscan] at hplace
  obtain ⟨-, hplace⟩ := Token.place_append_eq hplace
  obtain ⟨hbegin, hend, hinside, -⟩ := Tree.place_type hne (Token.place_append_eq hplace).1
  -- the text in front of the head, and behind the type
  generalize hx : pre.flatMap Token.source ++ textOf (Tree.beforeHead head) = x
  generalize hy : post.flatMap Token.source ++ trailing.flatMap (·.text) = y
  have hsource : source = x ++ (textOf (Tree.ownHead head ++ o.marked false) ++
      (inside.tokens.flatMap Token.source ++ (textOf (closing.marked false) ++ y))) := by
    rw [← hsource, ← hx, ← hy]
    simp [Tree.tokens]
  rw [Nat.zero_add, ← Text.size_append, hx] at hbegin
  rw [hbegin, ← Text.size_append] at hend hinside
  have hstretches : Tree.ownStretches source = inside.stretches name
      (Tree.ownHead head ++ o.marked false) (closing.marked false) := by
    rw [Tree.ownStretches, hN]
  constructor
  · rw [hstretches, Segment.all, Member.declare, Segment.ofClass]
    exact Tree.slices_ofRest (y := y) hT.2.1 hname hsource hinside hbegin hend
  · have hall := Tree.flatMap_stretches (f := fun _ l => l.1.text) (fun _ _ => rfl) inside name
      (Tree.ownHead head ++ o.marked false) (closing.marked false)
    have hrenewed : renewedText [] source = textOf (Tree.ownHead head ++ o.marked false) ++
        (inside.tokens.flatMap Token.source ++ textOf (closing.marked false)) := by
      have hmarks : (inside.marks name).flatMap (fun m => m.lexemes.flatMap (·.1.text)) =
          inside.tokens.flatMap Token.source := by
        rw [← Tree.map_token_marks name inside, ← textOf_flatMap_lexemes, textOf,
          List.flatMap_assoc]
      rw [renewedText, hstretches]
      simp only [FieldChange.ofType, List.filter_nil, renewLexeme_nil]
      rw [hall, hmarks]
      rfl
    have hslice := Text.slice?_size x (renewedText [] source) y
    rw [← Text.size_append, hrenewed, ← hbegin, ← hend] at hslice
    simp only [List.append_assoc] at hslice
    rw [← hsource] at hslice
    rw [hrenewed]
    exact hslice

section

variable {P : Lexeme × Bool → Prop}

private theorem forall_flatMap_marked {ts : List Token}
    (h : ∀ t ∈ ts, ∀ inBody, ∀ l ∈ t.marked inBody, P l) :
    ∀ l ∈ ts.flatMap (Token.marked false), P l := by
  intro l hl
  obtain ⟨t, ht, hl⟩ := List.mem_flatMap.1 hl
  exact h t ht false l hl

private theorem forall_flatMap_lexemes {ms : List Mark}
    (h : ∀ t ∈ ms.map Mark.token, ∀ inBody, ∀ l ∈ t.marked inBody, P l) :
    ∀ l ∈ ms.flatMap Mark.lexemes, P l := by
  intro l hl
  obtain ⟨m, hm, hl⟩ := List.mem_flatMap.1 hl
  exact h m.token (List.mem_map_of_mem hm) m.inBody l hl

private theorem forall_beforeHead {head : List Piece}
    (h : ∀ t ∈ head.flatMap Piece.tokens, ∀ inBody, ∀ l ∈ t.marked inBody, P l) :
    ∀ l ∈ Tree.beforeHead head, P l := by
  rw [Tree.beforeHead]
  split
  · simp
  · next t ts hts =>
    rw [hts] at h
    exact fun l hl => h t List.mem_cons_self false l (List.mem_append_left _ hl)

private theorem forall_ownHead {head : List Piece}
    (h : ∀ t ∈ head.flatMap Piece.tokens, ∀ inBody, ∀ l ∈ t.marked inBody, P l) :
    ∀ l ∈ Tree.ownHead head, P l := by
  rw [Tree.ownHead]
  split
  · simp
  · next t ts hts =>
    rw [hts, List.forall_mem_cons] at h
    refine List.forall_mem_cons.2 ⟨?_, forall_flatMap_marked h.2⟩
    exact h.1 false _ (List.mem_append_right _ (List.mem_singleton_self _))

/-- What holds of the lexemes of all tokens holds of the lexemes of stretches. -/
theorem forall_stretches {T : Tree} (ht : ∀ t ∈ T.tokens, ∀ inBody, ∀ l ∈ t.marked inBody, P l)
    {path : Text} {before behind : List (Lexeme × Bool)} (hb : ∀ l ∈ before, P l)
    (hbehind : ∀ l ∈ behind, P l) : ∀ s ∈ T.stretches path before behind, ∀ l ∈ s.lexemes, P l := by
  induction T generalizing path before behind with
  | nil head =>
    rw [Tree.stretches]
    have hhead : ∀ l ∈ (Tree.headMarks path path head).flatMap Mark.lexemes, P l :=
      forall_flatMap_lexemes (by rw [Tree.map_token_headMarks]; exact ht)
    simp only [List.mem_singleton, forall_eq, List.forall_mem_append]
    exact ⟨hb, hhead, hbehind⟩
  | filler p rest ih =>
    rw [Tree.tokens, List.forall_mem_append] at ht
    exact ih ht.2 (List.forall_mem_append.2 ⟨hb, forall_flatMap_marked ht.1⟩) hbehind
  | plain head last rest ih =>
    simp only [Tree.tokens, List.forall_mem_append] at ht
    obtain ⟨hhead, hlast, hrest⟩ := ht
    refine ih hrest (List.forall_mem_append.2 ⟨hb, List.forall_mem_append.2 ⟨?_, ?_⟩⟩) hbehind
    · exact forall_flatMap_lexemes (by rw [Tree.map_token_headMarks]; exact hhead)
    · exact forall_flatMap_lexemes (by rw [Tree.map_token_lastMarks]; exact hlast)
  | type kind name head o inside c rest ih₁ ih₂ =>
    simp only [Tree.tokens, List.cons_append, List.forall_mem_append, List.forall_mem_cons] at ht
    obtain ⟨hhead, ho, hinside, hc, hrest⟩ := ht
    rw [Tree.stretches]
    refine List.forall_mem_cons.2 ⟨List.forall_mem_append.2 ⟨hb, forall_beforeHead hhead⟩,
      List.forall_mem_append.2 ⟨?_, ih₂ hrest (by simp) hbehind⟩⟩
    exact ih₁ hinside (List.forall_mem_append.2 ⟨forall_ownHead hhead, ho false⟩) (hc false)

private theorem forall_ownStretches {source : Text}
    (h : ∀ t ∈ Token.scan source, ∀ inBody, ∀ l ∈ t.marked inBody, P l) :
    ∀ s ∈ Tree.ownStretches source, ∀ l ∈ s.lexemes, P l := by
  rw [Tree.ownStretches]
  split
  · next kind name head o inside c rest hN =>
    obtain ⟨pre, post, hscan⟩ := Tree.tokens_firstType hN
    have ht : ∀ t ∈ (Tree.type kind name head o inside c rest).tokens,
        ∀ inBody, ∀ l ∈ t.marked inBody, P l := fun t ht => h t (by
      rw [hscan]
      exact List.mem_append_right _ (List.mem_append_left _ ht))
    simp only [Tree.tokens, List.cons_append, List.forall_mem_append, List.forall_mem_cons] at ht
    obtain ⟨hhead, ho, hinside, hc, -⟩ := ht
    exact forall_stretches hinside (List.forall_mem_append.2 ⟨forall_ownHead hhead, ho false⟩)
      (hc false)
  · simp

end

/-- Every line of the own text of a type that is an entry of a changed field of the type lies in
comments outside of the bodies of constructors and setters. -/
def EntriesSheltered (changes : List FieldChange) (source : Text) : Prop :=
  ∀ s ∈ Tree.ownStretches source,
    Entry.Sheltered (FieldChange.ofType changes s.path) (Entry.charsOf s.lexemes)

/-- Whether entries are sheltered can be seen line by line. -/
theorem entriesSheltered_of_shelters {changes : List FieldChange}
    (hc : ∀ c ∈ changes, Entry.Sound c) {source : Text}
    (h : (Tree.ownStretches source).all fun s =>
      Entry.shelters (FieldChange.ofType changes s.path) (Entry.charsOf s.lexemes)) :
    EntriesSheltered changes source := fun s hs =>
  Entry.sheltered_of_shelters (fun c hm => hc c (List.mem_filter.1 hm).1) (List.all_eq_true.1 h s hs)

end Java

open Java in
/-- Updating the text of a type segment by segment updates the comments in which entries may
stand. -/
theorem Synchronizer.updateClass_eq {path source : Text} {c : ClassDecl}
    (h : (SourceFile.read path source).primary? = some c) {changes : List FieldChange}
    (hc : ∀ c ∈ changes, Entry.Sound c) (hp : Entry.isPlain source)
    (hs : EntriesSheltered changes source) :
    updateClass source c changes = renewedText changes source := by
  obtain ⟨hslices, -⟩ := slices_primary h
  -- the lexemes of a stretch are not empty, and the marked ones are closed comments
  have hlexemes : ∀ s ∈ Tree.ownStretches source, ∀ l ∈ s.lexemes,
      l.1.text ≠ [] ∧ (l.2 → l.1.Closed) :=
    forall_ownStretches fun t ht inBody l hl => by
      obtain ⟨r, hr⟩ := Token.exists_reads_lexemes ht
      have hne := hr.text_ne_nil
      rcases List.mem_append.1 hl with hl | hl
      · obtain ⟨m, hm, rfl⟩ := List.mem_map.1 hl
        refine ⟨hne m (List.mem_append_left _ hm), fun hb => ?_⟩
        simp only [Bool.and_eq_true, beq_iff_eq] at hb
        exact Token.closed_of_mem_lead ht hm hb.1
      · rw [List.mem_singleton.1 hl]
        exact ⟨hne _ (List.mem_append_right _ (List.mem_singleton_self _)), by simp⟩
  have hpairs : updateClass source c changes =
      ((Segment.all c).map fun s => (s.path, Text.slice? s.start s.stop source)).flatMap fun p =>
        if (FieldChange.ofType changes p.1).isEmpty then p.2.getD []
        else Entry.update (FieldChange.ofType changes p.1) (p.2.getD []) := by
    rw [updateClass_eq_flatMap, List.flatMap_map]
    rfl
  rw [hpairs, hslices, List.flatMap_map, renewedText]
  refine List.flatMap_congr fun s hm => ?_
  have hplain : Entry.isPlain (textOf s.lexemes) := by
    have hmem : (s.path, some (textOf s.lexemes)) ∈
        (Segment.all c).map fun s => (s.path, Text.slice? s.start s.stop source) := by
      rw [hslices]
      exact List.mem_map_of_mem hm
    obtain ⟨segment, -, he⟩ := List.mem_map.1 hmem
    exact Entry.isPlain_of_isInfix hp (Text.infix_of_slice? (Prod.mk.inj he).2)
  have hsound : ∀ c ∈ FieldChange.ofType changes s.path, Entry.Sound c :=
    fun c hm => hc c (List.mem_filter.1 hm).1
  cases hown : FieldChange.ofType changes s.path with
  | nil => simp [renewLexeme_nil, textOf]
  | cons c cs =>
    rw [hown] at hsound
    have hrenew := Entry.renewText_charsOf hsound s.lexemes [] (hlexemes s hm) (.inl rfl) (by simp)
      (by rw [← hown]; exact hs s hm) hplain
    simp only [Option.getD_some, Entry.update_eq_renewText (fun c hm => (hsound c hm).readable) hplain]
    exact hrenew

end Javadoc
