import Javadoc.Proofs.Sync.Shelter
import Javadoc.Proofs.Sync.Stretches

/-! The updated text of a type: it reads as the type with the comments before its tokens updated,
where entries may stand in them. -/
namespace Javadoc

/-- The changes of the fields of one type. -/
def FieldChange.ofType (changes : List FieldChange) (path : Text) : List FieldChange :=
  changes.filter fun change => change.container == path

namespace Java

def renewLexeme (changes : List FieldChange) (l : Lexeme × Bool) : Lexeme :=
  { l.1 with text := Entry.renewIf changes l.2 l.1.text }

def Mark.renew (changes : List FieldChange) (m : Mark) : Token :=
  { m.token with
    lead := (m.token.markedLead m.inBody).map (renewLexeme (FieldChange.ofType changes m.path)) }

def renewedText (changes : List FieldChange) (source : Text) : Text :=
  (Tree.ownStretches source).flatMap fun s =>
    s.lexemes.flatMap fun l => (renewLexeme (FieldChange.ofType changes s.path) l).text

private theorem Mark.source_renew (changes : List FieldChange) (m : Mark) :
    (m.renew changes).source =
      m.lexemes.flatMap fun l => (renewLexeme (FieldChange.ofType changes m.path) l).text := by
  simp [Token.source, renew, lexemes, Token.marked, List.flatMap_map, Token.text, renewLexeme,
    Entry.renewIf]

variable {source : Text} {N : Tree} (h : (Tree.scan source).firstType? = some N)
include h

private theorem exists_marks_firstType : ∃ m ms, N.marks [] = m :: ms := by
  obtain ⟨hT, kind, name, head, o, inside, c, rfl⟩ :=
    Tree.firstType?_eq_some h (Tree.typed_scan source)
  obtain ⟨t, ts, hts⟩ := Tree.exists_flatMap_tokens (Tree.ne_nil_of_typeHead? hT.1)
  simp [Tree.marks, Tree.headMarks, hts]

theorem mem_scan_of_mem_marks {m : Mark} (hm : m ∈ N.marks []) : m.token ∈ Token.scan source := by
  obtain ⟨pre, post, hscan⟩ := Tree.tokens_firstType h
  rw [hscan, ← Tree.map_token_marks [] N]
  exact List.mem_append_right _ (List.mem_append_left _ (List.mem_map_of_mem hm))

/-- The updated text, token by token. What stands before the first one is left out. -/
theorem renewedText_eq (changes : List FieldChange) {m : Mark} {ms : List Mark}
    (hm : N.marks [] = m :: ms) :
    renewedText changes source =
      m.token.text ++ (ms.map (Mark.renew changes)).flatMap Token.source := by
  obtain ⟨hT, kind, name, head, o, inside, c, rfl⟩ :=
    Tree.firstType?_eq_some h (Tree.typed_scan source)
  obtain ⟨t, ts, hts⟩ := Tree.exists_flatMap_tokens (Tree.ne_nil_of_typeHead? hT.1)
  have hmt : m = ⟨[], true, false, t⟩ := by
    simp only [Tree.marks, Tree.headMarks, hts, List.cons_append, List.cons.injEq] at hm
    exact hm.1.symm
  have hbefore : Tree.beforeHead head = t.markedLead false := by rw [Tree.beforeHead, hts]
  have hall := Tree.flatMap_stretches
    (f := fun p l => (renewLexeme (FieldChange.ofType changes p) l).text) (fun _ _ => rfl)
    (.type kind name head o inside c (.nil [])) [] [] []
  have hfirst : (⟨[], true, false, t⟩ : Mark).lexemes = t.markedLead false ++ [(t.lexeme, false)] :=
    rfl
  simp only [hm, hmt, Tree.stretches, List.nil_append, List.flatMap_cons, List.flatMap_nil,
    List.flatMap_append, List.append_nil, hbefore, hfirst, List.append_assoc, Tree.headMarks]
    at hall
  have hall := List.append_cancel_left hall
  rw [hmt, List.flatMap_map]
  simp only [Mark.source_renew]
  rw [renewedText, Tree.ownStretches, h]
  exact hall

omit h in
/-- The lexemes before a token stay or are exchanged for closed comments. -/
theorem exchange_renewLexeme {changes : List FieldChange} (hc : ∀ c ∈ changes, Entry.Sound c)
    (hp : Entry.isPlain source) {t : Token} (ht : t ∈ Token.scan source) {l : Lexeme} (hl : l ∈ t.lead)
    (inBody : Bool) :
    Lexeme.Exchange l (renewLexeme changes (l, l.kind == .blockComment && !inBody)) := by
  by_cases hb : (l.kind == .blockComment && !inBody) = true
  · right
    have hk : l.kind = .blockComment := by simp_all
    have hcl := Token.closed_of_mem_lead ht hl hk
    have hpl := Entry.isPlain_of_isInfix hp
      (Token.infix_of_mem_lexemes ht (List.mem_append_left _ hl))
    rw [renewLexeme, hb]
    exact ⟨hcl, (Entry.closed_renewText hc hcl hpl).1⟩
  · left
    rw [renewLexeme, Bool.eq_false_iff.2 hb]
    rfl

omit h in
private theorem exchange_renew {changes : List FieldChange} (hc : ∀ c ∈ changes, Entry.Sound c)
    (hp : Entry.isPlain source) {ms : List Mark} (hms : ∀ m ∈ ms, m.token ∈ Token.scan source) :
    List.Forall₂ Lexeme.Exchange ((ms.map Mark.token).flatMap Token.lexemes)
      ((ms.map (Mark.renew changes)).flatMap Token.lexemes) := by
  refine List.rel_flatMap (R := fun t u => ∃ m ∈ ms, t = m.token ∧ u = m.renew changes) ?_ ?_
  · rw [List.forall₂_map_left_iff, List.forall₂_map_right_iff, List.forall₂_same]
    exact fun m hm => ⟨m, hm, rfl, rfl⟩
  · rintro _ _ ⟨m, hm, rfl, rfl⟩
    refine List.rel_append ?_ (.cons (.inl rfl) .nil)
    rw [Mark.renew, Token.markedLead, List.map_map, List.forall₂_map_right_iff, List.forall₂_same]
    exact fun l hl => exchange_renewLexeme (fun c hm => hc c (List.mem_filter.1 hm).1) hp
      (hms m hm) hl m.inBody

omit h in
private theorem Mark.isProper_renew {m : Mark} (hm : m.token.IsProper)
    (changes : List FieldChange) :
    (m.renew changes).IsProper := by
  refine ⟨fun l hl => ?_, hm.2⟩
  simp only [renew, Token.markedLead, List.map_map, List.mem_map] at hl
  obtain ⟨l, hl, rfl⟩ := hl
  exact hm.1 l hl

/-- The lexemes of the type without what stands before it. -/
theorem exists_reads_marks {m : Mark} {ms : List Mark} (hm : N.marks [] = m :: ms) : ∃ r,
    Lexeme.Reads (m.token.lexeme :: (ms.map Mark.token).flatMap Token.lexemes) r := by
  obtain ⟨pre, post, hscan⟩ := Tree.tokens_firstType h
  obtain ⟨trailing, -, hlex, -⟩ := Token.scan_spec source
  have hreads := Lexeme.reads_scan source
  rw [hlex, hscan, ← Tree.map_token_marks [] N, hm, List.map_cons] at hreads
  simp only [List.flatMap_append, List.flatMap_cons, List.append_assoc] at hreads
  have hreads := (Lexeme.reads_append.1 hreads).2
  rw [Token.lexemes, List.append_assoc] at hreads
  have hreads := (Lexeme.reads_append.1 hreads).2
  rw [← List.append_assoc] at hreads
  exact ⟨_, (Lexeme.reads_append.1 hreads).1⟩

/-- The updated text has the tokens of the type, each with the comments before it updated. -/
theorem scan_renewedText {changes : List FieldChange} (hc : ∀ c ∈ changes, Entry.Sound c)
    (hp : Entry.isPlain source) {m : Mark} {ms : List Mark} (hm : N.marks [] = m :: ms) :
    Token.scan (renewedText changes source) =
      Token.place 0 ({ m.token with lead := [] } :: ms.map (Mark.renew changes)) := by
  have hmem : ∀ n ∈ m :: ms, n.token ∈ Token.scan source := fun n hn =>
    mem_scan_of_mem_marks h (hm ▸ hn)
  obtain ⟨-, -, -, hproper, -⟩ := Token.scan_spec source
  generalize hus : ({ m.token with lead := [] } :: ms.map (Mark.renew changes) : List Token) = us
  have htext : renewedText changes source = us.flatMap Token.source := by
    rw [renewedText_eq h changes hm, ← hus]
    rfl
  have hproper : ∀ u ∈ us, u.IsProper := by
    intro u hu
    rw [← hus] at hu
    rcases List.mem_cons.1 hu with rfl | hu
    · exact ⟨by simp, (hproper _ (hmem m List.mem_cons_self)).2⟩
    · obtain ⟨n, hn, rfl⟩ := List.mem_map.1 hu
      exact Mark.isProper_renew (hproper _ (hmem n (List.mem_cons_of_mem _ hn))) changes
  obtain ⟨r, hreads⟩ := exists_reads_marks h hm
  have hreads : Lexeme.Reads (us.flatMap Token.lexemes) r := by
    rw [← hus]
    exact hreads.exchange (.cons (.inl rfl)
      (exchange_renew hc hp fun n hn => hmem n (List.mem_cons_of_mem _ hn)))
  -- the last token is the closing brace of the type
  obtain ⟨ts, c, hN, hclosing⟩ := Tree.exists_closing_firstType h
  have hlast : us.map Token.lexeme = ts.map Token.lexeme ++ [c.lexeme] := by
    rw [← List.map_singleton, ← List.map_append, ← hN, ← Tree.map_token_marks [] N, hm, ← hus]
    simp [Mark.renew]
  obtain ⟨vs, ws, rfl, -, hws⟩ := List.map_eq_append_iff.1 hlast
  obtain ⟨w, rfl, hw⟩ := List.map_eq_singleton_iff.1 hws
  rw [htext]
  refine Tree.scan_of_reads_fence hproper ?_ hreads
  obtain ⟨d, hd, hfence⟩ := Tree.isFence_of_isClosing hclosing
  exact ⟨d, (congrArg Lexeme.text hw).trans hd, hfence⟩

/-- Reading the updated text gives the type again, with the comments before its tokens updated. -/
theorem exists_map_renewedText {changes : List FieldChange} (hc : ∀ c ∈ changes, Entry.Sound c)
    (hp : Entry.isPlain source) :
    ∃ g, KeepsLexeme g ∧ Tree.scan (renewedText changes source) = N.map g ∧
      ∀ m ∈ (N.marks []).tail, (g m.token).lead = (m.renew changes).lead := by
  obtain ⟨m, ms, hm⟩ := exists_marks_firstType h
  have hnodup := Tree.nodup_firstType h
  have hrel : List.Forall₂ (fun t u => u.lexeme = t.lexeme ∧
      ∃ n ∈ m :: ms, n.token = t ∧ (n ∈ ms → u.lead = (n.renew changes).lead))
      N.tokens (Token.scan (renewedText changes source)) := by
    rw [scan_renewedText h hc hp hm, ← Tree.map_token_marks [] N, hm, List.map_cons]
    refine Token.forall₂_place_right (fun _ _ _ h => h) (.cons ⟨rfl, m, by simp, rfl, ?_⟩ ?_) 0
    · rw [List.forall₂_map_left_iff, List.forall₂_map_right_iff, List.forall₂_same]
      exact fun n hn => ⟨rfl, n, List.mem_cons_of_mem _ hn, rfl, fun _ => rfl⟩
    · rw [← Tree.map_token_marks [] N, hm, List.map_cons, List.nodup_cons] at hnodup
      exact fun hmem => absurd (List.mem_map_of_mem hmem) hnodup.1
  obtain ⟨g, hg, hmap, hR⟩ := exists_keepsLexeme hrel hnodup fun _ _ hR => hR.1
  refine ⟨g, hg, Tree.scan_of_alone h hg.symbols hmap, fun n hn => ?_⟩
  rw [hm] at hn
  have hmem : n ∈ N.marks [] := by
    rw [hm]
    exact List.mem_cons_of_mem _ hn
  have htoken : n.token ∈ N.tokens := by
    rw [← Tree.map_token_marks [] N]
    exact List.mem_map_of_mem hmem
  obtain ⟨-, n', hn', ht, hlead⟩ := hR n.token htoken
  rw [← hm] at hn'
  obtain rfl := Tree.eq_of_mem_marks hnodup hn' hmem ht
  exact hlead hn

end Java
end Javadoc
