import Javadoc.Proofs.Java.Names
import Javadoc.Proofs.OrderedMap
import Javadoc.Proofs.Sync.Owners

/-! The changes between two snapshots of a type: their fields have the names of words, and their
descriptions could stand in a comment. -/
namespace Javadoc

namespace Text

private theorem dropReturn_prefix (l : Text) : dropReturn l <+: l := by
  rw [dropReturn, stripSuffix?]
  split
  · exact List.take_prefix _ _
  · exact List.prefix_refl l

theorem exists_piece_of_mem_linesOfPieces {ps : List Text} {l : Text} (h : l ∈ linesOfPieces ps) :
    ∃ p ∈ ps, l <+: p := by
  induction ps with
  | nil => cases h
  | cons p ps ih =>
    cases ps with
    | nil =>
      rw [linesOfPieces] at h
      split at h
      · cases h
      · exact ⟨p, List.mem_cons_self, by rw [List.mem_singleton.1 h]⟩
    | cons q ps =>
      rcases List.mem_cons.1 h with rfl | h
      · exact ⟨p, List.mem_cons_self, dropReturn_prefix p⟩
      · obtain ⟨r, hr, hl⟩ := ih h
        exact ⟨r, List.mem_cons_of_mem _ hr, hl⟩

theorem isInfix_trim (t : Text) : trim t <:+: t := by
  obtain ⟨a, b, h, -⟩ := trim_spec t
  exact ⟨a, b, by rw [List.append_assoc, ← h]⟩

theorem trim_of_solid {c d : Char} {t : Text} (hc : isBlank c = false) (hd : isBlank d = false) :
    trim (c :: (t ++ [d])) = c :: (t ++ [d]) := by
  obtain ⟨a, b, h, ha, hb⟩ := trim_spec (c :: (t ++ [d]))
  have ha : a = [] := by
    cases a with
    | nil => rfl
    | cons x a =>
      have hx := ha x List.mem_cons_self
      simp only [List.cons_append, List.cons.injEq] at h
      simp [← h.1, hc] at hx
  have hb : b = [] := by
    rcases List.eq_nil_or_concat b with rfl | ⟨b', x, rfl⟩
    · rfl
    · have hx := hb x (by simp)
      have hlast := congrArg List.getLast? h
      rw [← List.cons_append, List.getLast?_concat, ha] at hlast
      simp only [List.nil_append, List.concat_eq_append, ← List.append_assoc,
        List.getLast?_concat, Option.some.injEq] at hlast
      simp [← hlast, hd] at hx
  rw [ha, hb, List.nil_append, List.append_nil] at h
  exact h.symm

end Text

namespace Comment

theorem lineContent_isInfix (line : Text) : lineContent line <:+: line :=
  (Text.isInfix_trim _).trans ((List.dropWhile_suffix _).isInfix.trans (Text.isInfix_trim line))

/-- What a description holds without a space in it, a line of the comment holds. -/
theorem exists_line_of_infix_description {pat comment : Text} (hp : ' ' ∉ pat) (hne : pat ≠ [])
    (h : pat <:+: description comment) : ∃ p ∈ Text.splitLines (inner comment), pat <:+: p := by
  rw [description, Text.infix_joinWith_iff hp hne] at h
  obtain ⟨content, hc, hin⟩ := h
  have hmem := (List.takeWhile_prefix _).subset (List.mem_filter.1 hc).1
  obtain ⟨line, hline, rfl⟩ := List.mem_map.1 hmem
  obtain ⟨p, hp, hl⟩ := Text.exists_piece_of_mem_linesOfPieces hline
  exact ⟨p, hp, hin.trans ((lineContent_isInfix line).trans hl.isInfix)⟩

theorem newline_not_mem_description (comment : Text) : '\n' ∉ description comment := by
  intro hm
  have hin : ['\n'] <:+: description comment := by
    obtain ⟨a, b, hab⟩ := List.append_of_mem hm
    exact ⟨a, b, by rw [hab]; simp⟩
  obtain ⟨p, hp, h⟩ := exists_line_of_infix_description (by decide) (by simp) hin
  exact Text.not_mem_of_mem_splitLines hp (h.subset List.mem_cons_self)

/-- The inside of a documentation comment does not close it. -/
theorem inner_spec {l : Java.Lexeme} (hl : l.Closed) (hd : docStart <+: l.text) :
    inner l.text <:+: l.text ∧ ¬ ['*', '/'] <:+: inner l.text := by
  obtain ⟨-, inside, ht, hno⟩ := hl
  have htrim : Text.trim l.text = l.text := by
    have := Text.trim_of_solid (c := '/') (d := '/') (t := '*' :: (inside ++ ['*'])) (by decide)
      (by decide)
    rw [ht]
    simpa using this
  rw [inner, htrim, Text.stripPrefix?, if_pos (List.isPrefixOf_iff_prefix.2 hd), ht]
  have hclose (i : Text) : Text.stripSuffix? blockClose (i ++ ['*', '/']) = some i := by
    have hs : blockClose.isSuffixOf (i ++ ['*', '/']) :=
      List.isSuffixOf_iff_suffix.2 (List.suffix_append i _)
    rw [Text.stripSuffix?, if_pos hs]
    simp [blockClose]
  cases inside with
  | nil => exact ⟨⟨['/', '*', '*'], [], rfl⟩, by decide⟩
  | cons x i =>
    have hdrop : ('/' :: '*' :: (x :: i ++ ['*', '/'])).drop docStart.length = i ++ ['*', '/'] := rfl
    simp only [hdrop, hclose, Option.getD_some]
    exact ⟨⟨['/', '*', x], ['*', '/'], by simp⟩,
      fun h => hno (h.trans ⟨[x], ['*'], by simp⟩)⟩

end Comment

namespace Entry

/-- The description of a documentation comment could stand in an entry. -/
theorem isDescription_description {l : Java.Lexeme} (hl : l.Closed)
    (hd : Comment.docStart <+: l.text) (hp : isPlain (Comment.description l.text)) :
    IsDescription (Comment.description l.text) := by
  refine ⟨hp, Comment.newline_not_mem_description _, fun h => ?_⟩
  obtain ⟨p, hp, h⟩ := Comment.exists_line_of_infix_description (by decide) (by simp) h
  exact (Comment.inner_spec hl hd).2 (h.trans (Text.infix_of_mem_splitLines hp))

private theorem isPlain_description {l : Java.Lexeme} (hl : l.Closed)
    (hd : Comment.docStart <+: l.text) (hp : isPlain l.text) :
    isPlain (Comment.description l.text) := by
  have hinner := isPlain_of_isInfix hp (Comment.inner_spec hl hd).1
  refine isPlain_iff.2 ⟨fun hm => ?_, fun name hn h => ?_⟩
  · have hin : [mark] <:+: Comment.description l.text := by
      obtain ⟨a, b, hab⟩ := List.append_of_mem hm
      exact ⟨a, b, by rw [hab]; simp⟩
    obtain ⟨p, hp, h⟩ := Comment.exists_line_of_infix_description (by decide) (by simp) hin
    exact not_mem_of_isPlain (isPlain_of_isInfix hinner (Text.infix_of_mem_splitLines hp))
      (h.subset List.mem_cons_self)
  · have hne : name ≠ [] := by
      rintro rfl
      simpa using (name_spec hn).1
    obtain ⟨p, hp, h⟩ := Comment.exists_line_of_infix_description (not_mem_name hn (by decide)) hne h
    exact not_infix_of_isPlain (isPlain_of_isInfix hinner (Text.infix_of_mem_splitLines hp)) hn h

end Entry
namespace Java

/-- A field is read from a node: its name is a word of the head, and its comment precedes the
head. -/
theorem exists_field {path source : Text} {c : ClassDecl}
    (h : (SourceFile.read path source).primary? = some c) {p : Text × ClassInfo}
    (hp : p ∈ c.withPaths) {f : Field} (hf : f ∈ p.2.fields) :
    (∃ t ∈ Token.scan source, t.isWord ∧ f.name = t.text) ∧
      ∃ t ∈ Token.scan source, f.comment = t.preceding := by
  obtain ⟨N, hN, hc⟩ := exists_firstType h
  obtain ⟨d, hd, -⟩ := exists_nested_map hN id
  obtain ⟨p', hrel⟩ := exists_of_mem_left (forall₂_withPaths hN (KeepsLexeme.symbols fun _ => rfl) hc hd) hp
  obtain ⟨f', n, hn, -, σ, hσ, hm, -⟩ := exists_of_mem_left hrel.fields hf
  obtain ⟨t, ts, hts, ht, -⟩ := exists_first hN hn hσ
  cases σ with
  | constructor => cases hm
  | method => cases hm
  | field name type =>
    cases hm
    obtain ⟨u, hu, hw, rfl⟩ := isWordOf_of_mem_shapes hσ
    refine ⟨⟨u, ?_, hw, rfl⟩, t, ht, by rw [Tree.placeOf_eq hts]⟩
    rw [← Tree.map_token_headMarks n.path n.path] at hu
    obtain ⟨m, hm, rfl⟩ := List.mem_map.1 hu
    exact mem_scan_of_mem_marks hN (List.mem_of_mem_tail (headMarks_subset_tail hN hn hm))

end Java

namespace Snapshot

open Java

/-- A snapshot that the type of some file has left. -/
def Recorded (s : Snapshot) : Prop :=
  ∃ path source c, (SourceFile.read path source).primary? = some c ∧ s = ofClass c

theorem exists_field_of_mem {c : ClassDecl} {e : FieldKey × Text} (h : e ∈ (ofClass c).entries) :
    ∃ p ∈ c.withPaths, ∃ f ∈ p.2.fields, e = (⟨p.1, f.name⟩, describe f) := by
  have hm := OrderedMap.mem_ofList h
  obtain ⟨⟨key, f⟩, hkf, rfl⟩ := List.mem_map.1 hm
  obtain ⟨p, hp, hkf⟩ := List.mem_flatMap.1 hkf
  obtain ⟨f', hf, he⟩ := List.mem_map.1 hkf
  cases he
  exact ⟨p, hp, f, hf, rfl⟩

/-- What a snapshot says of a field is nothing, or the description of a comment in the source. -/
theorem describe_cases {path source : Text} {c : ClassDecl}
    (h : (SourceFile.read path source).primary? = some c) {p : Text × ClassInfo}
    (hp : p ∈ c.withPaths) {f : Field} (hf : f ∈ p.2.fields) :
    describe f = [] ∨ ∃ l : Lexeme, l.Closed ∧ Comment.docStart <+: l.text ∧ l.text <:+: source ∧
      describe f = Comment.description l.text := by
  obtain ⟨-, t, ht, hc⟩ := exists_field h hp hf
  rw [describe, hc]
  split
  · next doc hd =>
    obtain ⟨as, l, bs, hl, hk, hstart, rfl, -⟩ := Token.exists_doc hd
    have hm : l ∈ t.lead := by simp [hl]
    exact .inr ⟨l, Token.closed_of_mem_lead ht hm hk, hstart,
      Token.infix_of_mem_lexemes ht (List.mem_append_left _ hm), rfl⟩
  · exact .inl rfl

private theorem Recorded.isDescription {s : Snapshot} (hs : s.Recorded) {e : FieldKey × Text}
    (he : e ∈ s.entries) (hp : Entry.isPlain e.2) : Entry.IsDescription e.2 := by
  obtain ⟨path, source, c, h, rfl⟩ := hs
  obtain ⟨p, hpc, f, hf, rfl⟩ := exists_field_of_mem he
  rcases describe_cases h hpc hf with hd | ⟨l, hl, hstart, -, hd⟩
  · simp only [hd]
    exact ⟨by decide, by simp, by decide⟩
  · rw [hd] at hp ⊢
    exact Entry.isDescription_description hl hstart hp

/-- The descriptions of a text without the letters of tokens have none either. -/
theorem isPlain_of_mem_ofClass {path source : Text} {c : ClassDecl}
    (h : (SourceFile.read path source).primary? = some c) (hp : Entry.isPlain source)
    {e : FieldKey × Text} (he : e ∈ (ofClass c).entries) : Entry.isPlain e.2 := by
  obtain ⟨p, hpc, f, hf, rfl⟩ := exists_field_of_mem he
  rcases describe_cases h hpc hf with hd | ⟨l, hl, hstart, hin, hd⟩
  · simp only [hd]
    decide
  · simp only [hd]
    exact Entry.isPlain_description hl hstart (Entry.isPlain_of_isInfix hp hin)

/-- The fields of a text without the letters of tokens have names without them. -/
theorem isName_of_mem_ofClass {path source : Text} {c : ClassDecl}
    (h : (SourceFile.read path source).primary? = some c) (hp : Entry.isPlain source)
    {e : FieldKey × Text} (he : e ∈ (ofClass c).entries) : Entry.IsName e.1.field := by
  obtain ⟨p, hpc, f, hf, rfl⟩ := exists_field_of_mem he
  obtain ⟨⟨t, ht, hw, hname⟩, -⟩ := exists_field h hpc hf
  simp only [hname]
  have hm : t.lexeme ∈ t.lexemes := by simp [Token.lexemes]
  exact ⟨Entry.isPlain_of_isInfix hp (Token.infix_of_mem_lexemes ht hm),
    Token.isWordPart_of_mem_scan ht hw⟩

theorem mem_changes {s t : Snapshot} {change : FieldChange} (h : change ∈ s.changes t) :
    (⟨change.container, change.field⟩, change.new) ∈ t.entries ∧
      s.get? ⟨change.container, change.field⟩ = some change.old := by
  obtain ⟨⟨key, description⟩, he, hc⟩ := List.mem_filterMap.1 h
  simp only at hc
  split at hc
  · next before hb =>
    split at hc
    · cases hc
    · cases hc
      exact ⟨he, hb⟩
  · cases hc

/-- The changes that a text shows are about names of its fields, and descriptions of comments. -/
theorem sound_of_mem_changes {path source : Text} {c : ClassDecl}
    (h : (SourceFile.read path source).primary? = some c) (hp : Entry.isPlain source)
    {s : Snapshot} (hs : s.Recorded) (hplain : ∀ e ∈ s.entries, Entry.isPlain e.2) :
    ∀ change ∈ s.changes (ofClass c), Entry.Sound change := by
  intro change hc
  obtain ⟨hnew, hold⟩ := mem_changes hc
  have hold := OrderedMap.mem_of_get? hold
  refine ⟨isName_of_mem_ofClass h hp hnew, hs.isDescription hold (hplain _ hold), ?_⟩
  exact Recorded.isDescription ⟨path, source, c, h, rfl⟩ hnew (isPlain_of_mem_ofClass h hp hnew)

end Snapshot
end Javadoc
