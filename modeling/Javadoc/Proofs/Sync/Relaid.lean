import Javadoc.Proofs.Comment.Layout
import Javadoc.Proofs.Sync.Application

/-! Files in another layout. When the blanks of a file change, those at the ends of the lines of its
comments included, every field keeps its description, so that the synchronizer has nothing to do. -/
namespace Javadoc

namespace Comment
open Text

/-- Whether a text starts with a delimiter can be seen from its first line without the blanks around
it. -/
theorem prefix_iff_trimmed {p t : Text} (hp : ∀ c ∈ p, isBlank c = false)
    (ht : ∀ c ∈ t.head?, isBlank c = false) :
    p <+: t ↔ ∀ l ∈ ((splitLines t).map trim).head?, p <+: l := by
  have hsolid {c : Char} (hc : isBlank c) : c ∉ p := fun hm => by simp [hp c hm] at hc
  have htrim {l : Text} (hl : ∀ c ∈ l.head?, isBlank c = false) : p <+: l ↔ p <+: trim l := by
    have hstart : trimStart l = l := by
      cases l with
      | nil => rfl
      | cons c l => rw [trimStart, List.dropWhile_cons_of_neg (by simp [hl c rfl])]
    rw [trim, hstart]
    obtain ⟨b, hb, hblank⟩ := dropEndWhile_append isBlank l
    refine ⟨fun hpre => ?_, fun hpre => hpre.trans (isPrefix_trimEnd l)⟩
    rw [hb] at hpre
    exact prefix_of_prefix_append hpre fun c hc => hsolid (hblank c (List.mem_of_mem_head? hc))
  rcases first_line_cases t with h | ⟨l, u, rfl, hl⟩
  · rw [splitLines_of_not_mem h]
    simpa using htrim ht
  · have hfront : p <+: l ++ '\n' :: u ↔ p <+: l :=
      ⟨fun hpre => prefix_of_prefix_append hpre fun c hc => by
        obtain rfl : '\n' = c := by simpa using hc
        exact hsolid (by decide), fun hpre => hpre.trans (List.prefix_append l _)⟩
    rw [hfront, splitLines_line_append hl]
    simp only [List.map_cons, List.head?_cons, Option.mem_some, forall_eq']
    refine htrim fun c hc => ht c ?_
    cases l with
    | nil => cases hc
    | cons d l => simpa using hc

end Comment

namespace Java

/-- Whether two lexemes are the same but for their layout: line comments say nothing, and block
comments and text blocks may have other blanks around their lines. -/
def Lexeme.Relaid (l m : Lexeme) : Prop :=
  l = m ∨ (l.kind = .lineComment ∧ m.kind = .lineComment) ∨
    (l.kind = m.kind ∧ (l.kind = .blockComment ∨ l.kind = .quoted) ∧
      (Text.splitLines l.text).map Text.trim = (Text.splitLines m.text).map Text.trim)

instance : DecidableRel Lexeme.Relaid := fun _ _ => inferInstanceAs (Decidable (_ ∨ _ ∨ _))

def Lexeme.SameWriting (l m : Lexeme) : Prop := l = m ∨ (l.kind = .quoted ∧ m.kind = .quoted)

def Lexeme.solid (ls : List Lexeme) : List Lexeme := ls.filter fun l => l.kind != .blank

/-- Whether two texts are the same but for their layout. -/
def Relaid (source source' : Text) : Prop :=
  List.Forall₂ Lexeme.Relaid (Lexeme.solid (Lexeme.scan source)) (Lexeme.solid (Lexeme.scan source'))

namespace Lexeme

private theorem solid_cons (l : Lexeme) (ls : List Lexeme) :
    solid (l :: ls) = if l.kind = .blank then solid ls else l :: solid ls := by
  simp [solid, List.filter_cons]

private theorem solid_append (ls ms : List Lexeme) : solid (ls ++ ms) = solid ls ++ solid ms := by
  simp [solid]

private theorem Relaid.isTrivia {l m : Lexeme} (h : l.Relaid m) : m.isTrivia = l.isTrivia := by
  rcases h with rfl | ⟨hl, hm⟩ | ⟨hk, -, -⟩
  · rfl
  · simp [Lexeme.isTrivia, hl, hm]
  · rw [Lexeme.isTrivia, Lexeme.isTrivia, hk]

/-- Outside of blanks and comments only literals have a layout. -/
theorem Relaid.sameWriting {l m : Lexeme} (h : l.Relaid m) (hl : l.isTrivia = false) :
    m.SameWriting l := by
  rcases h with rfl | ⟨hk, -⟩ | ⟨hk, hl' | hl', -⟩
  · exact .inl rfl
  · simp [Lexeme.isTrivia, hk] at hl
  · simp [Lexeme.isTrivia, hl'] at hl
  · exact .inr ⟨hk ▸ hl', hl'⟩

end Lexeme

private theorem keepsSymbols_of_sameWriting {g : Token → Token}
    (hg : ∀ t, (g t).lexeme.SameWriting t.lexeme) : KeepsSymbols g where
  is t s := by
    rcases hg t with h | ⟨h, h'⟩
    · rw [Token.is, Token.is, Token.text, h, Token.text]
    · rw [Token.is, Token.is, h, h']
      rfl
  isWord t := by
    rcases hg t with h | ⟨h, h'⟩
    · rw [Token.isWord, Token.isWord, h]
    · rw [Token.isWord, Token.isWord, h, h']
  text t ht := by
    rcases hg t with h | ⟨-, h'⟩
    · rw [Token.text, Token.text, h]
    · rw [Token.isWord, h'] at ht
      cases ht

namespace Token

def Relaid (t u : Token) : Prop :=
  u.lexeme.SameWriting t.lexeme ∧ List.Forall₂ Lexeme.Relaid (Lexeme.solid t.lead) (Lexeme.solid u.lead)

/-- Tokens can be made without the blanks. -/
theorem forall₂_solid (ls lead : List Lexeme) (origin origin' : Nat) :
    List.Forall₂ (fun t u => u.lexeme = t.lexeme ∧ u.lead = Lexeme.solid t.lead)
      (ofLexemes origin lead ls) (ofLexemes origin' (Lexeme.solid lead) (Lexeme.solid ls)) := by
  induction ls generalizing lead origin origin' with
  | nil => exact .nil
  | cons l ls ih =>
    have ih' := ih (lead ++ [l]) origin origin'
    rw [Lexeme.solid_append, Lexeme.solid_cons] at ih'
    rw [ofLexemes, Lexeme.solid_cons]
    by_cases hk : l.kind = .blank
    · have ht : l.isTrivia := by simp [Lexeme.isTrivia, hk]
      rw [if_pos hk] at ih' ⊢
      rw [if_pos ht]
      simpa [Lexeme.solid] using ih'
    · rw [if_neg hk] at ih' ⊢
      rw [ofLexemes]
      split
      · exact ih'
      · exact .cons ⟨rfl, rfl⟩ (ih [] _ _)

private theorem forall₂_ofLexemes {ls ms : List Lexeme} (h : List.Forall₂ Lexeme.Relaid ls ms)
    {lead lead' : List Lexeme} (hl : List.Forall₂ Lexeme.Relaid lead lead') (origin origin' : Nat) :
    List.Forall₂ (fun t u =>
        u.lexeme.SameWriting t.lexeme ∧ List.Forall₂ Lexeme.Relaid t.lead u.lead)
      (ofLexemes origin lead ls) (ofLexemes origin' lead' ms) := by
  induction h generalizing lead lead' origin origin' with
  | nil => exact .nil
  | @cons l m ls ms hlm _ ih =>
    rw [ofLexemes, ofLexemes, hlm.isTrivia]
    split
    · exact ih (List.rel_append hl (.cons hlm .nil)) origin origin'
    · next ht =>
      exact .cons ⟨hlm.sameWriting (by simpa using ht), hl⟩ (ih .nil _ _)

/-- The tokens of a text in another layout are the same but for their layout. -/
theorem forall₂_scan {source source' : Text} (h : Java.Relaid source source') :
    List.Forall₂ Relaid (scan source) (scan source') := by
  have hsolid := forall₂_solid (Lexeme.scan source) [] 0 0
  have hsolid' := (forall₂_solid (Lexeme.scan source') [] 0 0).flip
  have hrelaid := forall₂_ofLexemes h (.nil : List.Forall₂ Lexeme.Relaid [] []) 0 0
  refine forall₂_trans (R := fun t u => u.lexeme.SameWriting t.lexeme ∧
    List.Forall₂ Lexeme.Relaid (Lexeme.solid t.lead) u.lead) ?_
    (forall₂_trans ?_ hsolid hrelaid) hsolid'
  · rintro t u w ⟨hlexeme, hlead⟩ ⟨hlexeme', hlead'⟩
    exact ⟨hlexeme' ▸ hlexeme, hlead' ▸ hlead⟩
  · rintro t u w ⟨hlexeme, hlead⟩ ⟨hlexeme', hlead'⟩
    exact ⟨hlexeme ▸ hlexeme', hlead ▸ hlead'⟩

def tell (told? : Option Text) (l : Lexeme) : Option Text :=
  match l.kind with
  | .blockComment =>
    if Comment.docStart.isPrefixOf l.text then some (Comment.description l.text) else none
  | .lineComment | .stray => none
  | _ => told?

private theorem description_lastComment (ls : List Lexeme) (found : Preceding) (at_ : Nat) :
    ((lastComment found at_ ls).doc?.map (·.text)).map Comment.description =
      ls.foldl tell ((found.doc?.map (·.text)).map Comment.description) := by
  induction ls generalizing found at_ with
  | nil => rfl
  | cons l ls ih =>
    rw [lastComment, ih, List.foldl_cons, tell]
    congr 1
    cases l.kind with
    | blockComment => dsimp only; split <;> rfl
    | _ => rfl

private theorem foldl_tell_solid (ls : List Lexeme) (told? : Option Text) :
    (Lexeme.solid ls).foldl tell told? = ls.foldl tell told? := by
  induction ls generalizing told? with
  | nil => rfl
  | cons l ls ih =>
    rw [Lexeme.solid_cons]
    split
    · next hk =>
      have htell : tell told? l = told? := by rw [tell, hk]
      rw [List.foldl_cons, htell, ih]
    · rw [List.foldl_cons, List.foldl_cons, ih]

private theorem tell_relaid {l m : Lexeme} (h : l.Relaid m) (hl : l.kind = .blockComment → l.Closed)
    (hm : m.kind = .blockComment → m.Closed) (told? : Option Text) : tell told? m = tell told? l := by
  rcases h with rfl | ⟨hl', hm'⟩ | ⟨hk, hl' | hl', hlines⟩
  · rfl
  · rw [tell, tell, hl', hm']
  · have hstart {k : Lexeme} (hk : k.Closed) : Comment.docStart <+: k.text ↔
        ∀ line ∈ ((Text.splitLines k.text).map Text.trim).head?, Comment.docStart <+: line := by
      obtain ⟨-, inside, ht, -⟩ := hk
      refine Comment.prefix_iff_trimmed (by simp [Comment.docStart, Text.isBlank]) fun c hc => ?_
      rw [ht] at hc
      obtain rfl : '/' = c := by simpa using hc
      decide
    have hdoc : Comment.docStart.isPrefixOf m.text = Comment.docStart.isPrefixOf l.text := by
      rw [Bool.eq_iff_iff, List.isPrefixOf_iff_prefix, List.isPrefixOf_iff_prefix, hstart (hl hl'),
        hstart (hm (hk ▸ hl')), hlines]
    rw [tell, tell, ← hk, hl']
    simp only [hdoc, Comment.description_congr hlines]
  · rw [tell, tell, ← hk, hl']

private theorem foldl_tell_relaid {ls ms : List Lexeme} (h : List.Forall₂ Lexeme.Relaid ls ms)
    (hl : ∀ l ∈ ls, l.kind = .blockComment → l.Closed)
    (hm : ∀ m ∈ ms, m.kind = .blockComment → m.Closed) (told? : Option Text) :
    ms.foldl tell told? = ls.foldl tell told? := by
  induction h generalizing told? with
  | nil => rfl
  | @cons l m ls ms hlm _ ih =>
    rw [List.foldl_cons, List.foldl_cons,
      tell_relaid hlm (hl l List.mem_cons_self) (hm m List.mem_cons_self)]
    exact ih (fun k hk => hl k (List.mem_cons_of_mem l hk))
      (fun k hk => hm k (List.mem_cons_of_mem m hk)) _

/-- What stands before a token in another layout describes the same. -/
theorem description_preceding {source source' : Text} {t u : Token} (ht : t ∈ scan source)
    (hu : u ∈ scan source') (h : t.Relaid u) :
    (u.preceding.doc?.map (·.text)).map Comment.description =
      (t.preceding.doc?.map (·.text)).map Comment.description := by
  have hclosed {source : Text} {t : Token} (ht : t ∈ scan source) :
      ∀ l ∈ Lexeme.solid t.lead, l.kind = .blockComment → l.Closed := fun l hl =>
    closed_of_mem_lead ht (List.mem_filter.1 hl).1
  rw [preceding, preceding, description_lastComment, description_lastComment, ← foldl_tell_solid,
    ← foldl_tell_solid t.lead, foldl_tell_relaid h.2 (hclosed ht) (hclosed hu)]

end Token

/-- A type in another layout has the name and the descriptions that it had. -/
theorem exists_primary?_relaid {path source source' : Text} (h : Relaid source source')
    {c : ClassDecl} (hc : (SourceFile.read path source).primary? = some c) :
    ∃ d, (SourceFile.read path source').primary? = some d ∧ d.own.name = c.own.name ∧
      Snapshot.ofClass d = Snapshot.ofClass c := by
  obtain ⟨g, hg, hscan, hrel⟩ := Token.exists_map_of_forall₂ (Token.forall₂_scan h)
    (Token.nodup_scan source) (P := fun t u => u.lexeme.SameWriting t.lexeme) (fun _ => .inl rfl)
    fun _ _ htu => htu.1
  have hg := keepsSymbols_of_sameWriting hg
  obtain ⟨N, hN, hNc⟩ := exists_firstType hc
  obtain ⟨d, hd, -⟩ := exists_nested_map hN g
  refine ⟨d, ?_, ofClass_eq hN hg hNc hd fun path f f' hs => ?_⟩
  · rw [primary?_read, Tree.scan_of_map hg hscan, Tree.firstType?_map, hN, Option.map_some,
      Option.bind_some, hd]
    rfl
  · obtain ⟨n, hn, -, σ, hσ, hm, hm'⟩ := hs
    obtain ⟨t, ts, hts, ht, -⟩ := exists_first hN hn hσ
    have hts' : (n.head.map (Piece.map g)).flatMap Piece.tokens = g t :: ts.map g := by
      rw [Piece.flatMap_tokens_map, hts, List.map_cons]
    have hgt : g t ∈ Token.scan source' := hscan ▸ List.mem_map_of_mem ht
    cases σ <;> cases hm
    cases hm'
    refine ⟨rfl, ?_⟩
    rw [Snapshot.describe_eq, Snapshot.describe_eq]
    simp only [Tree.placeOf_eq hts, Tree.placeOf_eq hts',
      Token.description_preceding ht hgt (hrel t ht)]

end Java

namespace Synchronizer

open Java Comment

/-- Layout is no part of a description: line breaks can be written with blanks around them, and a
comment can be laid out anywhere. What was observed of a file is observed again in any other layout
of it. -/
theorem observe_relaid :
    (∀ comment w : Text, (∀ c ∈ w, Text.isBlank c) → '\n' ∉ w →
      description (rebreak ('\n' :: w) comment) = description comment ∧
        description (rebreak ('\r' :: '\n' :: w) comment) = description comment) ∧
    (∀ source offset comment,
      description (Plan.layOut (Plan.newlineOf source) (Plan.indentAt source offset) comment) =
        description comment) ∧
    ∀ path source source', Relaid source source' → ∀ (s s' : Synchronizer) (edits : List Edit),
      s.observe (SourceFile.read path source) = (.ok edits, s') →
        s'.observe (SourceFile.read path source') = (.ok [], s') := by
  refine ⟨fun comment w hw hn => ⟨?_, ?_⟩, description_layOut, ?_⟩
  · exact description_rebreak (r := []) (by simp) (by simp) hw hn [] comment
  · exact description_rebreak (r := ['\r']) (by simp [Text.isBlank]) (by simp) hw hn [] comment
  · intro path source source' h s s' edits hs
    obtain ⟨c, hc, htracked, hsnapshot, -⟩ := observe_ok hs
    obtain ⟨d, hd, hname, hsame⟩ := exists_primary?_relaid h hc
    exact observe_recorded hd (hsnapshot.trans hsame.symm) (hname ▸ htracked)

/-- A file with other line endings and indentation, in a text block, too. Its comment comes to share
a line with code. -/
theorem observe_relaid_indented :
    let source := "class A \x7b\n  /**\n   * Counts,\n * of A.\n   * @since 1\n */\n  int x; // n\n".toList ++
      "  String s = \"\"\"\n    a\n    b\"\"\";\n\x7d".toList
    let source' := "class A\r\n\x7b /**\r\n\t* Counts,\r\n\t* of A.\r\n\t* @since 1".toList ++
      "\r\n\t*/ int x;// n\r\n\tString s = \"\"\"\r\n\ta\r\n\tb\"\"\";\r\n\x7d".toList
    let w : Text := ['\t', '\u2003']
    (∀ c ∈ w, Text.isBlank c) ∧ '\n' ∉ w ∧
      description (rebreak ('\r' :: '\n' :: w) "/** a\n\n * b\n*/".toList) = "a b".toList ∧
      Relaid source source' ∧
      ∃ s', Synchronizer.observe {} (SourceFile.read [] source) = (.ok [], s') ∧
        s'.snapshot.entries =
          [(⟨['A'], ['s']⟩, []), (⟨['A'], ['x']⟩, "Counts, of A.".toList)] ∧
        s'.observe (SourceFile.read [] source') = (.ok [], s') := by
  intro source source' w
  have hw : ∀ c ∈ w, Text.isBlank c := List.all_eq_true.1 (by decide)
  have hn : '\n' ∉ w := by decide
  have hrelaid : Relaid source source' := by
    rw [Relaid, List.forall₂_iff_zip]
    have hall : ((Lexeme.solid (Lexeme.scan source)).zip
        (Lexeme.solid (Lexeme.scan source'))).all fun p => p.1.Relaid p.2 := by decide +kernel
    exact ⟨by decide +kernel, fun h => by simpa using List.all_eq_true.1 hall _ h⟩
  have hdescription : description "/** a\n\n * b\n*/".toList = "a b".toList := by decide +kernel
  have hentries : (Synchronizer.observe {} (SourceFile.read [] source)).2.snapshot.entries =
      [(⟨['A'], ['s']⟩, []), (⟨['A'], ['x']⟩, "Counts, of A.".toList)] := by decide +kernel
  have hok : (Synchronizer.observe {} (SourceFile.read [] source)).1.toOption = some [] := by
    decide +kernel
  rcases hobserve : Synchronizer.observe {} (SourceFile.read [] source) with ⟨result, s'⟩
  rw [hobserve] at hentries hok
  cases result with
  | error e => cases hok
  | ok edits =>
    obtain rfl : edits = [] := Option.some.inj hok
    refine ⟨hw, hn, ?_, hrelaid, s', rfl, hentries, ?_⟩
    · rw [(observe_relaid.1 _ w hw hn).2, hdescription]
    · exact observe_relaid.2.2 [] source source' hrelaid {} s' [] hobserve

end Synchronizer
end Javadoc
