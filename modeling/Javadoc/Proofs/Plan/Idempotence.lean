import Javadoc.Proofs.Java.Insertion
import Javadoc.Proofs.Plan.Layout
import Javadoc.Proofs.Plan.Sites
import Javadoc.Proofs.Splice

/-! Documenting a document twice: the comments of the first pass stand directly before their
declarations and change nothing else, so that the second pass finds nothing to do. -/
namespace Javadoc

/-- Whether nothing strays between the lexemes of a text but the mark that may open it. Other stray
characters are errors of syntax. -/
def Java.Lexeme.noneStrays (source : Text) : Bool :=
  (scan source).all fun l => l.kind != .stray || l.text == [mark]

namespace Plan

open Java

def openSites (t : Templates) (source : Text) : List Site :=
  (Site.ofSource t source).filter fun site => !site.commented

def inserted? (t : Templates) (source : Text) (u : Token) : Option Text :=
  ((openSites t source).find? fun site => site.start == u.start).bind fun site =>
    site.comment?.map (layOut (newlineOf source) (indentAt source site.start))

theorem edits_read (t : Templates) (path source : Text) :
    edits t (SourceFile.read path source) =
      (Site.firstOfEach (openSites t source)).filterMap (insertion? source (newlineOf source)) := by
  rw [edits, Site.flatMap_ofClass]
  rfl

private theorem isSpace_indentAt {source : Text} (hs : Lexeme.noneStrays source) {u : Token}
    (hu : u ∈ Token.scan source) : ∀ c ∈ indentAt source u.start, Lexeme.isSpace c := by
  obtain ⟨trailing, -, hlex, hproper, -⟩ := Token.scan_spec source
  obtain ⟨as, bs, hscan⟩ := List.append_of_mem hu
  obtain ⟨behind, hsource⟩ := Token.exists_behind hscan
  have hreads := Lexeme.reads_scan source
  rw [hlex, hscan, List.flatMap_append, List.flatMap_cons, Token.lexemes, List.append_assoc,
    List.append_assoc, List.append_assoc, ← List.append_assoc, Lexeme.reads_append,
    List.singleton_append] at hreads
  obtain ⟨hbefore, hlexeme, -⟩ := hreads
  have hstray : ∀ l ∈ as.flatMap Token.lexemes ++ u.lead, l.kind = .stray →
      l.text = [Lexeme.mark] := by
    intro l hl hk
    have hmem : l ∈ Lexeme.scan source := by
      rw [hlex, hscan, List.flatMap_append, List.flatMap_cons, Token.lexemes]
      simp only [List.mem_append] at hl ⊢
      exact .inl (hl.imp_right fun hl => .inl (.inl hl))
    simpa [hk] using List.all_eq_true.1 hs l hmem
  rw [Token.start_eq hscan]
  generalize hhead : as.flatMap Token.source ++ u.lead.flatMap (·.text) = before at hsource
  rw [hsource, indentAt_eq]
  split
  · next hblank =>
    refine hbefore.isSpace_of_suffix hstray (by simp [hlexeme.text_ne_nil]) ?_ ?_
      (List.all_eq_true.1 hblank) fun hm => ?_
    · obtain ⟨c, w, hc⟩ := List.exists_cons_of_ne_nil hlexeme.text_ne_nil
      have hsolid := hlexeme.isBlank_head (hproper u hu).2 c (by rw [hc]; rfl)
      rintro d hd rfl
      obtain rfl : c = '\n' := by simpa [hc] using hd
      exact absurd hsolid (by decide)
    · rw [List.flatMap_append, Token.flatMap_flatMap_text, hhead, Text.lineHead, ← List.reverse_prefix,
        List.reverse_reverse]
      exact List.takeWhile_prefix _
    · rw [Text.lineHead, List.mem_reverse] at hm
      simpa using List.all_eq_true.1 List.all_takeWhile _ hm
  · simp

private theorem standalone_layOut {source comment : Text} (hs : Lexeme.noneStrays source)
    {u : Token}
    (hu : u ∈ Token.scan source) (h : Comment.isBlockComment (Comment.trimSpaces comment)) :
    Standalone (layOut (newlineOf source) (indentAt source u.start) comment) := by
  obtain ⟨hne, hb⟩ := newlineOf_spec source
  refine layOut_spec hne (fun c hc => ?_) h
  exact (List.mem_append.1 hc).elim (hb c) (isSpace_indentAt hs hu c)

section

variable {t : Templates} {source : Text}

/-- Every site is that of a token that starts a head. -/
theorem exists_mark_of_mem_ofSource {s : Site} (hs : s ∈ Site.ofSource t source) :
    ∃ m ∈ (Tree.scan source).marks [], m.isHead ∧ s.start = m.token.start ∧
      s.commented = m.token.preceding.isComment := by
  have hid : Token.scan source = (Token.scan source).map id := (List.map_id _).symm
  have h := Site.forall₂_ofSource t (fun _ => rfl) hid fun _ _ _ => rfl
  obtain ⟨m, hm, hh, hms, hmc, -⟩ := List.forall₂_same.1 h s hs
  exact ⟨m, hm, hh, hms, hmc⟩

theorem token_mem_scan {m : Mark} (h : m ∈ (Tree.scan source).marks []) :
    m.token ∈ Token.scan source := by
  rw [← Tree.tokens_scan, ← Tree.map_token_marks []]
  exact List.mem_map_of_mem h

/-- A comment is put before a token that starts a head and that has none. -/
theorem inserted?_eq_some {u : Token} (hu : u ∈ Token.scan source) {x : Text}
    (hx : inserted? t source u = some x) :
    ∃ s ∈ Site.firstOfEach (openSites t source), ∃ c, s.comment? = some c ∧ s.start = u.start ∧
      x = layOut (newlineOf source) (indentAt source u.start) c ∧
      ∃ m ∈ (Tree.scan source).marks [], m.isHead ∧ m.token = u ∧ ¬ u.preceding.isComment := by
  obtain ⟨s, hs, hsx⟩ := Option.bind_eq_some_iff.1 hx
  obtain ⟨c, hc, rfl⟩ := Option.map_eq_some_iff.1 hsx
  have hstart : s.start = u.start := by simpa using List.find?_some hs
  have hopen := List.mem_filter.1 (List.mem_of_find?_eq_some hs)
  obtain ⟨m, hm, hh, hms, hmc⟩ := exists_mark_of_mem_ofSource hopen.1
  have hmu : m.token = u := Token.eq_of_start_eq (token_mem_scan hm) hu (by rw [← hms, hstart])
  refine ⟨s, Site.mem_firstOfEach.2 (by rw [hstart]; exact hs), c, hc, hstart, by rw [hstart],
    m, hm, hh, hmu, ?_⟩
  rw [← hmu, ← hmc]
  simpa using hopen.2

private theorem insertable (hstray : Lexeme.noneStrays source)
    (h : ∀ s ∈ Site.ofSource t source, ∀ c ∈ s.comment?,
      Comment.isBlockComment (Comment.trimSpaces c)) :
    Token.Insertable (inserted? t source) (Token.scan source) where
  standalone u hu x hx := by
    obtain ⟨s, hs, c, hc, -, rfl, -⟩ := inserted?_eq_some hu hx
    have hs := List.mem_of_find?_eq_some (Site.mem_firstOfEach.1 hs)
    exact standalone_layOut hstray hu (h s (List.mem_filter.1 hs).1 c hc)
  uncommented u hu x hx := by
    obtain ⟨-, -, -, -, -, -, -, -, -, -, hc⟩ := inserted?_eq_some hu hx
    exact hc
  fence := by
    have hchain := Tree.isChain_marks [] source
    rw [← Tree.tokens_scan, ← Tree.map_token_marks [], List.isChain_map]
    refine hchain.imp_of_mem_imp fun m n _ hn hmn x hx => hmn ?_
    obtain ⟨-, -, -, -, -, -, k, hk, hh, hkn, -⟩ := inserted?_eq_some (token_mem_scan hn) hx
    rw [← Tree.eq_of_mem_marks (by rw [Tree.tokens_scan]; exact Token.nodup_scan source) hk hn hkn]
    exact hh

end

def patches (comments : Token → Option Text) (u : Token) : List Patch :=
  .keep (u.lead.flatMap (·.text)) :: ((comments u).map Patch.put).toList ++ [.keep u.text]

variable {comments : Token → Option Text}

theorem flatMap_old_patches (ts : List Token) (trailing : Text) :
    (ts.flatMap (patches comments) ++ [Patch.keep trailing]).flatMap Patch.old =
      ts.flatMap Token.source ++ trailing := by
  induction ts with
  | nil => simp [Patch.old]
  | cons u ts ih =>
    rw [List.flatMap_cons, List.append_assoc, List.flatMap_append, ih, List.flatMap_cons,
      List.append_assoc]
    congr 1
    cases h : comments u <;> simp [patches, h, Patch.old, Token.source]

theorem flatMap_new_patches (ts : List Token) (trailing : Text) :
    (ts.flatMap (patches comments) ++ [Patch.keep trailing]).flatMap Patch.new =
      (ts.map fun u => u.document (comments u)).flatMap Token.source ++ trailing := by
  induction ts with
  | nil => simp [Patch.new]
  | cons u ts ih =>
    rw [List.flatMap_cons, List.append_assoc, List.flatMap_append, ih, List.map_cons,
      List.flatMap_cons, List.append_assoc, Token.source_document]
    congr 1
    cases h : comments u <;> simp [patches, h, Patch.new]

theorem edits_patches {origin : Nat} {ts : List Token} (h : Token.place origin ts = ts)
    (trailing : Text) :
    Patch.edits origin (ts.flatMap (patches comments) ++ [.keep trailing]) =
      ts.filterMap fun u => (comments u).map (.insert u.start) := by
  induction ts generalizing origin with
  | nil => rfl
  | cons u ts ih =>
    simp only [Token.place, List.cons.injEq] at h
    obtain rfl : u.origin = origin := by rw [← h.1]
    have ih := ih h.2
    rw [Token.size_source, ← Nat.add_assoc, sizeOfLexemes] at ih
    rw [List.flatMap_cons, List.append_assoc, List.filterMap_cons, patches]
    cases hc : comments u with
    | none => simpa [Patch.edits] using ih
    | some x =>
      simp only [Option.map_some, Option.toList_some, List.cons_append, List.nil_append,
        Patch.edits, ih]
      rfl

/-- The edits of the plan put the comments before the tokens. -/
theorem perm_edits (t : Templates) (path source : Text) (trailing : Text) :
    (edits t (SourceFile.read path source)).Perm (Patch.edits 0
      ((Token.scan source).flatMap (patches (inserted? t source)) ++ [.keep trailing])) := by
  rw [edits_patches (Token.place_scan source), edits_read]
  have hleft : ((Site.firstOfEach (openSites t source)).filterMap
      (insertion? source (newlineOf source))).Nodup := by
    refine (Site.pairwise_firstOfEach _).filterMap _ fun r s hrs e he f hf hef => hrs ?_
    obtain ⟨_, -, rfl⟩ := Option.map_eq_some_iff.1 he
    obtain ⟨_, -, rfl⟩ := Option.map_eq_some_iff.1 hf
    exact (Edit.insert.inj hef).1
  have hright : ((Token.scan source).filterMap fun u =>
      (inserted? t source u).map (Edit.insert u.start)).Nodup := by
    refine (Token.pairwise_start_scan source).filterMap _ fun u v huv e he f hf hef => ?_
    refine absurd ?_ (Nat.ne_of_lt huv)
    obtain ⟨_, -, rfl⟩ := Option.map_eq_some_iff.1 he
    obtain ⟨_, -, rfl⟩ := Option.map_eq_some_iff.1 hf
    exact (Edit.insert.inj hef).1
  refine (List.perm_ext_iff_of_nodup hleft hright).2 fun e => ?_
  rw [List.mem_filterMap, List.mem_filterMap]
  constructor
  · rintro ⟨s, hs, he⟩
    obtain ⟨c, hc, rfl⟩ := Option.map_eq_some_iff.1 he
    have hfind := Site.mem_firstOfEach.1 hs
    obtain ⟨m, hm, -, hms, -⟩ := exists_mark_of_mem_ofSource
      (List.mem_filter.1 (List.mem_of_find?_eq_some hfind)).1
    refine ⟨m.token, token_mem_scan hm, ?_⟩
    rw [inserted?, ← hms, hfind, Option.bind_some, hc]
    rfl
  · rintro ⟨u, hu, he⟩
    obtain ⟨x, hx, rfl⟩ := Option.map_eq_some_iff.1 he
    obtain ⟨s, hs, c, hc, hstart, rfl, -⟩ := inserted?_eq_some hu hx
    refine ⟨s, hs, ?_⟩
    rw [insertion?, hc, hstart]
    rfl

theorem pairwise_start_patches (source trailing : Text) :
    (Patch.edits 0 ((Token.scan source).flatMap (patches comments) ++ [.keep trailing])).Pairwise
      fun e f => e.start < f.start := by
  rw [edits_patches (Token.place_scan source)]
  refine (Token.pairwise_start_scan source).filterMap _ fun u v huv e he f hf => ?_
  obtain ⟨_, -, rfl⟩ := Option.map_eq_some_iff.1 he
  obtain ⟨_, -, rfl⟩ := Option.map_eq_some_iff.1 hf
  exact huv

private theorem rel_find? {α β : Type} {R : α → β → Prop} {p : α → Bool} {q : β → Bool}
    {as : List α} {bs : List β} (h : List.Forall₂ R as bs) (hpq : ∀ a b, R a b → p a = q b) :
    Option.Rel R (as.find? p) (bs.find? q) := by
  induction h with
  | nil => exact .none
  | cons hab _ ih =>
    rw [List.find?_cons, List.find?_cons, hpq _ _ hab]
    split
    · exact .some hab
    · exact ih

/-- What the comments put before tokens change: the blanks and comments before them. -/
theorem exists_map_scan {t : Templates} {source : Text} (hstray : Lexeme.noneStrays source)
    (h : ∀ s ∈ Site.ofSource t source, ∀ c ∈ s.comment?,
      Comment.isBlockComment (Comment.trimSpaces c)) :
    ∃ source' g, KeepsLexeme g ∧ Token.scan source' = (Token.scan source).map g ∧
      (∀ u ∈ Token.scan source, (g u).lead = (u.document (inserted? t source u)).lead) ∧
      ∀ path, Edit.applyAll source (edits t (SourceFile.read path source)) = .ok source' := by
  obtain ⟨trailing, htrivia, hlex, hproper, -⟩ := Token.scan_spec source
  have hins := insertable hstray h
  have hreads := Lexeme.reads_scan source
  have hsource := Lexeme.flatMap_text_scan source
  rw [hlex] at hreads
  rw [hlex, List.flatMap_append, Token.flatMap_flatMap_text] at hsource
  have hreads' := Token.reads_document hins hproper hreads
  have hproper' : ∀ u ∈ (Token.scan source).map fun u => u.document (inserted? t source u),
      u.IsProper := by
    intro u hu
    obtain ⟨v, hv, rfl⟩ := List.mem_map.1 hu
    obtain ⟨r, hr⟩ := Token.exists_reads_lead hv
    exact (Token.document_spec (hproper v hv)
      (fun x hx => ⟨hins.standalone v hv x hx, hins.uncommented v hv x hx⟩) hr).1
  have hscan := Token.scan_of_reads hproper' htrivia hreads'
  have hplace := List.forall₂_map_left_iff.1 (Token.forall₂_place 0
    ((Token.scan source).map fun u => u.document (inserted? t source u)))
  obtain ⟨g, hg, hgs, hlead⟩ := exists_keepsLexeme hplace (Token.nodup_scan source)
    fun u v huv => by rw [huv.2, Token.lexeme_document]
  refine ⟨_, g, hg, hscan.trans hgs, fun u hu => (hlead u hu).1, fun path => ?_⟩
  have happly := Patch.applyAll_edits (perm_edits t path source (trailing.flatMap (·.text)))
    (pairwise_start_patches source _)
  rw [flatMap_old_patches, flatMap_new_patches, hsource] at happly
  exact happly

section

variable {t : Templates} {source source' : Text} {g : Token → Token}
  (hstray : Lexeme.noneStrays source)
  (h : ∀ s ∈ Site.ofSource t source, ∀ c ∈ s.comment?,
    Comment.isBlockComment (Comment.trimSpaces c))
  (hs : Token.scan source' = (Token.scan source).map g)
  (hlead : ∀ u ∈ Token.scan source, (g u).lead = (u.document (inserted? t source u)).lead)

include hs in
private theorem eq_of_start_map {u v : Token} (hu : u ∈ Token.scan source)
    (hv : v ∈ Token.scan source)
    (huv : (g u).start = (g v).start) : u = v := by
  have hmem {w : Token} (hw : w ∈ Token.scan source) : g w ∈ Token.scan source' := by
    rw [hs]
    exact List.mem_map_of_mem hw
  have hn := Token.nodup_scan source'
  rw [hs] at hn
  exact List.inj_on_of_nodup_map hn hu hv (Token.eq_of_start_eq (hmem hu) (hmem hv) huv)

include hlead in
private theorem keepsInner_of_inserted : KeepsInner g ((Tree.scan source).marks []) := by
  intro m hm hh
  have hu := token_mem_scan hm
  rw [hlead _ hu]
  cases hx : inserted? t source m.token with
  | none => rfl
  | some x =>
    obtain ⟨-, -, -, -, -, -, n, hn, hnh, hnm, -⟩ := inserted?_eq_some hu hx
    have hnodup := Token.nodup_scan source
    rw [← Tree.tokens_scan] at hnodup
    rw [Tree.eq_of_mem_marks hnodup hn hm hnm, hh] at hnh
    cases hnh

include hstray h hlead in
/-- A token without a comment afterwards got none and had none. -/
theorem inserted?_eq_none {u : Token} (hu : u ∈ Token.scan source)
    (hc : (g u).preceding.isComment = false) :
    inserted? t source u = none ∧ u.preceding.isComment = false := by
  obtain ⟨-, -, -, hproper, -⟩ := Token.scan_spec source
  have hins := insertable hstray h
  obtain ⟨r, hr⟩ := Token.exists_reads_lead hu
  have hspec := Token.document_spec (hproper u hu)
    (fun x hx => ⟨hins.standalone u hu x hx, hins.uncommented u hu x hx⟩) hr
  rw [Token.preceding, hlead u hu] at hc
  cases hx : inserted? t source u with
  | some x => simp [hspec.2 (by simp [hx])] at hc
  | none =>
    rw [hx, Token.document, Token.isComment_lastComment rfl _ _ u.origin] at hc
    exact ⟨rfl, hc⟩

include hstray h hs hlead in
/-- A source whose plan has been carried out has an empty plan. -/
theorem edits_eq_nil (hg : KeepsLexeme g) (path : Text) :
    edits t (SourceFile.read path source') = [] := by
  have hall := Site.forall₂_ofSource t hg hs (keepsInner_of_inserted hlead)
  rw [edits_read, List.filterMap_eq_nil_iff]
  intro s' hs'
  have hfind := Site.mem_firstOfEach.1 hs'
  have hopen := List.mem_filter.1 (List.mem_of_find?_eq_some hfind)
  obtain ⟨s, m, hm, -, hms, -, hms', hmc', -⟩ := exists_of_mem_left hall.flip hopen.1
  have hc' : (g m.token).preceding.isComment = false := by
    rw [← hmc']
    simpa using hopen.2
  obtain ⟨hx, hc⟩ := inserted?_eq_none hstray h hlead (token_mem_scan hm) hc'
  -- the first site of the token afterwards stands where the first one stood before
  have hrel := rel_find? (p := fun r => !r.commented ∧ r.start == m.token.start)
    (q := fun r => !r.commented ∧ r.start == s'.start) hall ?_
  · rw [openSites, List.find?_filter] at hfind
    rw [hfind] at hrel
    cases hf : (Site.ofSource t source).find? fun r => !r.commented ∧ r.start == m.token.start with
    | none => rw [hf] at hrel; cases hrel
    | some r =>
      rw [hf] at hrel
      obtain ⟨-, -, -, -, -, -, -, hcomment⟩ := Option.rel_some_some.1 hrel
      rw [inserted?, openSites, List.find?_filter, hf, Option.bind_some,
        Option.map_eq_none_iff] at hx
      rw [insertion?, hcomment, hx, Option.map_none]
  · rintro r r' ⟨n, hn, -, hns, hnc, hns', hnc', -⟩
    rw [hns, hnc, hns', hnc', hms', decide_eq_decide]
    simp only [Bool.not_eq_true', beq_iff_eq]
    constructor
    · rintro ⟨-, hstart⟩
      rw [Token.eq_of_start_eq (token_mem_scan hn) (token_mem_scan hm) hstart]
      exact ⟨hc', rfl⟩
    · rintro ⟨-, hstart⟩
      rw [eq_of_start_map hs (token_mem_scan hn) (token_mem_scan hm) hstart]
      exact ⟨hc, rfl⟩

end

/-- A second pass over a document finds nothing to do, if every comment of the configuration is,
up to spaces around it, one block comment. -/
theorem complete_complete (t : Templates) (d : Document) (hstray : Lexeme.noneStrays d.text)
    (h : ∀ s ∈ (SourceFile.read d.path d.text).classes.flatMap (Site.ofClass t),
      ∀ comment ∈ s.comment?, Comment.isBlockComment (Comment.trimSpaces comment)) :
    ∃ n text, d.complete t = .ok (n, { d with text }) ∧
      Document.complete t { d with text } = .ok (0, { d with text }) := by
  rw [Site.flatMap_ofClass] at h
  obtain ⟨text, g, hg, hs, hlead, happly⟩ := exists_map_scan hstray h
  refine ⟨(edits t (SourceFile.read d.path d.text)).length, text, ?_, ?_⟩
  · rw [Document.complete, Document.commit, happly]
  · rw [Document.complete, edits_eq_nil hstray h hs hlead hg, Document.commit, Edit.applyAll_nil]
    rfl

/-- Two names of one field and a constructor, all without comments. -/
theorem complete_complete_standard :
    Lexeme.noneStrays "class A { int a, b; A(int a) { this.a = a; } }".toList ∧
    (∀ s ∈ (SourceFile.read "A.java".toList
        "class A { int a, b; A(int a) { this.a = a; } }".toList).classes.flatMap
          (Site.ofClass .standard),
      ∀ comment ∈ s.comment?, Comment.isBlockComment (Comment.trimSpaces comment)) ∧
    ∃ n text, Document.complete .standard ⟨"A.java".toList,
        "class A { int a, b; A(int a) { this.a = a; } }".toList⟩ =
          .ok (n, ⟨"A.java".toList, text⟩) ∧
      Document.complete .standard ⟨"A.java".toList, text⟩ = .ok (0, ⟨"A.java".toList, text⟩) := by
  have h : ∀ s ∈ (SourceFile.read "A.java".toList
      "class A { int a, b; A(int a) { this.a = a; } }".toList).classes.flatMap
        (Site.ofClass .standard),
      ∀ comment ∈ s.comment?, Comment.isBlockComment (Comment.trimSpaces comment) := by
    decide +kernel
  have hstray : Lexeme.noneStrays "class A { int a, b; A(int a) { this.a = a; } }".toList := by
    decide +kernel
  exact ⟨hstray, h, complete_complete .standard ⟨"A.java".toList, _⟩ hstray h⟩

/-- A blank that is no space keeps a comment from the declaration behind it, so that the next pass
puts one there again. -/
theorem exists_complete_complete_ne :
    let t : Templates := { classes := some "/** x */\u00a0".toList }
    let d : Document := ⟨"A.java".toList, "class A { }".toList⟩
    ∃ d₁ d₂, (∀ s ∈ (SourceFile.read d.path d.text).classes.flatMap (Site.ofClass t),
        ∀ comment ∈ s.comment?, Comment.isBlockComment (Text.trim comment)) ∧
      d.complete t = .ok (1, d₁) ∧ d₁.complete t = .ok (1, d₂) := by
  refine ⟨⟨"A.java".toList, "/** x */\u00a0\nclass A { }".toList⟩,
    ⟨"A.java".toList, "/** x */\u00a0\n/** x */\u00a0\nclass A { }".toList⟩, ?_, ?_, ?_⟩
  · decide +kernel
  · decide +kernel
  · decide +kernel

end Plan
end Javadoc
