import Javadoc.Java.Token
import Javadoc.Proofs.Java.Reading
import Mathlib.Data.List.Nodup

/-! The tokens of a text hold all its lexemes but the blanks and comments at its end, and their
places follow from what they hold. -/
namespace Javadoc.Java.Token

def lexemes (t : Token) : List Lexeme := t.lead ++ [t.lexeme]

def IsProper (t : Token) : Prop := (∀ l ∈ t.lead, l.isTrivia) ∧ t.lexeme.isTrivia = false

def place (origin : Nat) : List Token → List Token
  | [] => []
  | t :: ts => { t with origin } :: place (origin + Text.size t.source) ts

private theorem flatMap_text_lexemes (t : Token) : t.lexemes.flatMap (·.text) = t.source := by
  simp [lexemes, source, text]

theorem flatMap_flatMap_text (ts : List Token) :
    (ts.flatMap lexemes).flatMap (·.text) = ts.flatMap source := by
  induction ts with
  | nil => rfl
  | cons t ts ih => simp only [List.flatMap_cons, List.flatMap_append, flatMap_text_lexemes, ih]

theorem size_source (t : Token) : Text.size t.source = sizeOfLexemes t.lead + Text.size t.text :=
  Text.size_append _ _

private theorem place_append (origin : Nat) (ts us : List Token) :
    place origin (ts ++ us) =
      place origin ts ++ place (origin + Text.size (ts.flatMap source)) us := by
  induction ts generalizing origin with
  | nil => rfl
  | cons t ts ih =>
    simp only [List.cons_append, place, List.flatMap_cons, ih, Text.size_append, Nat.add_assoc]

private theorem length_place (origin : Nat) (ts : List Token) :
    (place origin ts).length = ts.length := by
  induction ts generalizing origin with
  | nil => rfl
  | cons t ts ih => simp [place, ih]

theorem size_lead (t : Token) : Text.size (t.lead.flatMap (·.text)) = sizeOfLexemes t.lead := rfl

theorem place_append_eq {origin : Nat} {ts us : List Token} (h : place origin (ts ++ us) = ts ++ us) :
    place origin ts = ts ∧ place (origin + Text.size (ts.flatMap source)) us = us := by
  rw [place_append] at h
  exact List.append_inj h (length_place origin ts)

theorem origin_eq {origin : Nat} {t : Token} (h : place origin [t] = [t]) :
    t.origin = origin := by
  simp only [place, List.cons.injEq] at h
  rw [← h.1]

private theorem ofLexemes_trivia {ls : List Lexeme} (h : ∀ l ∈ ls, l.isTrivia) (origin : Nat)
    (lead rest : List Lexeme) :
    ofLexemes origin lead (ls ++ rest) = ofLexemes origin (lead ++ ls) rest := by
  induction ls generalizing lead with
  | nil => simp
  | cons l ls ih =>
    rw [List.cons_append, ofLexemes, if_pos (h l List.mem_cons_self),
      ih fun m hm => h m (List.mem_cons_of_mem _ hm)]
    simp

/-- The lexemes of proper tokens make these tokens, each in its place. -/
theorem ofLexemes_flatMap {ts : List Token} (h : ∀ t ∈ ts, t.IsProper) {trailing : List Lexeme}
    (ht : ∀ l ∈ trailing, l.isTrivia) (origin : Nat) :
    ofLexemes origin [] (ts.flatMap lexemes ++ trailing) = place origin ts := by
  induction ts generalizing origin with
  | nil =>
    have := ofLexemes_trivia ht origin [] []
    simpa [ofLexemes, place] using this
  | cons t ts ih =>
    obtain ⟨hl, hx⟩ := h t List.mem_cons_self
    rw [List.flatMap_cons, lexemes, List.append_assoc, List.append_assoc, ofLexemes_trivia hl,
      List.nil_append, List.cons_append, List.nil_append, ofLexemes, if_neg (by simp [hx]),
      ih fun u hu => h u (List.mem_cons_of_mem _ hu), place, size_source, Nat.add_assoc]
    rfl

private theorem ofLexemes_spec (ls lead : List Lexeme) (hl : ∀ l ∈ lead, l.isTrivia)
    (origin : Nat) :
    ∃ trailing, (∀ l ∈ trailing, l.isTrivia) ∧
      lead ++ ls = (ofLexemes origin lead ls).flatMap lexemes ++ trailing ∧
      (∀ t ∈ ofLexemes origin lead ls, t.IsProper) ∧
      place origin (ofLexemes origin lead ls) = ofLexemes origin lead ls := by
  induction ls generalizing lead origin with
  | nil => exact ⟨lead, hl, by simp [ofLexemes], by simp [ofLexemes], rfl⟩
  | cons l ls ih =>
    rw [ofLexemes]
    split
    · next ht =>
      have hl' : ∀ m ∈ lead ++ [l], m.isTrivia := by
        intro m hm
        rcases List.mem_append.1 hm with hm | hm
        · exact hl m hm
        · rw [List.mem_singleton.1 hm]
          exact ht
      obtain ⟨trailing, h₁, h₂, h₃⟩ := ih (lead ++ [l]) hl' origin
      exact ⟨trailing, h₁, by rw [← h₂]; simp, h₃⟩
    · next ht =>
      obtain ⟨trailing, h₁, h₂, h₃, h₄⟩ :=
        ih [] (by simp) (origin + sizeOfLexemes lead + Text.size l.text)
      refine ⟨trailing, h₁, ?_, ?_, ?_⟩
      · rw [List.flatMap_cons, List.append_assoc, ← h₂]
        simp [lexemes]
      · intro t hm
        rcases List.mem_cons.1 hm with rfl | hm
        · exact ⟨hl, by simpa using ht⟩
        · exact h₃ t hm
      · simp only [place, size_source, text, ← Nat.add_assoc]
        rw [h₄]

/-- What the tokens of a text are: proper, in their places, and with the lexemes of the text up to
the blanks and comments at its end. -/
theorem scan_spec (t : Text) :
    ∃ trailing, (∀ l ∈ trailing, l.isTrivia) ∧
      Lexeme.scan t = (scan t).flatMap lexemes ++ trailing ∧ (∀ u ∈ scan t, u.IsProper) ∧
      place 0 (scan t) = scan t :=
  ofLexemes_spec (Lexeme.scan t) [] (by simp) 0

/-- The text that proper tokens stand for has these tokens, if its lexemes are read as such. -/
theorem scan_of_reads {ts : List Token} (h : ∀ t ∈ ts, t.IsProper) {trailing : List Lexeme}
    (ht : ∀ l ∈ trailing, l.isTrivia) (hr : Lexeme.Reads (ts.flatMap lexemes ++ trailing) []) :
    scan (ts.flatMap source ++ trailing.flatMap (·.text)) = place 0 ts := by
  have hs := Lexeme.scan_of_reads hr
  rw [List.append_nil, List.flatMap_append, flatMap_flatMap_text] at hs
  rw [scan, hs]
  simpa [Lexeme.scan, Lexeme.scanFrom] using ofLexemes_flatMap h ht 0

private theorem origin_le_of_place {origin : Nat} {ts : List Token} (h : place origin ts = ts) :
    ∀ t ∈ ts, origin ≤ t.origin := by
  induction ts generalizing origin with
  | nil => simp
  | cons t ts ih =>
    simp only [place, List.cons.injEq] at h
    intro u hu
    rcases List.mem_cons.1 hu with rfl | hu
    · rw [← h.1]
    · have := ih h.2 u hu
      omega

/-- Tokens that are in their places start one after the other. -/
theorem pairwise_start {origin : Nat} {ts : List Token} (h : place origin ts = ts)
    (hn : ∀ t ∈ ts, t.text ≠ []) : ts.Pairwise fun s t => s.stop ≤ t.origin ∧ s.start < t.start := by
  induction ts generalizing origin with
  | nil => exact .nil
  | cons t ts ih =>
    simp only [place, List.cons.injEq] at h
    refine .cons (fun u hu => ?_) (ih h.2 fun u hu => hn u (List.mem_cons_of_mem _ hu))
    have ho := origin_le_of_place h.2 u hu
    have hto : t.origin = origin := by rw [← h.1]
    obtain ⟨c, cs, hc⟩ := List.exists_cons_of_ne_nil (hn t List.mem_cons_self)
    have hpos : 0 < Text.size t.text := by
      rw [hc, Text.size]
      have := Char.utf8Size_pos c
      omega
    rw [size_source] at ho
    simp only [stop, start]
    omega

private theorem nodup_of_place {origin : Nat} {ts : List Token} (h : place origin ts = ts)
    (hn : ∀ t ∈ ts, t.text ≠ []) : ts.Nodup :=
  (pairwise_start h hn).imp fun hs he => by simp [he] at hs

theorem place_scan (source : Text) : place 0 (scan source) = scan source := by
  obtain ⟨-, -, -, -, h⟩ := scan_spec source
  exact h

/-- A source is its tokens, with what stands before them, and blanks and comments behind them. -/
theorem exists_trailing (source : Text) :
    ∃ trailing, (scan source).flatMap Token.source ++ trailing = source := by
  obtain ⟨trailing, -, hlex, -, -⟩ := scan_spec source
  have hsource := Lexeme.flatMap_text_scan source
  rw [hlex, List.flatMap_append, flatMap_flatMap_text] at hsource
  exact ⟨_, hsource⟩

/-- A token starts behind the tokens before it, and behind what stands between them and it. -/
theorem start_eq {source : Text} {as bs : List Token} {t : Token} (h : scan source = as ++ t :: bs) :
    t.start = Text.size (as.flatMap Token.source ++ t.lead.flatMap (·.text)) := by
  have hplace := place_scan source
  rw [h, List.append_cons] at hplace
  have horigin := origin_eq (place_append_eq (place_append_eq hplace).1).2
  rw [start, horigin, Text.size_append, size_lead, Nat.zero_add]

/-- What stands before a token, and after the place where it starts. -/
theorem exists_behind {source : Text} {as bs : List Token} {t : Token}
    (h : scan source = as ++ t :: bs) :
    ∃ behind, source = (as.flatMap Token.source ++ t.lead.flatMap (·.text)) ++ (t.text ++ behind) := by
  obtain ⟨trailing, hsource⟩ := exists_trailing source
  refine ⟨bs.flatMap Token.source ++ trailing, ?_⟩
  conv_lhs => rw [← hsource, h]
  simp [Token.source]

theorem text_ne_nil_of_mem_scan {source : Text} {t : Token} (h : t ∈ scan source) :
    t.text ≠ [] := by
  obtain ⟨trailing, -, hs, -, -⟩ := scan_spec source
  have hr := Lexeme.reads_scan source
  rw [hs] at hr
  refine hr.text_ne_nil t.lexeme (List.mem_append_left _ (List.mem_flatMap.2 ⟨t, h, ?_⟩))
  simp [lexemes]

theorem exists_reads_lexemes {source : Text} {t : Token} (h : t ∈ scan source) :
    ∃ r, Lexeme.Reads t.lexemes r := by
  obtain ⟨trailing, -, hs, -, -⟩ := scan_spec source
  have hr := Lexeme.reads_scan source
  obtain ⟨ts, us, htu⟩ := List.append_of_mem h
  rw [hs, htu, List.flatMap_append, List.flatMap_cons, List.append_assoc, List.append_assoc] at hr
  exact ⟨_, (Lexeme.reads_append.1 (Lexeme.reads_append.1 hr).2).1⟩

theorem exists_reads_lead {source : Text} {t : Token} (h : t ∈ scan source) :
    ∃ r, Lexeme.Reads t.lead r := by
  obtain ⟨r, hr⟩ := exists_reads_lexemes h
  exact ⟨_, (Lexeme.reads_append.1 hr).1⟩

/-- A block comment before a token ends at its closing delimiter. -/
theorem closed_of_mem_lead {source : Text} {t : Token} (h : t ∈ scan source) {l : Lexeme}
    (hl : l ∈ t.lead) (hk : l.kind = .blockComment) : l.Closed := by
  obtain ⟨r, hr⟩ := exists_reads_lexemes h
  obtain ⟨ls, ms, hls⟩ := List.append_of_mem hl
  rw [lexemes, hls, List.append_assoc] at hr
  refine Lexeme.closed_of_before (Lexeme.reads_append.1 hr).2.1 hk fun he => ?_
  have hn := text_ne_nil_of_mem_scan h
  simp_all [text]

theorem infix_of_mem_lexemes {source : Text} {t : Token} (h : t ∈ scan source) {l : Lexeme}
    (hl : l ∈ t.lexemes) : l.text <:+: source := by
  obtain ⟨trailing, -, hs, -, -⟩ := scan_spec source
  have hm : l ∈ Lexeme.scan source := by
    rw [hs]
    exact List.mem_append_left _ (List.mem_flatMap.2 ⟨t, h, hl⟩)
  obtain ⟨ls, ms, hls⟩ := List.append_of_mem hm
  refine ⟨ls.flatMap (·.text), ms.flatMap (·.text), ?_⟩
  have ht := Lexeme.flatMap_text_scan source
  rw [hls] at ht
  simpa using ht

/-- Placing tokens changes their origins alone. -/
theorem forall₂_place_right {R : Token → Token → Prop}
    (hR : ∀ t u origin, R t u → R t { u with origin }) {ts us : List Token}
    (h : List.Forall₂ R ts us) (origin : Nat) : List.Forall₂ R ts (place origin us) := by
  induction h generalizing origin with
  | nil => exact .nil
  | cons ht _ ih => exact .cons (hR _ _ _ ht) (ih _)

theorem forall₂_place (origin : Nat) (ts : List Token) :
    List.Forall₂ (fun t u => u.lead = t.lead ∧ u.lexeme = t.lexeme) ts (place origin ts) :=
  forall₂_place_right (fun _ _ _ h => h) (List.forall₂_same.2 fun _ _ => ⟨rfl, rfl⟩) origin

theorem nodup_scan (source : Text) : (scan source).Nodup :=
  nodup_of_place (place_scan source) fun _ => text_ne_nil_of_mem_scan

theorem pairwise_start_scan (source : Text) : (scan source).Pairwise fun t u => t.start < u.start :=
  (pairwise_start (place_scan source) fun _ => text_ne_nil_of_mem_scan).imp And.right

theorem eq_of_start_eq {source : Text} {t u : Token} (ht : t ∈ scan source) (hu : u ∈ scan source)
    (h : t.start = u.start) : t = u := by
  have hn : ((scan source).map start).Nodup :=
    List.pairwise_map.2 ((pairwise_start_scan source).imp Nat.ne_of_lt)
  exact List.inj_on_of_nodup_map hn ht hu h

theorem lastComment_append (found : Preceding) (at_ : Nat) (as bs : List Lexeme) :
    lastComment found at_ (as ++ bs) =
      lastComment (lastComment found at_ as) (at_ + sizeOfLexemes as) bs := by
  induction as generalizing found at_ with
  | nil => rfl
  | cons a as ih =>
    rw [List.cons_append, lastComment, lastComment, ih]
    simp only [sizeOfLexemes, List.flatMap_cons, Text.size_append, Nat.add_assoc]

/-- Behind blanks alone, what was found is found still. -/
theorem lastComment_of_blank {bs : List Lexeme} (h : ∀ b ∈ bs, b.isTrivia → b.kind = .blank)
    (found : Preceding) (at_ : Nat) : lastComment found at_ bs = found := by
  induction bs generalizing found at_ with
  | nil => rfl
  | cons b bs ih =>
    rw [List.forall_mem_cons] at h
    rw [lastComment, ih h.2]
    have hb := h.1
    cases hk : b.kind <;> simp_all [Lexeme.isTrivia]

/-- Where blanks and comments stand does not matter for whether a comment is found among them. -/
theorem isComment_lastComment {found found' : Preceding}
    (hf : found.isComment = found'.isComment) (ls : List Lexeme) (at_ at' : Nat) :
    (lastComment found at_ ls).isComment = (lastComment found' at' ls).isComment := by
  induction ls generalizing found found' at_ at' with
  | nil => exact hf
  | cons l ls ih =>
    rw [lastComment, lastComment]
    refine ih ?_ _ _
    cases l.kind with
    | blockComment => dsimp only; split <;> rfl
    | lineComment | stray => rfl
    | _ => exact hf

private theorem lastComment_eq_doc {ls : List Lexeme} {found : Preceding} {at_ : Nat}
    {d : DocComment}
    (h : lastComment found at_ ls = .doc d) :
    (found = .doc d ∧ ∀ b ∈ ls, b.isTrivia → b.kind = .blank) ∨
      ∃ as l bs, ls = as ++ l :: bs ∧ l.kind = .blockComment ∧ Comment.docStart <+: l.text ∧
        d = ⟨l.text, at_ + sizeOfLexemes as, at_ + sizeOfLexemes as + Text.size l.text⟩ ∧
        ∀ b ∈ bs, b.isTrivia → b.kind = .blank := by
  induction ls generalizing found at_ with
  | nil => exact .inl ⟨h, by simp⟩
  | cons l ls ih =>
    rw [lastComment] at h
    rcases ih h with ⟨hf, hls⟩ | ⟨as, m, bs, rfl, hk, hp, rfl, hbs⟩
    · cases hk : l.kind with
      | blockComment =>
        right
        simp only [hk] at hf
        split at hf
        · next hp =>
          cases hf
          exact ⟨[], l, ls, rfl, hk, List.isPrefixOf_iff_prefix.1 hp, rfl, hls⟩
        · cases hf
      | lineComment | stray => simp [hk] at hf
      | _ =>
        left
        rw [hk] at hf
        exact ⟨hf, List.forall_mem_cons.2 ⟨by simp [Lexeme.isTrivia, hk], hls⟩⟩
    · refine .inr ⟨l :: as, m, bs, rfl, hk, hp, ?_, hbs⟩
      simp [sizeOfLexemes, Text.size_append, Nat.add_assoc]

/-- The documentation comment before a token is the last comment among its blanks and comments, and
only blanks stand behind it. -/
theorem exists_doc {t : Token} {d : DocComment} (h : t.preceding.doc? = some d) :
    ∃ as l bs, t.lead = as ++ l :: bs ∧ l.kind = .blockComment ∧ Comment.docStart <+: l.text ∧
      d = ⟨l.text, t.origin + sizeOfLexemes as,
        t.origin + sizeOfLexemes as + Text.size l.text⟩ ∧
      ∀ b ∈ bs, b.isTrivia → b.kind = .blank := by
  have hd : lastComment .nothing t.origin t.lead = .doc d := by
    cases hp : t.preceding with
    | nothing => simp [hp, Preceding.doc?] at h
    | remark => simp [hp, Preceding.doc?] at h
    | doc e =>
      rw [hp] at h
      cases h
      exact hp
  rcases lastComment_eq_doc hd with ⟨hf, -⟩ | hd
  · cases hf
  · exact hd

/-- A documentation comment stands before its token. -/
theorem doc_bounds {t : Token} {d : DocComment} (hd : t.preceding.doc? = some d) :
    t.origin ≤ d.start ∧ d.start < d.stop ∧ d.stop ≤ t.start := by
  obtain ⟨as, l, bs, hl, -, hp, rfl, -⟩ := exists_doc hd
  have hpos : 0 < Text.size l.text := by
    obtain ⟨r, hr⟩ := hp
    rw [← hr, Text.size_append]
    exact Nat.lt_of_lt_of_le (by decide) (Nat.le_add_right (Text.size Comment.docStart) _)
  have hsize : sizeOfLexemes t.lead =
      sizeOfLexemes as + (Text.size l.text + sizeOfLexemes bs) := by
    simp [hl, sizeOfLexemes, Text.size_append]
  simp only [start]
  omega

/-- Documentation comments that start at one byte precede one token. -/
theorem eq_of_doc_start_eq {source : Text} {t u : Token} (ht : t ∈ scan source)
    (hu : u ∈ scan source) {d e : DocComment} (hd : t.preceding.doc? = some d)
    (he : u.preceding.doc? = some e) (h : d.start = e.start) : t = u := by
  have hd := doc_bounds hd
  have he := doc_bounds he
  have hstop (t : Token) : t.start ≤ t.stop := Nat.le_add_right _ _
  have ht' := hstop t
  have hu' := hstop u
  by_contra hne
  have hpair := (pairwise_start (place_scan source) fun _ => text_ne_nil_of_mem_scan).imp And.left
  have hpair := List.pairwise_iff_getElem.1 hpair
  obtain ⟨i, hi, rfl⟩ := List.getElem_of_mem ht
  obtain ⟨j, hj, rfl⟩ := List.getElem_of_mem hu
  rcases Nat.lt_trichotomy i j with hij | rfl | hij
  · have := hpair i j hi hj hij
    omega
  · exact hne rfl
  · have := hpair j i hj hi hij
    omega

/-- Tokens change one by one, and distinct tokens by a function. -/
theorem exists_map_of_forall₂ {R : Token → Token → Prop} {ts us : List Token}
    (h : List.Forall₂ R ts us) (hn : ts.Nodup) {P : Token → Token → Prop} (hP : ∀ t, P t t)
    (hR : ∀ s t, R s t → P s t) :
    ∃ g : Token → Token, (∀ t, P t (g t)) ∧ us = ts.map g ∧ ∀ t ∈ ts, R t (g t) := by
  induction h with
  | nil => exact ⟨id, hP, rfl, by simp⟩
  | @cons t u ts us ht hts ih =>
    obtain ⟨hnt, hn⟩ := List.nodup_cons.1 hn
    obtain ⟨g, hg, rfl, hgR⟩ := ih hn
    refine ⟨fun s => if s = t then u else g s, fun s => ?_, ?_, fun s hs => ?_⟩
    · dsimp only
      split
      · next hs => exact hs ▸ hR t u ht
      · exact hg s
    · rw [List.map_cons, if_pos rfl]
      congr 1
      refine List.map_congr_left fun s hs => ?_
      rw [if_neg]
      rintro rfl
      exact hnt hs
    · dsimp only
      split
      · next he => exact he ▸ ht
      · next he => exact hgR s ((List.mem_cons.1 hs).resolve_left he)

end Javadoc.Java.Token
