import Javadoc.Proofs.Java.Nodes
import Javadoc.Proofs.Splice

/-! Exchanging documentation comments for other ones. The edits that do it always apply, and the
text that they make reads as before, with the other comments before the same tokens. -/
namespace Javadoc

private theorem Edit.find?_start {es : List Edit} (h : es.Pairwise fun e f => e.start ≠ f.start)
    {e : Edit}
    (he : e ∈ es) : es.find? (fun f => f.start == e.start) = some e := by
  induction h with
  | nil => cases he
  | @cons f es hf _ ih =>
    rcases List.mem_cons.1 he with rfl | he
    · simp
    · rw [List.find?_cons, beq_eq_false_iff_ne.2 (hf e he)]
      exact ih he

namespace Java

def IsDocText (x : Text) : Prop :=
  (⟨.blockComment, x⟩ : Lexeme).Closed ∧ Comment.docStart <+: x

private theorem Lexeme.Exchange.kind {l m : Lexeme} (h : l.Exchange m) : m.kind = l.kind := by
  rcases h with rfl | ⟨hl, hm⟩
  · rfl
  · rw [hm.1, hl.1]

private theorem Lexeme.isTrivia_of_exchange {ls ms : List Lexeme} (h : List.Forall₂ Exchange ls ms)
    (hl : ∀ l ∈ ls, l.isTrivia) : ∀ m ∈ ms, m.isTrivia := by
  induction h with
  | nil => exact hl
  | @cons l m ls ms hlm _ ih =>
    rw [List.forall_mem_cons] at hl ⊢
    refine ⟨?_, ih hl.2⟩
    rw [Lexeme.isTrivia, hlm.kind]
    exact hl.1

namespace Token

def docText? (lead : List Lexeme) : Option Text :=
  (lastComment .nothing 0 lead).doc?.map (·.text)

/-- Where blanks and comments stand does not matter for the text of the comment among them. -/
theorem text_lastComment {found found' : Preceding}
    (hf : found.doc?.map (·.text) = found'.doc?.map (·.text)) (ls : List Lexeme)
    (at_ at' : Nat) :
    (lastComment found at_ ls).doc?.map (·.text) = (lastComment found' at' ls).doc?.map (·.text) := by
  induction ls generalizing found found' at_ at' with
  | nil => exact hf
  | cons l ls ih =>
    rw [lastComment, lastComment]
    refine ih ?_ _ _
    cases l.kind with
    | blockComment => dsimp only; split <;> rfl
    | lineComment | stray => rfl
    | _ => exact hf

theorem text_preceding (t : Token) : t.preceding.doc?.map (·.text) = docText? t.lead :=
  text_lastComment rfl t.lead t.origin 0

/-- The documentation comment before a token can be exchanged for another one. -/
theorem exists_exchange {t : Token} (hclosed : ∀ l ∈ t.lead, l.kind = .blockComment → l.Closed)
    {d : DocComment} (hd : t.preceding.doc? = some d) {x : Text} (hx : IsDocText x) :
    ∃ lead before behind, t.lead.flatMap (·.text) = before ++ (d.text ++ behind) ∧
      lead.flatMap (·.text) = before ++ (x ++ behind) ∧ d.start = t.origin + Text.size before ∧
      d.stop = d.start + Text.size d.text ∧ List.Forall₂ Lexeme.Exchange t.lead lead ∧
      docText? lead = some x := by
  obtain ⟨as, l, bs, hl, hk, hstart, rfl, hbs⟩ := exists_doc hd
  refine ⟨as ++ ⟨.blockComment, x⟩ :: bs, as.flatMap (·.text), bs.flatMap (·.text), by simp [hl],
    by simp, rfl, rfl, ?_, ?_⟩
  · rw [hl]
    refine List.rel_append (List.forall₂_same.2 fun _ _ => .inl rfl) (.cons (.inr ⟨?_, hx.1⟩)
      (List.forall₂_same.2 fun _ _ => .inl rfl))
    exact hclosed l (by simp [hl]) hk
  · rw [docText?, lastComment_append, lastComment, lastComment_of_blank hbs]
    simp [List.isPrefixOf_iff_prefix.2 hx.2, Preceding.doc?]

structure Redocumented (comments : Token → Option Text) (t u : Token) : Prop where
  lexeme : u.lexeme = t.lexeme
  lead : List.Forall₂ Lexeme.Exchange t.lead u.lead
  proper : u.IsProper
  same : comments t = none → u.lead = t.lead
  doc : ∀ x ∈ comments t, docText? u.lead = some x

def swap? (comments : Token → Option Text) (t : Token) : Option Edit :=
  (comments t).bind fun x => t.preceding.doc?.map fun d => .replace d.start d.stop x

variable {comments : Token → Option Text}

private theorem exists_patches {origin : Nat} {ts : List Token} (hplace : place origin ts = ts)
    (hproper : ∀ t ∈ ts, t.IsProper)
    (hclosed : ∀ t ∈ ts, ∀ l ∈ t.lead, l.kind = .blockComment → l.Closed)
    (hc : ∀ t ∈ ts, ∀ x ∈ comments t, IsDocText x ∧ t.preceding.doc?.isSome) (trailing : Text) :
    ∃ us ps, List.Forall₂ (Redocumented comments) ts us ∧
      ps.flatMap Patch.old = ts.flatMap source ++ trailing ∧
      ps.flatMap Patch.new = us.flatMap source ++ trailing ∧
      Patch.edits origin ps = ts.filterMap (swap? comments) := by
  induction ts generalizing origin with
  | nil => exact ⟨[], [.keep trailing], .nil, by simp [Patch.old], by simp [Patch.new], rfl⟩
  | cons t ts ih =>
    simp only [place, List.cons.injEq] at hplace
    obtain rfl : t.origin = origin := by rw [← hplace.1]
    have hp := hproper t List.mem_cons_self
    obtain ⟨us, ps, hus, hold, hnew, hedits⟩ := ih hplace.2
      (fun u hu => hproper u (List.mem_cons_of_mem _ hu))
      (fun u hu => hclosed u (List.mem_cons_of_mem _ hu))
      (fun u hu => hc u (List.mem_cons_of_mem _ hu))
    cases hx : comments t with
    | none =>
      refine ⟨t :: us, .keep t.source :: ps, .cons ⟨rfl, List.forall₂_same.2 fun _ _ => .inl rfl,
        hp, fun _ => rfl, by simp [hx]⟩ hus, ?_, ?_, ?_⟩
      · simp [Patch.old, hold]
      · simp [Patch.new, hnew]
      · rw [Patch.edits, hedits, List.filterMap_cons, swap?, hx]
        rfl
    | some x =>
      obtain ⟨hdoc, hsome⟩ := hc t List.mem_cons_self x hx
      obtain ⟨d, hd⟩ := Option.isSome_iff_exists.1 hsome
      obtain ⟨lead, before, behind, hbefore, hafter, hstart, hstop, hex, htext⟩ :=
        exists_exchange (hclosed t List.mem_cons_self) hd hdoc
      refine ⟨{ t with lead } :: us,
        .keep before :: .swap d.text x :: .keep (behind ++ t.text) :: ps,
        .cons ⟨rfl, hex, ⟨Lexeme.isTrivia_of_exchange hex hp.1, hp.2⟩, by simp [hx],
          by simpa [hx] using htext⟩ hus, ?_, ?_, ?_⟩
      · simp [Patch.old, source, hbefore, hold]
      · simp [Patch.new, source, hafter, hnew, text]
      · have hsize : d.stop + Text.size (behind ++ t.text) = t.origin + Text.size t.source := by
          rw [source, hbefore]
          simp only [Text.size_append]
          omega
        rw [Patch.edits, Patch.edits, Patch.edits, ← hstart, ← hstop, hsize, hedits,
          List.filterMap_cons, swap?, hx, hd]
        rfl

end Token

def IsSwap (source : Text) (e : Edit) : Prop :=
  ∃ t ∈ Token.scan source, ∃ d, t.preceding.doc? = some d ∧ ∃ x, e = .replace d.start d.stop x ∧
    IsDocText x

def swapped? (es : List Edit) (t : Token) : Option Text :=
  t.preceding.doc?.bind fun d => (es.find? fun e => e.start == d.start).map Edit.text

section

variable {source : Text} {es : List Edit} (h : ∀ e ∈ es, IsSwap source e)
include h

theorem swapped?_eq_some {t : Token} (ht : t ∈ Token.scan source) {x : Text}
    (hx : swapped? es t = some x) :
    IsDocText x ∧ ∃ d, t.preceding.doc? = some d ∧ .replace d.start d.stop x ∈ es := by
  obtain ⟨d, hd, hfind⟩ := Option.bind_eq_some_iff.1 hx
  obtain ⟨e, he, rfl⟩ := Option.map_eq_some_iff.1 hfind
  have hes := List.mem_of_find?_eq_some he
  have hstart : e.start = d.start := by simpa using List.find?_some he
  obtain ⟨u, hu, d', hd', x, rfl, hdoc⟩ := h e hes
  obtain rfl : u = t := Token.eq_of_doc_start_eq hu ht hd' hd hstart
  obtain rfl : d' = d := Option.some.inj (hd'.symm.trans hd)
  exact ⟨hdoc, d', hd, hes⟩

variable (hn : es.Pairwise fun e f => e.start ≠ f.start)
include hn

private theorem perm_swaps :
    es.Perm ((Token.scan source).filterMap (Token.swap? (swapped? es))) := by
  have hright : ((Token.scan source).filterMap (Token.swap? (swapped? es))).Nodup := by
    refine List.Pairwise.filterMap _ (R := fun t u => t ∈ Token.scan source ∧
      u ∈ Token.scan source ∧ t ≠ u) ?_ ?_
    · rintro t u ⟨ht, hu, htu⟩ e he f hf rfl
      obtain ⟨x, -, he⟩ := Option.bind_eq_some_iff.1 he
      obtain ⟨y, -, hf⟩ := Option.bind_eq_some_iff.1 hf
      obtain ⟨d, hd, rfl⟩ := Option.map_eq_some_iff.1 he
      obtain ⟨d', hd', heq⟩ := Option.map_eq_some_iff.1 hf
      exact htu (Token.eq_of_doc_start_eq ht hu hd hd' (Edit.replace.inj heq).1.symm)
    · exact (Token.nodup_scan source).imp_of_mem fun ht hu htu => ⟨ht, hu, htu⟩
  have hleft : es.Nodup := hn.imp fun hef he => hef (congrArg Edit.start he)
  refine (List.perm_ext_iff_of_nodup hleft hright).2 fun e => ?_
  rw [List.mem_filterMap]
  constructor
  · intro he
    obtain ⟨t, ht, d, hd, x, rfl, -⟩ := h e he
    refine ⟨t, ht, ?_⟩
    have hfind : (es.find? fun e => e.start == d.start) = some (.replace d.start d.stop x) :=
      Edit.find?_start hn he
    rw [Token.swap?, swapped?, hd, Option.bind_some, hfind]
    rfl
  · rintro ⟨t, ht, he⟩
    obtain ⟨x, hx, he⟩ := Option.bind_eq_some_iff.1 he
    obtain ⟨d, hd, rfl⟩ := Option.map_eq_some_iff.1 he
    obtain ⟨-, d', hd', hmem⟩ := swapped?_eq_some h ht hx
    obtain rfl : d' = d := Option.some.inj (hd'.symm.trans hd)
    exact hmem

omit h hn in
private theorem pairwise_swaps (source : Text) (es : List Edit) :
    ((Token.scan source).filterMap (Token.swap? (swapped? es))).Pairwise
      fun e f => e.stop ≤ f.start ∧ e.start < f.start := by
  have hpair := Token.pairwise_start (Token.place_scan source)
    fun _ => Token.text_ne_nil_of_mem_scan
  refine List.Pairwise.filterMap _ (fun t u htu e he f hf => ?_) hpair
  obtain ⟨x, -, he⟩ := Option.bind_eq_some_iff.1 he
  obtain ⟨y, -, hf⟩ := Option.bind_eq_some_iff.1 hf
  obtain ⟨d, hd, rfl⟩ := Option.map_eq_some_iff.1 he
  obtain ⟨d', hd', rfl⟩ := Option.map_eq_some_iff.1 hf
  have hb := Token.doc_bounds hd
  have hb' := Token.doc_bounds hd'
  have hstop : t.start ≤ t.stop := Nat.le_add_right _ _
  simp only [Edit.stop, Edit.start]
  omega

/-- Edits that exchange different comments do not touch each other. -/
theorem disjoint_swaps : es.Pairwise fun e f => e.stop ≤ f.start ∨ f.stop ≤ e.start := by
  refine ((perm_swaps h hn).pairwise_iff ?_).2 ((pairwise_swaps source es).imp fun hef => .inl hef.1)
  exact Or.symm

/-- Comments can be exchanged in any order: the tokens of the text stay, with the other comments
before them. -/
theorem exists_map_swapped : ∃ ps g, KeepsLexeme g ∧ ps.flatMap Patch.old = source ∧
    es.Perm (Patch.edits 0 ps) ∧ Edit.applyAll source es = .ok (ps.flatMap Patch.new) ∧
    Token.scan (ps.flatMap Patch.new) = (Token.scan source).map g ∧
    ∀ t ∈ Token.scan source, (swapped? es t = none → (g t).lead = t.lead) ∧
      ∀ x ∈ swapped? es t, Token.docText? (g t).lead = some x := by
  obtain ⟨trailing, htrivia, hlex, hproper, -⟩ := Token.scan_spec source
  have hsource := Lexeme.flatMap_text_scan source
  rw [hlex, List.flatMap_append, Token.flatMap_flatMap_text] at hsource
  obtain ⟨us, ps, hus, hold, hnew, hedits⟩ := Token.exists_patches
    (Token.place_scan source) hproper (fun t ht l hl => Token.closed_of_mem_lead ht hl) (fun t ht x hx => by
      obtain ⟨hdoc, d, hd, -⟩ := swapped?_eq_some h ht hx
      exact ⟨hdoc, by simp [hd]⟩) (trailing.flatMap (·.text))
  have hreads := Lexeme.reads_scan source
  rw [hlex] at hreads
  have hexchange : List.Forall₂ Lexeme.Exchange
      ((Token.scan source).flatMap Token.lexemes ++ trailing) (us.flatMap Token.lexemes ++ trailing) :=
    List.rel_append (List.rel_flatMap hus fun t u htu =>
      List.rel_append htu.lead (.cons (.inl htu.lexeme) .nil))
      (List.forall₂_same.2 fun _ _ => .inl rfl)
  have hproper' : ∀ u ∈ us, u.IsProper := by
    intro u hu
    obtain ⟨t, htu⟩ := exists_of_mem_left hus.flip hu
    exact htu.proper
  have hscan := Token.scan_of_reads hproper' htrivia (hreads.exchange hexchange)
  obtain ⟨g, hg, hgs, hR⟩ := exists_keepsLexeme
    (Token.forall₂_place_right (R := Token.Redocumented (swapped? es))
      (fun _ _ _ htu => ⟨htu.lexeme, htu.lead, htu.proper, htu.same, htu.doc⟩) hus 0)
    (Token.nodup_scan source) fun _ _ htu => htu.lexeme
  refine ⟨ps, g, hg, hold.trans hsource, hedits ▸ perm_swaps h hn, ?_, ?_,
    fun t ht => ⟨(hR t ht).same, (hR t ht).doc⟩⟩
  · have happly := Patch.applyAll_edits (hedits ▸ perm_swaps h hn)
      (hedits ▸ (pairwise_swaps source es).imp And.right)
    rwa [hold, hsource] at happly
  · rw [hnew, hscan, hgs]

end

end Java
end Javadoc
