import Javadoc.Proofs.Java.Nodes
import Javadoc.Proofs.Sync.Rereading

/-! The constructors and setters of a type beside those of its updated text: one by one they have
the same bodies, and their comments are updated. -/
namespace Javadoc

namespace Java

def Member.callable? : Member → Option Method
  | constructor m => some m
  | method m => some m
  | _ => none

section

variable {source : Text} {N : Tree} (h : (Tree.scan source).firstType? = some N)
include h

private theorem exists_inside : ∃ path, ∃ inside : Tree, N.nodes [] = inside.nodes path ∧
    inside.marks path ⊆ (N.marks []).tail := by
  obtain ⟨hT, kind, name, head, o, inside, c, rfl⟩ :=
    Tree.firstType?_eq_some h (Tree.typed_scan source)
  obtain ⟨t, ts, hts⟩ := Tree.exists_flatMap_tokens (Tree.ne_nil_of_typeHead? hT.1)
  refine ⟨name, inside, by simp [Tree.nodes, ClassDecl.pathIn], ?_⟩
  simp only [Tree.marks, Tree.headMarks, hts, List.cons_append, List.tail_cons]
  refine List.subset_append_of_subset_right _ (List.subset_cons_of_subset _ ?_)
  exact List.subset_append_left _ _

theorem headMarks_subset_tail {n : Node} (hn : n ∈ N.nodes []) :
    Tree.headMarks n.path n.path n.head ⊆ (N.marks []).tail := by
  obtain ⟨path, inside, hnodes, hmarks⟩ := exists_inside h
  exact List.Subset.trans (Tree.headMarks_subset_marks (hnodes ▸ hn)) hmarks

/-- The first token of the head of a node. -/
theorem exists_first {n : Node} (hn : n ∈ N.nodes []) {σ : Member.Shape}
    (hσ : σ ∈ Member.shapes n.head (Tree.bodyAt n.last)) :
    ∃ t ts, n.head.flatMap Piece.tokens = t :: ts ∧ t ∈ Token.scan source ∧
      ⟨n.path, true, false, t⟩ ∈ (N.marks []).tail := by
  have hne : n.head ≠ [] := by
    intro he
    simp [he, Member.shapes, Piece.dropModifiers, Piece.dropTypeParameters] at hσ
  obtain ⟨t, ts, hts⟩ := Tree.exists_flatMap_tokens hne
  have hmark : ⟨n.path, true, false, t⟩ ∈ (N.marks []).tail := by
    refine headMarks_subset_tail h hn ?_
    rw [Tree.headMarks, hts]
    exact List.mem_cons_self
  exact ⟨t, ts, hts, mem_scan_of_mem_marks h (List.mem_of_mem_tail hmark), hmark⟩

private theorem lastMarks_subset_tail {n : Node} (hn : n ∈ N.nodes []) :
    Tree.lastMarks n.path ((Member.ofHead n.head (Tree.bodyAt n.last)).any Member.ownsEntries)
      n.last ⊆ (N.marks []).tail := by
  obtain ⟨path, inside, hnodes, hmarks⟩ := exists_inside h
  exact List.Subset.trans (Tree.lastMarks_subset_marks (hnodes ▸ hn)) hmarks

end

/-- The last comment before a token is updated like all of them. -/
theorem text_lastComment_renew {changes : List FieldChange} (hc : ∀ c ∈ changes, Entry.Sound c)
    {ls : List Lexeme} (hl : ∀ l ∈ ls, Entry.isPlain l.text ∧ (l.kind = .blockComment → l.Closed))
    {found found' : Preceding}
    (hf : found'.doc?.map (·.text) = found.doc?.map fun d => Entry.renewText changes d.text)
    (origin origin' : Nat) :
    (Token.lastComment found' origin' (ls.map fun l =>
        renewLexeme changes (l, l.kind == .blockComment && !false))).doc?.map (·.text) =
      (Token.lastComment found origin ls).doc?.map fun d => Entry.renewText changes d.text := by
  induction ls generalizing found found' origin origin' with
  | nil => exact hf
  | cons l ls ih =>
    have hl' := fun m hm => hl m (List.mem_cons_of_mem _ hm)
    obtain ⟨hp, hcl⟩ := hl l List.mem_cons_self
    obtain ⟨kind, text⟩ := l
    rw [List.map_cons, Token.lastComment, Token.lastComment]
    refine ih hl' ?_ _ _
    cases kind with
    | blockComment =>
      have hiff := (Entry.closed_renewText hc (hcl rfl) hp).2
      simp only [renewLexeme, beq_self_eq_true, Bool.not_false, Bool.and_true, Entry.renewIf,
        if_true, List.isPrefixOf_iff_prefix, hiff]
      split <;> rfl
    | lineComment | stray => rfl
    | _ => exact hf

theorem callable?_member {σ : Member.Shape} {place : Preceding × Nat} {m : Method}
    (h : (σ.member place).callable? = some m) : m.comment = place.1 ∧ m.start = place.2 := by
  cases σ <;> cases h <;> exact ⟨rfl, rfl⟩

private theorem role_eq {g : Token → Token} (hg : KeepsSymbols g) {σ : Member.Shape}
    {place place' : Preceding × Nat} {m m' : Method} (h : (σ.member place).callable? = some m)
    (h' : ((σ.map g).member place').callable? = some m') : m'.role = m.role := by
  cases σ with
  | field name type => cases h
  | constructor name inner body? =>
    cases h
    cases h'
    simp only [Method.role, Method.arity, Member.length_parameters_map hg]
  | method name inner type behind body? =>
    cases h
    cases h'
    simp only [Method.role, Method.arity, Member.length_parameters_map hg]

theorem flatBody?_eq {g : Token → Token} (hg : KeepsLexeme g) {head : List Piece}
    {body? : Option Piece} (hb : ∀ b ∈ body?, KeepsLead g b.tokens.tail) {σ : Member.Shape}
    (hσ : σ.Within head body?) {place place' : Preceding × Nat} {m m' : Method}
    (h : (σ.member place).callable? = some m) (h' : ((σ.map g).member place').callable? = some m') :
    m'.flatBody? = m.flatBody? := by
  cases σ with
  | field name type => cases h
  | constructor name inner body =>
    obtain ⟨-, rfl⟩ := hσ
    cases h
    cases h'
    simp only [Method.flatBody?, Member.bodyOf_map hg hb]
  | method name inner type behind body =>
    obtain ⟨-, -, -, rfl⟩ := hσ
    cases h
    cases h'
    simp only [Method.flatBody?, Member.bodyOf_map hg hb]

structure Renewed (changes : List FieldChange) (p p' : Text × Method) : Prop where
  path : p'.1 = p.1
  body : p'.2.flatBody? = p.2.flatBody?
  doc : p'.2.comment.doc?.map (·.text) =
    p.2.comment.doc?.map fun d => Entry.renewText (FieldChange.ofType changes p.1) d.text

private theorem Sprung.renewed {source : Text} {N : Tree}
    (h : (Tree.scan source).firstType? = some N)
    {changes : List FieldChange} (hc : ∀ c ∈ changes, Entry.Sound c) (hp : Entry.isPlain source)
    {g : Token → Token} (hg : KeepsLexeme g)
    (hlead : ∀ m ∈ (N.marks []).tail, (g m.token).lead = (m.renew changes).lead)
    {path : Text} {M M' : Member} (hs : Sprung g (N.nodes []) path M M') {m m' : Method}
    (hm : M.callable? = some m) (hm' : M'.callable? = some m') :
    m'.role = m.role ∧ (M.ownsEntries → Renewed changes (path, m) (path, m')) := by
  obtain ⟨n, hn, rfl, σ, hσ, rfl, rfl⟩ := hs
  refine ⟨role_eq hg.symbols hm hm', fun howns => ⟨rfl, ?_, ?_⟩⟩
  · refine flatBody?_eq hg (fun b hb t ht => ?_) (Member.within_of_mem_shapes hσ) hm hm'
    have hany : (Member.ofHead n.head (Tree.bodyAt n.last)).any Member.ownsEntries := by
      rw [Member.ofHead_eq, List.any_map, List.any_eq_true]
      exact ⟨σ, hσ, howns⟩
    have hlast := lastMarks_subset_tail h hn
    obtain rfl : b = n.last := by
      cases hl : n.last with
      | token u => simp [hl, Tree.bodyAt] at hb
      | group o inner c => simpa [hl, Tree.bodyAt, eq_comm] using hb
    rw [hany, Tree.lastMarks, Piece.tokens_eq_cons] at hlast
    rw [hlead _ (hlast (List.mem_cons_of_mem _ (List.mem_map_of_mem ht)))]
    simp [Mark.renew, Token.markedLead, renewLexeme, Entry.renewIf, Function.comp_def]
  · obtain ⟨t, ts, hts, ht, hmark⟩ := exists_first h hn hσ
    have hts' : (n.head.map (Piece.map g)).flatMap Piece.tokens = g t :: ts.map g := by
      rw [Piece.flatMap_tokens_map, hts, List.map_cons]
    rw [(callable?_member hm).1, (callable?_member hm').1, Tree.placeOf_eq hts,
      Tree.placeOf_eq hts', Token.preceding, Token.preceding, hlead _ hmark, Mark.renew,
      Token.markedLead, List.map_map]
    refine text_lastComment_renew (fun c hm => hc c (List.mem_filter.1 hm).1) (fun l hl => ⟨?_, ?_⟩)
      rfl _ _
    · exact Entry.isPlain_of_isInfix hp (Token.infix_of_mem_lexemes ht (List.mem_append_left _ hl))
    · exact Token.closed_of_mem_lead ht hl

/-- Two constructors or setters that are read from one node, before and after a change of the
tokens. -/
def OwnerRel (g : Token → Token) (nodes : List Node) (p p' : Text × Method) : Prop :=
  p'.1 = p.1 ∧ ∃ M M' : Member, M.ownsEntries ∧ Sprung g nodes p.1 M M' ∧
    M.callable? = some p.2 ∧ M'.callable? = some p'.2

private theorem OwnRel.owners {g : Token → Token} (hg : KeepsSymbols g) {marks : List Mark}
    {nodes : List Node} {p p' : Text × ClassInfo} (h : OwnRel g marks nodes p p') :
    List.Forall₂ (OwnerRel g nodes)
      ((p.2.constructors ++ p.2.methods.filter fun m => m.role == .mutator).map (p.1, ·))
      ((p'.2.constructors ++ p'.2.methods.filter fun m => m.role == .mutator).map (p'.1, ·)) := by
  rw [List.forall₂_map_left_iff, List.forall₂_map_right_iff]
  refine List.rel_append (h.constructors.imp fun m m' hs => ⟨h.path, _, _, rfl, hs, rfl, rfl⟩) ?_
  rw [← List.filterMap_eq_filter]
  refine List.rel_filterMap ?_ h.methods
  intro m m' hs
  have hrole : m'.role = m.role := by
    obtain ⟨n, hn, -, σ, hσ, hm, hm'⟩ := hs
    exact role_eq hg (by rw [← hm]; rfl) (by rw [← hm']; rfl)
  simp only [Option.guard_def, hrole]
  split
  · next hmut => exact .some ⟨h.path, .method m, .method m', hmut, hs, rfl, rfl⟩
  · exact .none

theorem primary?_read (path source : Text) :
    (SourceFile.read path source).primary? =
      (Tree.scan source).firstType?.bind fun N => (N.members.filterMap Member.nested?).head? := by
  rw [SourceFile.primary?, Tree.read_classes, Tree.head?_nested]

theorem exists_firstType {path source : Text} {c : ClassDecl}
    (h : (SourceFile.read path source).primary? = some c) :
    ∃ N, (Tree.scan source).firstType? = some N ∧ N.members.filterMap Member.nested? = [c] := by
  rw [primary?_read] at h
  obtain ⟨N, hN, hc⟩ := Option.bind_eq_some_iff.1 h
  obtain ⟨-, kind, name, head, o, inside, closing, rfl⟩ :=
    Tree.firstType?_eq_some hN (Tree.typed_scan source)
  refine ⟨_, hN, ?_⟩
  cases hc
  rfl

theorem exists_nested_map {source : Text} {N : Tree} (h : (Tree.scan source).firstType? = some N)
    (g : Token → Token) : ∃ d, (N.map g).members.filterMap Member.nested? = [d] ∧
      (N.map g).firstType? = some (N.map g) := by
  obtain ⟨-, kind, name, head, o, inside, closing, rfl⟩ :=
    Tree.firstType?_eq_some h (Tree.typed_scan source)
  exact ⟨_, rfl, rfl⟩

private theorem withPaths_eq (c : ClassDecl) : c.withPaths = ClassDecl.withPathsEach [] [c] := by
  rw [ClassDecl.withPathsEach, ClassDecl.withPathsEach, List.append_nil, ClassDecl.withPaths]

/-- The types in the first type, beside those that the changed one is read as. -/
theorem forall₂_withPaths {source : Text} {N : Tree}
    (h : (Tree.scan source).firstType? = some N) {g : Token → Token} (hg : KeepsSymbols g)
    {c d : ClassDecl} (hc : N.members.filterMap Member.nested? = [c])
    (hd : (N.map g).members.filterMap Member.nested? = [d]) :
    List.Forall₂ (OwnRel g (N.marks []) (N.nodes [])) c.withPaths d.withPaths := by
  have hT := (Tree.firstType?_eq_some h (Tree.typed_scan source)).1
  have hw := Tree.forall₂_withPaths hg hT []
  rw [hc, hd] at hw
  rwa [withPaths_eq, withPaths_eq]

theorem forall₂_entryOwners {source : Text} {N : Tree}
    (h : (Tree.scan source).firstType? = some N) {g : Token → Token} (hg : KeepsSymbols g)
    {c d : ClassDecl} (hc : N.members.filterMap Member.nested? = [c])
    (hd : (N.map g).members.filterMap Member.nested? = [d]) :
    List.Forall₂ (OwnerRel g (N.nodes [])) c.entryOwners d.entryOwners :=
  List.rel_flatMap (forall₂_withPaths h hg hc hd) fun _ _ => OwnRel.owners hg

/-- Reading the updated text of a type finds the same constructors and setters, with their
comments updated. -/
theorem exists_primary?_renewedText {path source : Text} {c : ClassDecl}
    (h : (SourceFile.read path source).primary? = some c) {changes : List FieldChange}
    (hc : ∀ c ∈ changes, Entry.Sound c) (hp : Entry.isPlain source) :
    ∃ fresh, (SourceFile.read path (renewedText changes source)).primary? = some fresh ∧
      List.Forall₂ (Renewed changes) c.entryOwners fresh.entryOwners := by
  obtain ⟨N, hN, hNc⟩ := exists_firstType h
  obtain ⟨g, hg, hscan, hlead⟩ := exists_map_renewedText hN hc hp
  obtain ⟨fresh, hfresh, hfirst⟩ := exists_nested_map hN g
  refine ⟨fresh, ?_, ?_⟩
  · rw [primary?_read, hscan, hfirst, Option.bind_some, hfresh]
    rfl
  · refine (forall₂_entryOwners hN hg.symbols hNc hfresh).imp ?_
    rintro ⟨path, m⟩ ⟨path', m'⟩ ⟨rfl, M, M', howns, hs, hm, hm'⟩
    exact (hs.renewed hN hc hp hg hlead hm hm').2 howns

/-- The first tokens of the nodes of a tree stand in its tokens in a row. -/
theorem firsts_sublist (path : Text) (T : Tree) :
    ((T.nodes path).filterMap fun n => (n.head.flatMap Piece.tokens).head?).Sublist T.tokens := by
  induction T generalizing path with
  | nil head => exact List.nil_sublist _
  | filler p rest ih => exact (ih path).trans (List.sublist_append_right _ _)
  | plain head last rest ih =>
    have hrest := (ih path).trans (List.sublist_append_right last.tokens rest.tokens)
    rw [Tree.nodes, Tree.tokens, List.filterMap_cons]
    cases hts : head.flatMap Piece.tokens with
    | nil => exact hrest
    | cons t ts => exact (hrest.trans (List.sublist_append_right ts _)).cons_cons t
  | type kind name head o inside c rest ih₁ ih₂ =>
    rw [Tree.nodes, Tree.tokens, List.filterMap_append, List.cons_append]
    refine List.Sublist.trans ?_ (List.sublist_append_right _ _)
    exact ((ih₁ _).append ((ih₂ path).cons c)).cons o

/-- Nodes with one first token are one node. -/
theorem eq_of_head {path : Text} {T : Tree} (hT : T.tokens.Nodup) {n n' : Node}
    (hn : n ∈ T.nodes path) (hn' : n' ∈ T.nodes path) {t : Token} {ts ts' : List Token}
    (h : n.head.flatMap Piece.tokens = t :: ts) (h' : n'.head.flatMap Piece.tokens = t :: ts') :
    n = n' := by
  have hpair := List.pairwise_filterMap.1 (List.Nodup.sublist (firsts_sublist path T) hT)
  have hpair := List.pairwise_iff_getElem.1 hpair
  obtain ⟨i, hi, rfl⟩ := List.getElem_of_mem hn
  obtain ⟨j, hj, rfl⟩ := List.getElem_of_mem hn'
  have hi' : t ∈ ((T.nodes path)[i].head.flatMap Piece.tokens).head? := by simp [h]
  have hj' : t ∈ ((T.nodes path)[j].head.flatMap Piece.tokens).head? := by simp [h']
  rcases Nat.lt_trichotomy i j with hij | rfl | hij
  · exact absurd rfl (hpair i j hi hj hij t hi' t hj')
  · rfl
  · exact absurd rfl (hpair j i hj hi hij t hj' t hi')

/-- A head declares one constructor or method, or fields. -/
theorem shapes_cases (head : List Piece) (body? : Option Piece) :
    (∀ σ ∈ Member.shapes head body?, ∀ τ ∈ Member.shapes head body?, σ = τ) ∨
      ∀ σ ∈ Member.shapes head body?, ∀ place, (σ.member place).callable? = none := by
  unfold Member.shapes
  split
  · exact .inl (by simp)
  · split
    · exact .inl (by simp)
    · exact .inl (by simp)
    · split
      · exact .inl (by simp)
      · refine .inl fun σ hσ τ hτ => ?_
        rw [Option.mem_toList] at hσ hτ
        exact Option.mem_unique hσ hτ
      · split
        · exact .inl (by simp)
        · exact .inl (by simp)
        · refine .inr fun σ hσ place => ?_
          obtain ⟨name, -, rfl⟩ := List.mem_map.1 hσ
          rfl

/-- A constructor or setter is read from a node. -/
theorem exists_node {source : Text} {N : Tree} (h : (Tree.scan source).firstType? = some N)
    {c : ClassDecl} (hc : N.members.filterMap Member.nested? = [c]) {p : Text × Method}
    (hp : p ∈ c.entryOwners) :
    ∃ n ∈ N.nodes [], n.path = p.1 ∧ ∃ t ts, n.head.flatMap Piece.tokens = t :: ts ∧
      t ∈ Token.scan source ∧ p.2.comment = t.preceding ∧
        ∃ σ ∈ Member.shapes n.head (Tree.bodyAt n.last),
          (σ.member (Member.placeOf n.head)).callable? = some p.2 := by
  obtain ⟨d, hd, -⟩ := exists_nested_map h id
  obtain ⟨p', -, M, M', -, ⟨n, hn, hnp, σ, hσ, rfl, -⟩, hm, -⟩ :=
    exists_of_mem_left (forall₂_entryOwners h (KeepsLexeme.symbols fun _ => rfl) hc hd) hp
  obtain ⟨t, ts, hts, ht, -⟩ := exists_first h hn hσ
  refine ⟨n, hn, hnp, t, ts, hts, ht, ?_, σ, hσ, hm⟩
  rw [(callable?_member hm).1, Tree.placeOf_eq hts]

/-- A documentation comment of a constructor or setter is a closed comment in the source. -/
theorem exists_lexeme_of_doc {path source : Text} {c : ClassDecl}
    (h : (SourceFile.read path source).primary? = some c) {p : Text × Method}
    (hp : p ∈ c.entryOwners) {d : DocComment} (hd : p.2.comment.doc? = some d) :
    ∃ l : Lexeme, l.Closed ∧ Comment.docStart <+: l.text ∧ l.text <:+: source ∧ d.text = l.text := by
  obtain ⟨N, hN, hc⟩ := exists_firstType h
  obtain ⟨n, -, -, t, ts, -, ht, hpt, -⟩ := exists_node hN hc hp
  rw [hpt] at hd
  obtain ⟨as, l, bs, hl, hk, hstart, rfl, -⟩ := Token.exists_doc hd
  have hm : l ∈ t.lead := by simp [hl]
  exact ⟨l, Token.closed_of_mem_lead ht hm hk, hstart,
    Token.infix_of_mem_lexemes ht (List.mem_append_left _ hm), rfl⟩

/-- Constructors and setters whose documentation comments start at one byte are one. -/
theorem eq_of_doc_start_eq {path source : Text} {c : ClassDecl}
    (h : (SourceFile.read path source).primary? = some c) {p q : Text × Method}
    (hp : p ∈ c.entryOwners) (hq : q ∈ c.entryOwners) {d e : DocComment}
    (hd : p.2.comment.doc? = some d) (he : q.2.comment.doc? = some e) (hs : d.start = e.start) :
    p = q := by
  obtain ⟨N, hN, hc⟩ := exists_firstType h
  obtain ⟨n, hn, hnp, t, ts, hts, ht, hpt, σ, hσ, hσp⟩ := exists_node hN hc hp
  obtain ⟨n', hn', hnq, u, us, hus, hu, hqu, τ, hτ, hτq⟩ := exists_node hN hc hq
  obtain rfl : t = u := Token.eq_of_doc_start_eq ht hu (hpt ▸ hd) (hqu ▸ he) hs
  obtain rfl : n = n' := eq_of_head (Tree.nodup_firstType hN) hn hn' hts hus
  obtain rfl : σ = τ := by
    rcases shapes_cases n.head (Tree.bodyAt n.last) with heq | hfield
    · exact heq σ hσ τ hτ
    · simp [hfield σ hσ] at hσp
  rw [hσp] at hτq
  exact Prod.ext (hnp.symm.trans hnq) (Option.some.inj hτq)

end Java
end Javadoc
