import Javadoc.Plan
import Javadoc.Proofs.Java.Nodes

/-! The sites of a source beside those of the same source with other blanks and comments before
the first tokens of its declarations: the configuration gives the same comments for both. -/
namespace Javadoc

namespace Field

def moved (f : Field) (place : Preceding × Nat) : Field :=
  { f with comment := place.1, start := place.2 }

end Field

namespace Method

def moved (m : Method) (place : Preceding × Nat) : Method :=
  { m with comment := place.1, start := place.2 }

end Method

namespace Java

def KeepsInner (g : Token → Token) (marks : List Mark) : Prop :=
  ∀ m ∈ marks, m.isHead = false → (g m.token).lead = m.token.lead

variable {g : Token → Token} {outer path : Text} {T : Tree}

private theorem KeepsInner.head (h : KeepsInner g (T.marks outer)) {n : Node}
    (hn : n ∈ T.nodes outer) :
    KeepsLead g (n.head.flatMap Piece.tokens).tail := by
  intro t ht
  have hs := Tree.headMarks_subset_marks hn
  unfold Tree.headMarks at hs
  cases hts : n.head.flatMap Piece.tokens with
  | nil => simp [hts] at ht
  | cons u us =>
    rw [hts] at hs ht
    exact h _ (hs (List.mem_cons_of_mem _ (List.mem_map_of_mem ht))) rfl

theorem KeepsInner.last (h : KeepsInner g (T.marks outer)) {n : Node} (hn : n ∈ T.nodes outer) :
    ∀ b ∈ Tree.bodyAt n.last, KeepsLead g b.tokens.tail := by
  intro b hb t ht
  have hs := Tree.lastMarks_subset_marks hn
  cases hl : n.last with
  | token u => simp [hl, Tree.bodyAt] at hb
  | group o inner c =>
    obtain rfl : b = n.last := by simpa [hl, Tree.bodyAt, eq_comm] using hb
    unfold Tree.lastMarks at hs
    rw [Piece.tokens_eq_cons] at hs
    exact h _ (hs (List.mem_cons_of_mem _ (List.mem_map_of_mem ht))) rfl

/-- A member is the same one at another place. -/
theorem Sprung.shape (hg : KeepsLexeme g) (h : KeepsInner g (T.marks outer)) {m m' : Member}
    (hm : Sprung g (T.nodes outer) path m m') :
    ∃ (σ : Member.Shape) (p p' : Preceding × Nat), Placed g (T.marks outer) p p' ∧
      m = σ.member p ∧ m' = σ.member p' := by
  obtain ⟨n, hn, -, σ, hσ, rfl, rfl⟩ := hm
  have hne : n.head ≠ [] := by
    intro he
    simp [he, Member.shapes, Piece.dropModifiers, Piece.dropTypeParameters] at hσ
  refine ⟨σ, _, _, placed_of_head hne (Tree.headMarks_subset_marks hn), rfl, ?_⟩
  exact Member.Shape.member_map hg (Member.within_of_mem_shapes hσ) (h.head hn) (h.last hn) _

private theorem Sprung.field (hg : KeepsLexeme g) (h : KeepsInner g (T.marks outer)) {f f' : Field}
    (hf : Sprung g (T.nodes outer) path (.field f) (.field f')) :
    ∃ p', Placed g (T.marks outer) (f.comment, f.start) p' ∧ f' = f.moved p' := by
  obtain ⟨σ, p, p', hp, hm, hm'⟩ := hf.shape hg h
  cases σ <;> cases hm
  cases hm'
  exact ⟨p', hp, rfl⟩

private theorem Sprung.constructor (hg : KeepsLexeme g) (h : KeepsInner g (T.marks outer))
    {m m' : Method}
    (hf : Sprung g (T.nodes outer) path (.constructor m) (.constructor m')) :
    ∃ p', Placed g (T.marks outer) (m.comment, m.start) p' ∧ m' = m.moved p' := by
  obtain ⟨σ, p, p', hp, hm, hm'⟩ := hf.shape hg h
  cases σ <;> cases hm
  cases hm'
  exact ⟨p', hp, rfl⟩

private theorem Sprung.method (hg : KeepsLexeme g) (h : KeepsInner g (T.marks outer))
    {m m' : Method}
    (hf : Sprung g (T.nodes outer) path (.method m) (.method m')) :
    ∃ p', Placed g (T.marks outer) (m.comment, m.start) p' ∧ m' = m.moved p' := by
  obtain ⟨σ, p, p', hp, hm, hm'⟩ := hf.shape hg h
  cases σ <;> cases hm
  cases hm'
  exact ⟨p', hp, rfl⟩

end Java

namespace ClassInfo

/-- A field is looked up by its name alone. -/
theorem findField?_congr {own own' : ClassInfo}
    (h : List.Forall₂ (fun f f' => f'.name = f.name) own.fields own'.fields) (name : Text) :
    (own'.findField? name).map Field.name = (own.findField? name).map Field.name := by
  simp only [findField?]
  generalize own.fields = fs, own'.fields = fs' at h
  induction h with
  | nil => rfl
  | cons hf _ ih =>
    simp only [List.find?_cons, hf]
    split
    · simp [hf]
    · exact ih

end ClassInfo

private theorem Assignment.target?_congr {own own' : ClassInfo}
    (h : List.Forall₂ (fun f f' => f'.name = f.name) own.fields own'.fields) (m : Method) :
    target? m (some own') = target? m (some own) := by
  have hn := ClassInfo.findField?_congr h
  -- what is found is asked for its name alone
  have hdo (own : ClassInfo) : target? m (some own) =
      (firstThis? false (m.body?.getD [])).or
        ((((plain (m.body?.getD [])).filter fun word => !m.takes word).findSome?
          fun word => (own.findField? word).map Field.name).or
        ((stem? m.name).bind fun stem => (own.findField? stem).map Field.name)) := by
    have hmap (l : List Text) : (l.findSome? fun word => (own.findField? word).map Field.name) =
        (l.findSome? own.findField?).map Field.name := List.map_findSome?.symm
    simp only [target?, hmap]
    cases firstThis? false (m.body?.getD []) with
    | some word => rfl
    | none =>
      simp only [Option.bind_eq_bind, Option.bind_some]
      cases ((plain (m.body?.getD [])).filter fun word => !m.takes word).findSome?
          own.findField? with
      | some field => rfl
      | none =>
        simp only [Option.map_eq_bind, Function.comp_def]
        rfl
  rw [hdo, hdo]
  simp only [hn]

namespace Templates

private theorem methodComment?_congr (t : Templates) {own own' : ClassInfo}
    (h : List.Forall₂ (fun f f' => f'.name = f.name) own.fields own'.fields) (m : Method)
    (place : Preceding × Nat) :
    t.methodComment? (m.moved place) (some own') = t.methodComment? m (some own) := by
  have ht (m : Method) : Template.subject? m (some own') = Template.subject? m (some own) := by
    simp only [Template.subject?, Assignment.target?_congr h]
  have hc (template : Text) : t.comment? template (.method (m.moved place) (some own')) =
      t.comment? template (.method m (some own)) := by
    simp only [comment?, Template.comment?, Template.fill, Template.fillMethod, ht]
    rfl
  simp only [methodComment?, hc]
  rfl

end Templates

namespace Site

open Java

def Beside (g : Token → Token) (marks : List Mark) (s s' : Site) : Prop :=
  ∃ m ∈ marks, m.isHead ∧ s.start = m.token.start ∧ s.commented = m.token.preceding.isComment ∧
    s'.start = (g m.token).start ∧ s'.commented = (g m.token).preceding.isComment ∧
    s'.comment? = s.comment?

variable {g : Token → Token} {outer : Text} {T : Tree}

private theorem beside_of_placed {marks : List Mark} {p p' : Preceding × Nat} {c c' : Option Text}
    (h : Placed g marks p p') (hc : c' = c) :
    Beside g marks ⟨p.2, p.1.isComment, c⟩ ⟨p'.2, p'.1.isComment, c'⟩ := by
  obtain ⟨m, hm, hh, rfl, rfl⟩ := h
  exact ⟨m, hm, hh, rfl, rfl, rfl, rfl, hc⟩

private theorem forall₂_ofOwn (t : Templates) (hg : KeepsLexeme g)
    (hk : KeepsInner g (T.marks outer))
    {p p' : Text × ClassInfo} (h : OwnRel g (T.marks outer) (T.nodes outer) p p') :
    List.Forall₂ (Beside g (T.marks outer)) (ofOwn t p.2) (ofOwn t p'.2) := by
  have hnames : List.Forall₂ (fun f f' => f'.name = f.name) p.2.fields p'.2.fields :=
    h.fields.imp fun f f' hf => by
      obtain ⟨p', -, rfl⟩ := hf.field hg hk
      rfl
  have hfields := h.fields.imp fun f f' hf =>
    show Beside g (T.marks outer) ⟨f.start, f.comment.isComment, t.fieldComment? f⟩
      ⟨f'.start, f'.comment.isComment, t.fieldComment? f'⟩ by
    obtain ⟨place, hp, rfl⟩ := hf.field hg hk
    exact beside_of_placed hp rfl
  have hconstructors := h.constructors.imp fun m m' hm =>
    show Beside g (T.marks outer) ⟨m.start, m.comment.isComment, t.constructorComment? m⟩
      ⟨m'.start, m'.comment.isComment, t.constructorComment? m'⟩ by
    obtain ⟨place, hp, rfl⟩ := hm.constructor hg hk
    exact beside_of_placed hp rfl
  have hmethods := h.methods.imp fun m m' hm =>
    show Beside g (T.marks outer) ⟨m.start, m.comment.isComment, t.methodComment? m (some p.2)⟩
      ⟨m'.start, m'.comment.isComment, t.methodComment? m' (some p'.2)⟩ by
    obtain ⟨place, hp, rfl⟩ := hm.method hg hk
    exact beside_of_placed hp (t.methodComment?_congr hnames m place)
  have hown : t.classComment? p'.2 = t.classComment? p.2 := by
    simp only [Templates.classComment?, h.name]
  refine .cons (beside_of_placed h.place hown) ?_
  refine List.rel_append (List.rel_append ?_ ?_) ?_
  · exact List.forall₂_map_left_iff.2 (List.forall₂_map_right_iff.2 hfields)
  · exact List.forall₂_map_left_iff.2 (List.forall₂_map_right_iff.2 hconstructors)
  · exact List.forall₂_map_left_iff.2 (List.forall₂_map_right_iff.2 hmethods)

def ofSource (t : Templates) (source : Text) : List Site :=
  (ClassDecl.withPathsEach [] ((Tree.scan source).members.filterMap Member.nested?)).flatMap
    fun (_, own) => ofOwn t own

theorem flatMap_ofClass (t : Templates) (path source : Text) :
    (SourceFile.read path source).classes.flatMap (ofClass t) = ofSource t source := by
  rw [ofSource, ← Tree.read_classes path, ClassDecl.withPathsEach_nil, List.flatMap_assoc]
  rfl

/-- The sites of a source whose tokens are changed where declarations start are those of the old
source, each with the new place of its token. -/
theorem forall₂_ofSource (t : Templates) (hg : KeepsLexeme g) {source source' : Text}
    (hs : Token.scan source' = (Token.scan source).map g)
    (hk : KeepsInner g ((Tree.scan source).marks [])) :
    List.Forall₂ (Beside g ((Tree.scan source).marks [])) (ofSource t source)
      (ofSource t source') := by
  have hw := Tree.forall₂_withPaths hg.symbols (Tree.typed_scan source) []
  rw [← Tree.scan_of_map hg.symbols hs] at hw
  exact List.rel_flatMap hw fun _ _ h => forall₂_ofOwn t hg hk h

/-- Sites that come first are the first ones found with their start. -/
theorem mem_firstOfEach {ss : List Site} {s : Site} :
    s ∈ firstOfEach ss ↔ ss.find? (fun r => r.start == s.start) = some s := by
  induction ss with
  | nil => simp [firstOfEach]
  | cons r ss ih =>
    rw [firstOfEach, List.mem_cons, List.mem_filter, ih, List.find?_cons]
    by_cases hr : r.start = s.start
    · simp only [hr, beq_self_eq_true, bne_self_eq_false, Bool.false_eq_true, and_false, or_false,
        Option.some.injEq, eq_comm]
    · have hne : s ≠ r := fun h => hr (h ▸ rfl)
      have hb : (r.start == s.start) = false := by simpa using hr
      simp [hb, hne, Ne.symm hr]

theorem pairwise_firstOfEach (ss : List Site) :
    (firstOfEach ss).Pairwise fun r s => r.start ≠ s.start := by
  induction ss with
  | nil => exact .nil
  | cons r ss ih =>
    refine .cons (fun s hs => ?_) (ih.filter _)
    exact Ne.symm (by simpa using (List.mem_filter.1 hs).2)

end Site
end Javadoc
