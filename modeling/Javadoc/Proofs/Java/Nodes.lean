import Javadoc.Proofs.Java.Marks
import Mathlib.Data.List.Forall2

/-! The members of a tree of changed tokens beside those of the old tree: one by one they are read
from the same parts, in types with the same paths. -/
namespace Javadoc

private theorem ClassDecl.withPathsEach_eq_flatMap (outer : Text) (cs : List ClassDecl) :
    withPathsEach outer cs = cs.flatMap (withPathsFrom outer) := by
  induction cs with
  | nil => rfl
  | cons c cs ih => rw [withPathsEach, ih, List.flatMap_cons]

theorem ClassDecl.withPathsEach_nil (cs : List ClassDecl) :
    withPathsEach [] cs = cs.flatMap withPaths :=
  withPathsEach_eq_flatMap [] cs

theorem forall₂_trans {α β γ : Type} {R : α → β → Prop} {S : β → γ → Prop} {T : α → γ → Prop}
    (h : ∀ a b c, R a b → S b c → T a c) {as : List α} {bs : List β} {cs : List γ}
    (hr : List.Forall₂ R as bs) (hs : List.Forall₂ S bs cs) : List.Forall₂ T as cs := by
  induction hr generalizing cs with
  | nil =>
    cases hs
    exact .nil
  | cons hab _ ih =>
    cases hs with
    | cons hbc hs => exact .cons (h _ _ _ hab hbc) (ih hs)

namespace Java

theorem exists_of_mem_left {α β : Type} {R : α → β → Prop} {as : List α} {bs : List β}
    (h : List.Forall₂ R as bs) {a : α} (ha : a ∈ as) : ∃ b, R a b := by
  induction h with
  | nil => cases ha
  | cons hab _ ih =>
    rcases List.mem_cons.1 ha with rfl | ha
    · exact ⟨_, hab⟩
    · exact ih ha

structure Node where
  /-- The path of the type that the member is in. -/
  path : Text
  head : List Piece
  /-- The piece that ends the member. -/
  last : Piece

namespace Tree

def nodes (path : Text) : Tree → List Node
  | nil _ => []
  | filler _ rest => rest.nodes path
  | plain head last rest => ⟨path, head, last⟩ :: rest.nodes path
  | type _ name _ _ inside _ rest =>
    inside.nodes (ClassDecl.pathIn path name) ++ rest.nodes path

def Typed : Tree → Prop
  | nil _ => True
  | filler _ rest => rest.Typed
  | plain _ _ rest => rest.Typed
  | type kind name head _ inside _ rest =>
    Member.typeHead? head = some (kind, name) ∧ inside.Typed ∧ rest.Typed

private theorem typed_ofForest (kind : ClassKind) (constants : Bool) (head : List Piece)
    (f : Forest) :
    (ofForest kind constants head f).Typed := by
  induction f generalizing kind constants head with
  | nil => trivial
  | leaf t rest ih =>
    simp only [ofForest]
    split
    · exact ih ..
    · split
      · exact ih ..
      · exact ih ..
  | group o inner c rest ih₁ ih₂ =>
    simp only [ofForest]
    split
    · exact ih₂ ..
    · split
      · split
        · next hh => exact ⟨hh, ih₁ .., ih₂ ..⟩
        · exact ih₂ ..
      · exact ih₂ ..

theorem typed_scan (source : Text) : (scan source).Typed := typed_ofForest ..

theorem headMarks_subset_marks {path : Text} {T : Tree} {n : Node} (h : n ∈ T.nodes path) :
    headMarks n.path n.path n.head ⊆ T.marks path := by
  induction T generalizing path with
  | nil head => simp [nodes] at h
  | filler p rest ih => exact List.subset_append_of_subset_right _ (ih h)
  | plain head last rest ih =>
    rcases List.mem_cons.1 h with rfl | h
    · exact List.subset_append_left _ _
    · exact List.subset_append_of_subset_right _ (List.subset_append_of_subset_right _ (ih h))
  | type kind name head o inside c rest ih₁ ih₂ =>
    refine List.subset_append_of_subset_right _ (List.subset_cons_of_subset _ ?_)
    rcases List.mem_append.1 h with h | h
    · exact List.subset_append_of_subset_left _ (ih₁ h)
    · exact List.subset_append_of_subset_right _ (List.subset_cons_of_subset _ (ih₂ h))

theorem lastMarks_subset_marks {path : Text} {T : Tree} {n : Node} (h : n ∈ T.nodes path) :
    lastMarks n.path ((Member.ofHead n.head (bodyAt n.last)).any Member.ownsEntries) n.last ⊆
      T.marks path := by
  induction T generalizing path with
  | nil head => simp [nodes] at h
  | filler p rest ih => exact List.subset_append_of_subset_right _ (ih h)
  | plain head last rest ih =>
    rcases List.mem_cons.1 h with rfl | h
    · exact List.subset_append_of_subset_right _ (List.subset_append_left _ _)
    · exact List.subset_append_of_subset_right _ (List.subset_append_of_subset_right _ (ih h))
  | type kind name head o inside c rest ih₁ ih₂ =>
    refine List.subset_append_of_subset_right _ (List.subset_cons_of_subset _ ?_)
    rcases List.mem_append.1 h with h | h
    · exact List.subset_append_of_subset_left _ (ih₁ h)
    · exact List.subset_append_of_subset_right _ (List.subset_cons_of_subset _ (ih₂ h))

end Tree

def Placed (g : Token → Token) (marks : List Mark) (p p' : Preceding × Nat) : Prop :=
  ∃ m ∈ marks, m.isHead ∧ p = (m.token.preceding, m.token.start) ∧
    p' = ((g m.token).preceding, (g m.token).start)

/-- Two members of the type at `path` that are read from one node, before and after a change of
the tokens. -/
def Sprung (g : Token → Token) (nodes : List Node) (path : Text) (m m' : Member) : Prop :=
  ∃ n ∈ nodes, n.path = path ∧ ∃ σ ∈ Member.shapes n.head (Tree.bodyAt n.last),
    m = σ.member (Member.placeOf n.head) ∧
      m' = (σ.map g).member (Member.placeOf (n.head.map (Piece.map g)))

structure OwnRel (g : Token → Token) (marks : List Mark) (nodes : List Node)
    (p p' : Text × ClassInfo) : Prop where
  path : p'.1 = p.1
  name : p'.2.name = p.2.name
  kind : p'.2.kind = p.2.kind
  place : Placed g marks (p.2.comment, p.2.start) (p'.2.comment, p'.2.start)
  fields : List.Forall₂ (fun f f' => Sprung g nodes p.1 (.field f) (.field f'))
    p.2.fields p'.2.fields
  constructors : List.Forall₂ (fun m m' => Sprung g nodes p.1 (.constructor m) (.constructor m'))
    p.2.constructors p'.2.constructors
  methods : List.Forall₂ (fun m m' => Sprung g nodes p.1 (.method m) (.method m'))
    p.2.methods p'.2.methods

private theorem Sprung.mono {g : Token → Token} {nodes nodes' : List Node} (hn : nodes ⊆ nodes')
    {path : Text} {m m' : Member} (h : Sprung g nodes path m m') : Sprung g nodes' path m m' := by
  obtain ⟨n, h, hp⟩ := h
  exact ⟨n, hn h, hp⟩

private theorem OwnRel.mono {g : Token → Token} {marks marks' : List Mark}
    {nodes nodes' : List Node}
    (hm : marks ⊆ marks') (hn : nodes ⊆ nodes') {p p' : Text × ClassInfo}
    (h : OwnRel g marks nodes p p') : OwnRel g marks' nodes' p p' where
  path := h.path
  name := h.name
  kind := h.kind
  place := by
    obtain ⟨m, h, hp⟩ := h.place
    exact ⟨m, hm h, hp⟩
  fields := h.fields.imp fun _ _ => Sprung.mono hn
  constructors := h.constructors.imp fun _ _ => Sprung.mono hn
  methods := h.methods.imp fun _ _ => Sprung.mono hn

theorem Piece.tokens_eq_cons (p : Piece) : p.tokens = p.first :: p.tokens.tail := by
  cases p <;> rfl

theorem placed_of_head {g : Token → Token} {marks : List Mark} {outer path : Text}
    {head : List Piece} (hne : head ≠ []) (hm : Tree.headMarks outer path head ⊆ marks) :
    Placed g marks (Member.placeOf head) (Member.placeOf (head.map (Piece.map g))) := by
  obtain ⟨p, ps, rfl⟩ := List.exists_cons_of_ne_nil hne
  refine ⟨⟨outer, true, false, p.first⟩, hm ?_, rfl, rfl, ?_⟩
  · rw [Tree.headMarks, List.flatMap_cons, Piece.tokens_eq_cons p]
    exact List.mem_cons_self
  · simp only [Member.placeOf, List.map_cons, Piece.first_map]

namespace Tree

variable {g : Token → Token} (hg : KeepsSymbols g)
include hg

private def MemberRel (g : Token → Token) (nodes : List Node) (path : Text) (m m' : Member) : Prop :=
  (∃ c c', m = .nested c ∧ m' = .nested c') ∨ Sprung g nodes path m m'

private theorem forall₂_members (path : Text) (T : Tree) :
    List.Forall₂ (MemberRel g (T.nodes path) path) T.members (T.map g).members := by
  induction T with
  | nil head => exact .nil
  | filler p rest ih => exact ih
  | plain head last rest ih =>
    have hb : bodyAt (last.map g) = (bodyAt last).map (Piece.map g) := by cases last <;> rfl
    simp only [members, map, Member.ofHead_eq, hb, Member.shapes_map hg, List.map_map]
    refine List.rel_append ?_ (ih.imp fun _ _ h => h.imp_right
      (Sprung.mono (List.subset_cons_self _ _)))
    rw [List.forall₂_map_left_iff, List.forall₂_map_right_iff, List.forall₂_same]
    exact fun σ hσ => .inr ⟨_, List.mem_cons_self, rfl, σ, hσ, rfl, rfl⟩
  | type kind name head o inside c rest ih₁ ih₂ =>
    refine .cons (.inl ⟨_, _, rfl, rfl⟩) (ih₂.imp fun _ _ h => h.imp_right (Sprung.mono ?_))
    exact List.subset_append_right _ _

omit hg in
private theorem MemberRel.field? {nodes : List Node} {path : Text} {m m' : Member}
    (h : MemberRel g nodes path m m') :
    Option.Rel (fun f f' => Sprung g nodes path (.field f) (.field f')) m.field? m'.field? := by
  rcases h with ⟨c, c', rfl, rfl⟩ | ⟨n, hn, hp, σ, hσ, rfl, rfl⟩
  · exact .none
  · cases σ with
    | field => exact .some ⟨n, hn, hp, _, hσ, rfl, rfl⟩
    | constructor | method => exact .none

omit hg in
private theorem MemberRel.constructor? {nodes : List Node} {path : Text} {m m' : Member}
    (h : MemberRel g nodes path m m') :
    Option.Rel (fun f f' => Sprung g nodes path (.constructor f) (.constructor f'))
      m.constructor? m'.constructor? := by
  rcases h with ⟨c, c', rfl, rfl⟩ | ⟨n, hn, hp, σ, hσ, rfl, rfl⟩
  · exact .none
  · cases σ with
    | constructor => exact .some ⟨n, hn, hp, _, hσ, rfl, rfl⟩
    | field | method => exact .none

omit hg in
private theorem MemberRel.method? {nodes : List Node} {path : Text} {m m' : Member}
    (h : MemberRel g nodes path m m') :
    Option.Rel (fun f f' => Sprung g nodes path (.method f) (.method f')) m.method? m'.method? := by
  rcases h with ⟨c, c', rfl, rfl⟩ | ⟨n, hn, hp, σ, hσ, rfl, rfl⟩
  · exact .none
  · cases σ with
    | method => exact .some ⟨n, hn, hp, _, hσ, rfl, rfl⟩
    | field | constructor => exact .none

omit hg in
theorem filterMap_nested?_ofHead (head : List Piece) (body? : Option Piece) :
    (Member.ofHead head body?).filterMap Member.nested? = [] := by
  rw [Member.ofHead_eq, List.filterMap_eq_nil_iff]
  intro m hm
  obtain ⟨σ, -, rfl⟩ := List.mem_map.1 hm
  cases σ <;> rfl

omit hg in
theorem ne_nil_of_typeHead? {head : List Piece} {declared : ClassKind × Text}
    (h : Member.typeHead? head = some declared) : head ≠ [] := by
  rintro rfl
  simp [Member.typeHead?, Piece.dropModifiers] at h

/-- The types of a tree, beside those of the tree of changed tokens. -/
theorem forall₂_withPaths {T : Tree} (hT : T.Typed) (outer : Text) :
    List.Forall₂ (OwnRel g (T.marks outer) (T.nodes outer))
      (ClassDecl.withPathsEach outer (T.members.filterMap Member.nested?))
      (ClassDecl.withPathsEach outer ((T.map g).members.filterMap Member.nested?)) := by
  induction T generalizing outer with
  | nil head => exact .nil
  | filler p rest ih =>
    exact (ih hT outer).imp fun _ _ =>
      OwnRel.mono (List.subset_append_right _ _) (List.Subset.refl _)
  | plain head last rest ih =>
    simp only [members, map, List.filterMap_append, filterMap_nested?_ofHead, List.nil_append]
    refine (ih hT outer).imp fun _ _ => OwnRel.mono ?_ (List.subset_cons_self _ _)
    exact List.subset_append_of_subset_right _ (List.subset_append_right _ _)
  | type kind name head o inside c rest ih₁ ih₂ =>
    obtain ⟨hh, hi, hr⟩ := hT
    have hm := forall₂_members hg (ClassDecl.pathIn outer name) inside
    have hfields : List.Forall₂ (fun f f' => Sprung g _ _ (.field f) (.field f'))
        (inside.members.filterMap Member.field?) ((inside.map g).members.filterMap Member.field?) :=
      List.rel_filterMap (fun _ _ h => MemberRel.field? h) hm
    have hconstructors : List.Forall₂ (fun m m' => Sprung g _ _ (.constructor m) (.constructor m'))
        (inside.members.filterMap Member.constructor?)
        ((inside.map g).members.filterMap Member.constructor?) :=
      List.rel_filterMap (fun _ _ h => MemberRel.constructor? h) hm
    have hmethods : List.Forall₂ (fun m m' => Sprung g _ _ (.method m) (.method m'))
        (inside.members.filterMap Member.method?)
        ((inside.map g).members.filterMap Member.method?) :=
      List.rel_filterMap (fun _ _ h => MemberRel.method? h) hm
    have hn : inside.nodes (ClassDecl.pathIn outer name) ⊆
        (type kind name head o inside c rest).nodes outer := List.subset_append_left _ _
    simp only [members, map, List.filterMap_cons, Member.nested?, Member.declare,
      ClassDecl.withPathsEach, ClassDecl.withPathsFrom, List.cons_append]
    refine .cons ?_ (List.rel_append ((ih₁ hi _).imp fun _ _ => OwnRel.mono ?_ hn)
      ((ih₂ hr outer).imp fun _ _ => OwnRel.mono ?_ (List.subset_append_right _ _)))
    · exact
        { path := rfl
          name := rfl
          kind := rfl
          place := placed_of_head (ne_nil_of_typeHead? hh) (List.subset_append_left _ _)
          fields := hfields.imp fun _ _ => Sprung.mono hn
          constructors := hconstructors.imp fun _ _ => Sprung.mono hn
          methods := hmethods.imp fun _ _ => Sprung.mono hn }
    · refine List.subset_append_of_subset_right _ (List.subset_cons_of_subset _ ?_)
      exact List.subset_append_left _ _
    · refine List.subset_append_of_subset_right _ (List.subset_cons_of_subset _ ?_)
      exact List.subset_append_of_subset_right _ (List.subset_cons_self _ _)

end Tree
end Java
end Javadoc
