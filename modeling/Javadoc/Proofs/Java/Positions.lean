import Javadoc.Proofs.Java.Offsets
import Javadoc.Proofs.Sync.Stretches

/-! Where the declarations of a source stand. The heads of a tree lie one behind the other among the
tokens, and so do the comments before them. From this follows how the types of a source, their members
and the comments lie to each other. -/
namespace Javadoc

namespace Java

namespace Member

def comment : Member → Preceding
  | field f => f.comment
  | constructor m | method m => m.comment
  | nested c => c.own.comment

def start : Member → Nat
  | field f => f.start
  | constructor m | method m => m.start
  | nested c => c.own.start

/-- The first declaration starts before the second one, and its comment ends before that of the second
one starts. -/
structure Before (m n : Member) : Prop where
  start : m.start < n.start
  comments : ∀ d ∈ m.comment.doc?, ∀ e ∈ n.comment.doc?, d.stop ≤ e.start

def Joint (m n : Member) : Prop :=
  ∃ f g, m = field f ∧ n = field g ∧ g.start = f.start ∧ g.comment = f.comment

structure Inside (own : ClassInfo) (m : Member) : Prop where
  start : own.start < m.start ∧ m.start < own.stop
  comment : ∀ d ∈ m.comment.doc?, own.start < d.start ∧ d.stop < own.stop

structure Outside (own : ClassInfo) (m : Member) : Prop where
  start : m.start < own.start ∨ own.stop ≤ m.start
  comment : ∀ d ∈ m.comment.doc?, d.stop ≤ own.start ∨ own.stop ≤ d.start

def StartsWith (m : Member) (t : Token) : Prop := m.comment = t.preceding ∧ m.start = t.start

namespace StartsWith

variable {own : ClassInfo} {m n : Member} {s t u : Token}

private theorem doc_bounds (hm : m.StartsWith t) {d : DocComment} (hd : d ∈ m.comment.doc?) :
    t.origin ≤ d.start ∧ d.start < d.stop ∧ d.stop ≤ t.start :=
  Token.doc_bounds (hm.1 ▸ hd)

private theorem before (hm : m.StartsWith s) (hn : n.StartsWith t) (h : s.Ahead t) :
    m.Before n where
  start := by
    rw [hm.2, hn.2]
    exact h.start_lt
  comments d hd e he := by
    have hd := hm.doc_bounds hd
    have he := hn.doc_bounds he
    have hst := h.gap
    have hs := h.first
    omega

private theorem inside (hs : own.start = s.start) (hm : m.StartsWith t) (hu : own.stop = u.stop)
    (hst : s.Ahead t) (htu : t.Ahead u) : m.Inside own where
  start := by
    rw [hs, hm.2, hu]
    exact ⟨hst.start_lt, htu.first.trans htu.stop_lt⟩
  comment d hd := by
    have hd := hm.doc_bounds hd
    have hfront := hst.first.trans_le hst.gap
    have hback := htu.first.trans htu.stop_lt
    omega

private theorem outside_of_ahead (hm : m.StartsWith s) (ht : own.start = t.start) (h : s.Ahead t) :
    m.Outside own where
  start := by
    rw [hm.2, ht]
    exact .inl h.start_lt
  comment d hd := by
    have hd := hm.doc_bounds hd
    have hst := h.start_lt
    omega

private theorem outside_of_behind (hs : own.stop = s.stop) (hm : m.StartsWith t) (h : s.Ahead t) :
    m.Outside own where
  start := by
    rw [hm.2, hs]
    exact .inr h.stop_le
  comment d hd := by
    have hd := hm.doc_bounds hd
    have hst := h.gap
    omega

end StartsWith

/-- What a head declares starts with the first token of the head. -/
theorem exists_first_of_mem_ofHead {head : List Piece} {body? : Option Piece} {m : Member}
    (h : m ∈ ofHead head body?) : ∃ t ∈ head.flatMap Piece.tokens, m.StartsWith t := by
  rw [ofHead_eq] at h
  obtain ⟨σ, hσ, rfl⟩ := List.mem_map.1 h
  have hne : head ≠ [] := by
    rintro rfl
    simp [shapes, Piece.dropModifiers, Piece.dropTypeParameters] at hσ
  obtain ⟨t, ts, hhead⟩ := Tree.exists_flatMap_tokens hne
  refine ⟨t, hhead ▸ List.mem_cons_self, ?_⟩
  rw [Tree.placeOf_eq hhead]
  cases σ <;> exact ⟨rfl, rfl⟩

/-- What a head declares with another declaration are fields. -/
theorem pairwise_joint_ofHead (head : List Piece) (body? : Option Piece) :
    (ofHead head body?).Pairwise Joint := by
  unfold ofHead
  split
  · exact .nil
  · split
    · exact List.pairwise_singleton _ _
    · exact .nil
    · split
      · exact .nil
      · cases h : Piece.word? _ <;> simp
      · split
        · exact .nil
        · exact List.pairwise_singleton _ _
        · rw [fieldsOf, List.pairwise_map]
          exact List.pairwise_of_forall fun _ _ => ⟨_, _, rfl, rfl, rfl, rfl⟩

end Member

end Java

def ClassInfo.members (own : ClassInfo) : List Java.Member :=
  own.fields.map .field ++ (own.constructors.map .constructor ++ own.methods.map .method)

namespace ClassDecl

open Java (Member)

mutual

def declared : ClassDecl → List Member
  | mk own nested => .nested (mk own nested) :: (own.members ++ declaredEach nested)

def declaredEach : List ClassDecl → List Member
  | [] => []
  | c :: cs => declared c ++ declaredEach cs

end

structure Nests (c : ClassDecl) : Prop where
  proper : c.own.start < c.own.stop
  inside : ∀ n ∈ c.nested, c.own.start < n.own.start ∧ n.own.stop < c.own.stop
  ordered : c.nested.Pairwise fun m n => m.own.stop ≤ n.own.start
  members : ∀ m ∈ c.own.members, m.Inside c.own ∧ ∀ n ∈ c.nested, m.Outside n.own

end ClassDecl

namespace Java

private theorem Member.perm_members (kind : ClassKind) (name : Text) (head : List Piece)
    (stop : Nat)
    (ms : List Member) : (declare kind name head stop ms).own.members.Perm
      (ms.filter fun m => m.nested?.isNone) := by
  simp only [declare, ClassDecl.own, ClassInfo.members]
  induction ms with
  | nil => exact .nil
  | cons m ms ih =>
    cases m with
    | field f => exact ih.cons _
    | constructor m => exact List.perm_middle.trans (ih.cons _)
    | method m =>
      refine List.Perm.trans ?_ (ih.cons _)
      rw [← List.append_assoc, ← List.append_assoc]
      exact List.perm_middle
    | nested c => exact ih

private theorem Member.mem_filterMap_nested? {ms : List Member} {c : ClassDecl} :
    c ∈ ms.filterMap nested? ↔ .nested c ∈ ms := by
  rw [List.mem_filterMap]
  refine ⟨?_, fun h => ⟨_, h, rfl⟩⟩
  rintro ⟨m, hm, hc⟩
  cases m <;> cases hc
  exact hm

namespace Tree

def plainRow (top : Bool) (head : List Piece) (last : Piece) : List Member :=
  if top then [] else Member.ofHead head (bodyAt last)

/-- What each head of a tree declares, with the heads inside its types. -/
def rows (top : Bool) : Tree → List (List Member)
  | nil _ => []
  | filler _ rest => rest.rows top
  | plain head last rest => plainRow top head last :: rest.rows top
  | type kind name head _ inside c rest =>
    [.nested (Member.declare kind name head c.stop inside.members)] ::
      (inside.rows false ++ rest.rows top)

private theorem plainRow_sublist (top : Bool) (head : List Piece) (last : Piece) :
    (plainRow top head last).Sublist (Member.ofHead head (bodyAt last)) := by
  cases top with
  | true => exact List.nil_sublist _
  | false => exact List.Sublist.refl _

private theorem nested?_of_mem_ofHead {head : List Piece} {body? : Option Piece} {m : Member}
    (h : m ∈ Member.ofHead head body?) : m.nested? = none :=
  List.filterMap_eq_nil_iff.1 (filterMap_nested?_ofHead head body?) m h

/-- Head by head, the declarations in a tree are those of its types. -/
theorem perm_rows (top : Bool) (T : Tree) :
    (T.rows top).flatten.Perm ((if top then [] else T.members.filter fun m => m.nested?.isNone) ++
      ClassDecl.declaredEach (T.members.filterMap Member.nested?)) := by
  induction T generalizing top with
  | nil head => cases top <;> exact .nil
  | filler p rest ih => exact ih top
  | plain head last rest ih =>
    have hown : (Member.ofHead head (bodyAt last)).filter (fun m => m.nested?.isNone) =
        Member.ofHead head (bodyAt last) :=
      List.filter_eq_self.2 fun m hm => by simp [nested?_of_mem_ofHead hm]
    simp only [rows, plainRow, members, List.flatten_cons, List.filterMap_append,
      List.filter_append, filterMap_nested?_ofHead, List.nil_append, hown]
    cases top with
    | true => exact ih true
    | false =>
      simp only [Bool.false_eq_true, if_false, List.append_assoc]
      exact (ih false).append_left _
  | type kind name head o inside c rest ih₁ ih₂ =>
    have hinside := (Member.perm_members kind name head c.stop inside.members).symm.append_right
      (ClassDecl.declaredEach (inside.members.filterMap Member.nested?))
    have hown := (((ih₁ false).trans hinside).append (ih₂ top)).cons
      (.nested (Member.declare kind name head c.stop inside.members))
    rw [rows, List.flatten_cons, List.flatten_append]
    refine hown.trans ?_
    -- the members of the type at hand move behind those that stand beside it
    refine (List.Perm.cons _ (List.perm_append_comm_assoc _ _ _)).trans ?_
    cases top <;> exact List.perm_middle.symm

structure Spans (ts : List Token) (m : Member) : Prop where
  first : ∃ t ∈ ts, m.StartsWith t
  closing : ∀ c ∈ m.nested?, ∃ u ∈ ts, c.own.stop = u.stop

private theorem Spans.mono {ts us : List Token} {m : Member} (h : Spans ts m) (hs : ts ⊆ us) :
    Spans us m where
  first := h.first.imp fun _ ht => ⟨hs ht.1, ht.2⟩
  closing c hc := (h.closing c hc).imp fun _ hu => ⟨hs hu.1, hu.2⟩

private theorem exists_first_of_declare {head : List Piece} (hne : head ≠ []) (kind : ClassKind)
    (name : Text) (stop : Nat) (ms : List Member) :
    ∃ t ∈ head.flatMap Piece.tokens,
      (Member.declare kind name head stop ms).own.comment = t.preceding ∧
        (Member.declare kind name head stop ms).own.start = t.start := by
  obtain ⟨t, ts, hhead⟩ := exists_flatMap_tokens hne
  refine ⟨t, hhead ▸ List.mem_cons_self, ?_⟩
  simp only [Member.declare, ClassDecl.own, placeOf_eq hhead, and_self]

private theorem spans_of_mem_rows {top : Bool} {T : Tree} (hT : T.Typed) :
    ∀ m ∈ (T.rows top).flatten, Spans T.tokens m := by
  induction T generalizing top with
  | nil head => simp [rows]
  | filler p rest ih => exact fun m hm => (ih hT m hm).mono (List.subset_append_right _ _)
  | plain head last rest ih =>
    intro m hm
    rw [rows, List.flatten_cons, List.mem_append] at hm
    rcases hm with hm | hm
    · have hm := (plainRow_sublist top head last).subset hm
      obtain ⟨t, ht, hmt⟩ := Member.exists_first_of_mem_ofHead hm
      refine ⟨⟨t, List.mem_append_left _ ht, hmt⟩, fun c hc => ?_⟩
      rw [nested?_of_mem_ofHead hm] at hc
      cases hc
    · exact (ih hT m hm).mono fun t ht => by simp [tokens, ht]
  | type kind name head o inside c rest ih₁ ih₂ =>
    obtain ⟨hh, hi, hr⟩ := hT
    intro m hm
    rw [rows, List.flatten_cons, List.flatten_append, List.mem_append, List.mem_append,
      List.mem_singleton] at hm
    rcases hm with rfl | hm | hm
    · obtain ⟨t, ht, hmt⟩ := exists_first_of_declare (ne_nil_of_typeHead? hh) kind name c.stop
        inside.members
      refine ⟨⟨t, List.mem_append_left _ ht, hmt⟩, ?_⟩
      rintro d ⟨⟩
      exact ⟨c, by simp [tokens], rfl⟩
    · exact (ih₁ hi m hm).mono fun t ht => by simp [tokens, ht]
    · exact (ih₂ hr m hm).mono fun t ht => by simp [tokens, ht]

private theorem spans_of_mem_members {T : Tree} (hT : T.Typed) :
    ∀ m ∈ T.members, Spans T.tokens m := by
  have hrows (T : Tree) : ∀ m ∈ T.members, m ∈ (T.rows false).flatten := by
    induction T with
    | nil head => simp [members]
    | filler p rest ih => exact ih
    | plain head last rest ih =>
      exact fun m hm => List.mem_append.2 ((List.mem_append.1 hm).imp_right (ih m))
    | type kind name head o inside c rest ih₁ ih₂ =>
      intro m hm
      rw [rows, List.flatten_cons, List.flatten_append]
      rcases List.mem_cons.1 hm with rfl | hm
      · exact List.mem_cons_self
      · exact List.mem_append_right _ (List.mem_append_right _ (ih₂ m hm))
  exact fun m hm => spans_of_mem_rows hT m (hrows T m hm)

def Lined (T : Tree) : Prop := T.tokens.Pairwise Token.Ahead

structure LinedType (head : List Piece) (inside : Tree) (c : Token) (rest : Tree) : Prop where
  lined_inside : inside.Lined
  lined_rest : rest.Lined
  head_inside : ∀ t ∈ head.flatMap Piece.tokens, ∀ u ∈ inside.tokens, t.Ahead u
  head_closing : ∀ t ∈ head.flatMap Piece.tokens, t.Ahead c
  inside_closing : ∀ t ∈ inside.tokens, t.Ahead c
  closing_rest : ∀ u ∈ rest.tokens, c.Ahead u

namespace Lined

variable {kind : ClassKind} {name : Text} {head : List Piece} {p last : Piece} {o c : Token}
  {inside rest : Tree}

private theorem filler (h : (filler p rest).Lined) : rest.Lined := (List.pairwise_append.1 h).2.1

private theorem plain (h : (plain head last rest).Lined) :
    rest.Lined ∧ ∀ t ∈ head.flatMap Piece.tokens, ∀ u ∈ rest.tokens, t.Ahead u := by
  obtain ⟨-, hbehind, hhead⟩ := List.pairwise_append.1 h
  exact ⟨(List.pairwise_append.1 hbehind).2.1,
    fun t ht u hu => hhead t ht u (List.mem_append_right _ hu)⟩

private theorem type (h : (type kind name head o inside c rest).Lined) :
    LinedType head inside c rest := by
  obtain ⟨-, hbehind, hhead⟩ := List.pairwise_append.1 h
  obtain ⟨hinside, hrest, hbody⟩ := List.pairwise_append.1 hbehind
  obtain ⟨hclosing, hrest⟩ := List.pairwise_cons.1 hrest
  exact
    { lined_inside := hinside.of_cons
      lined_rest := hrest
      head_inside := fun t ht u hu => hhead t ht u (by simp [hu])
      head_closing := fun t ht => hhead t ht c (by simp)
      inside_closing := fun t ht => hbody t (List.mem_cons_of_mem _ ht) c List.mem_cons_self
      closing_rest := hclosing }

end Lined

/-- The declarations in a tree stand one head behind the other. -/
theorem pairwise_rows {top : Bool} {T : Tree} (hT : T.Typed) (h : T.Lined) :
    (T.rows top).Pairwise fun r s => ∀ m ∈ r, ∀ n ∈ s, m.Before n := by
  induction T generalizing top with
  | nil head => exact .nil
  | filler p rest ih => exact ih hT h.filler
  | plain head last rest ih =>
    obtain ⟨hrest, hbefore⟩ := h.plain
    refine .cons (fun s hs m hm n hn => ?_) (ih hT hrest)
    have hm := (plainRow_sublist top head last).subset hm
    have hn := List.mem_flatten_of_mem hs hn
    obtain ⟨t, ht, hmt⟩ := Member.exists_first_of_mem_ofHead hm
    obtain ⟨u, hu, hnu⟩ := (spans_of_mem_rows (T := rest) hT n hn).first
    exact hmt.before hnu (hbefore t ht u hu)
  | type kind name head o inside c rest ih₁ ih₂ =>
    obtain ⟨hh, hi, hr⟩ := hT
    have hinside {r : List Member} (hr : r ∈ inside.rows false) {m : Member} (hm : m ∈ r) :=
      (spans_of_mem_rows hi m (List.mem_flatten_of_mem hr hm)).first
    have hrest {s : List Member} (hs : s ∈ rest.rows top) {n : Member} (hn : n ∈ s) :=
      (spans_of_mem_rows hr n (List.mem_flatten_of_mem hs hn)).first
    obtain ⟨t, ht, hmt⟩ := exists_first_of_declare (ne_nil_of_typeHead? hh) kind name c.stop
      inside.members
    have h := h.type
    refine .cons (fun s hs m hm n hn => ?_) (List.pairwise_append.2
      ⟨ih₁ hi h.lined_inside, ih₂ hr h.lined_rest, fun r hr s hs m hm n hn => ?_⟩)
    · obtain rfl := List.mem_singleton.1 hm
      rcases List.mem_append.1 hs with hs | hs
      · obtain ⟨u, hu, hnu⟩ := hinside hs hn
        exact Member.StartsWith.before hmt hnu (h.head_inside t ht u hu)
      · obtain ⟨u, hu, hnu⟩ := hrest hs hn
        exact Member.StartsWith.before hmt hnu ((h.head_closing t ht).trans (h.closing_rest u hu))
    · obtain ⟨t, ht, hmt⟩ := hinside hr hm
      obtain ⟨u, hu, hnu⟩ := hrest hs hn
      exact hmt.before hnu ((h.inside_closing t ht).trans (h.closing_rest u hu))

private theorem pairwise_joint_rows {top : Bool} {T : Tree} :
    ∀ row ∈ T.rows top, row.Pairwise Member.Joint := by
  induction T generalizing top with
  | nil head => simp [rows]
  | filler p rest ih => exact ih
  | plain head last rest ih =>
    have hrow := (Member.pairwise_joint_ofHead head (bodyAt last)).sublist
      (plainRow_sublist top head last)
    exact List.forall_mem_cons.2 ⟨hrow, ih⟩
  | type kind name head o inside c rest ih₁ ih₂ =>
    have hbehind := List.forall_mem_append.2 ⟨@ih₁ false, @ih₂ top⟩
    exact List.forall_mem_cons.2 ⟨List.pairwise_singleton _ _, hbehind⟩

/-- The types in a row stand one behind the other. -/
theorem pairwise_nested {T : Tree} (hT : T.Typed) (h : T.Lined) :
    (T.members.filterMap Member.nested?).Pairwise fun c d => c.own.stop ≤ d.own.start := by
  induction T with
  | nil head => exact .nil
  | filler p rest ih => exact ih hT h.filler
  | plain head last rest ih =>
    rw [members, List.filterMap_append, filterMap_nested?_ofHead, List.nil_append]
    exact ih hT h.plain.1
  | type kind name head o inside c rest ih₁ ih₂ =>
    obtain ⟨hh, hi, hr⟩ := hT
    refine .cons (fun d hd => ?_) (ih₂ hr h.type.lined_rest)
    have hd := Member.mem_filterMap_nested?.1 hd
    obtain ⟨t, ht, -, hd⟩ := (spans_of_mem_members hr _ hd).first
    rw [show d.own.start = t.start from hd]
    exact (h.type.closing_rest t ht).stop_le

/-- The members of a row that are no types stand outside of its types. -/
theorem outside_of_mem_members {T : Tree} (hT : T.Typed) (h : T.Lined) {m : Member}
    (hm : m ∈ T.members) (hn : m.nested? = none) {d : ClassDecl} (hd : .nested d ∈ T.members) :
    m.Outside d.own := by
  induction T with
  | nil head => cases hm
  | filler p rest ih => exact ih hT h.filler hm hd
  | plain head last rest ih =>
    obtain ⟨hrest, hbefore⟩ := h.plain
    obtain hd | hd := List.mem_append.1 hd
    · cases nested?_of_mem_ofHead hd
    · obtain hm | hm := List.mem_append.1 hm
      · obtain ⟨t, ht, hmt⟩ := Member.exists_first_of_mem_ofHead hm
        obtain ⟨u, hu, -, hdu⟩ := (spans_of_mem_members (T := rest) hT _ hd).first
        exact hmt.outside_of_ahead hdu (hbefore t ht u hu)
      · exact ih hT hrest hm hd
  | type kind name head o inside c rest ih₁ ih₂ =>
    obtain ⟨hh, hi, hr⟩ := hT
    obtain rfl | hm := List.mem_cons.1 hm
    · cases hn
    · obtain hd | hd := List.mem_cons.1 hd
      · obtain ⟨t, ht, hmt⟩ := (spans_of_mem_members hr m hm).first
        cases hd
        exact hmt.outside_of_behind rfl (h.type.closing_rest t ht)
      · exact ih₂ hr h.type.lined_rest hm hd

/-- How the inside of a type in a tree lies. -/
theorem nests_declare (kind : ClassKind) (name : Text) {head : List Piece} {inside rest : Tree}
    {c : Token} (hne : head ≠ []) (hi : inside.Typed) (h : LinedType head inside c rest) :
    (Member.declare kind name head c.stop inside.members).Nests := by
  obtain ⟨t, ht, -, hstart⟩ := exists_first_of_declare hne kind name c.stop inside.members
  refine ⟨?_, fun n hn => ?_, pairwise_nested hi h.lined_inside, fun m hm => ?_⟩
  · rw [hstart]
    exact (h.head_closing t ht).start_lt.trans (h.head_closing t ht).second
  · have hn := Member.mem_filterMap_nested?.1 hn
    obtain ⟨⟨u, hu, -, hnu⟩, hclosing⟩ := spans_of_mem_members hi _ hn
    obtain ⟨v, hv, hnv⟩ := hclosing n rfl
    rw [hstart, show n.own.start = u.start from hnu, hnv]
    exact ⟨(h.head_inside t ht u hu).start_lt, (h.inside_closing v hv).stop_lt⟩
  · obtain ⟨hm, hnone⟩ := List.mem_filter.1 ((Member.perm_members ..).mem_iff.1 hm)
    obtain ⟨u, hu, hmu⟩ := (spans_of_mem_members hi m hm).first
    refine ⟨hmu.inside hstart rfl (h.head_inside t ht u hu) (h.inside_closing u hu),
      fun n hn => ?_⟩
    exact outside_of_mem_members hi h.lined_inside hm (Option.isNone_iff_eq_none.1 hnone)
      (Member.mem_filterMap_nested?.1 hn)

private theorem nests_of_mem_rows {top : Bool} {T : Tree} (hT : T.Typed) (h : T.Lined)
    {d : ClassDecl}
    (hd : .nested d ∈ (T.rows top).flatten) : d.Nests := by
  induction T generalizing top with
  | nil head => cases hd
  | filler p rest ih => exact ih hT h.filler hd
  | plain head last rest ih =>
    rcases List.mem_append.1 hd with hd | hd
    · cases nested?_of_mem_ofHead ((plainRow_sublist top head last).subset hd)
    · exact ih hT h.plain.1 hd
  | type kind name head o inside c rest ih₁ ih₂ =>
    obtain ⟨hh, hi, hr⟩ := hT
    rw [rows, List.flatten_cons, List.flatten_append, List.mem_append, List.mem_append,
      List.mem_singleton] at hd
    rcases hd with hd | hd | hd
    · cases hd
      exact nests_declare kind name (ne_nil_of_typeHead? hh) hi h.type
    · exact ih₁ hi h.type.lined_inside hd
    · exact ih₂ hr h.type.lined_rest hd

end Tree
end Java

namespace SourceFile

open Java

def declared (file : SourceFile) : List Member := ClassDecl.declaredEach file.classes

private theorem lined_scan (source : Text) : (Tree.scan source).Lined := by
  rw [Tree.Lined, Tree.tokens_scan]
  exact Token.pairwise_ahead source

private theorem perm_declared (path source : Text) :
    ((Tree.scan source).rows true).flatten.Perm (read path source).declared := by
  rw [declared, Tree.read_classes]
  exact Tree.perm_rows true (Tree.scan source)

/-- What is declared in a source stands among its tokens. -/
theorem spans_of_mem_declared {path source : Text} {m : Member}
    (hm : m ∈ (read path source).declared) : Tree.Spans (Token.scan source) m :=
  Tree.tokens_scan source ▸ Tree.spans_of_mem_rows (Tree.typed_scan source) m
    ((perm_declared path source).mem_iff.2 hm)

theorem isBoundary_start_of_mem_declared {path source : Text} {m : Member}
    (hm : m ∈ (read path source).declared) : Text.isBoundary m.start source := by
  obtain ⟨t, ht, -, hstart⟩ := (spans_of_mem_declared hm).first
  exact hstart ▸ (Token.isBoundary_bounds ht).1

/-- The types of a source lie inside one another, and end between characters. -/
theorem types_of_mem_declared {path source : Text} {c : ClassDecl}
    (hc : .nested c ∈ (read path source).declared) :
    Text.isBoundary c.own.stop source ∧ c.Nests := by
  refine ⟨?_, Tree.nests_of_mem_rows (Tree.typed_scan source) (lined_scan source)
    ((perm_declared path source).mem_iff.2 hc)⟩
  obtain ⟨u, hu, hstop⟩ := (spans_of_mem_declared hc).closing c rfl
  exact hstop ▸ (Token.isBoundary_bounds hu).2

/-- How the places of a source file fit together. The rows list what is declared, head by head, in the
order of the source. -/
structure Coherent (file : SourceFile) (rows : List (List Member)) : Prop where
  listed : rows.flatten.Perm file.declared
  ordered : rows.Pairwise fun r s => ∀ m ∈ r, ∀ n ∈ s, m.Before n
  joint : ∀ row ∈ rows, row.Pairwise Member.Joint
  starts : ∀ m ∈ file.declared, Text.isBoundary m.start file.source
  comments : ∀ m ∈ file.declared, ∀ d ∈ m.comment.doc?, d.Fits file.source m.start
  types : ∀ c, .nested c ∈ file.declared → Text.isBoundary c.own.stop file.source ∧ c.Nests

/-- The places of a source fit together. What different heads declare has different starts and disjoint
comments; several declarations of one head are fields that share both. A comment is a slice of the source
next to its declaration, types lie inside one another with their members outside of the inner ones, and
all offsets lie between characters. -/
theorem coherent_read (path source : Text) :
    (read path source).Coherent ((Tree.scan source).rows true) := by
  refine ⟨perm_declared path source, Tree.pairwise_rows (Tree.typed_scan source) (lined_scan source),
    Tree.pairwise_joint_rows, fun m hm => isBoundary_start_of_mem_declared hm, fun m hm d hd => ?_,
    fun c hc => types_of_mem_declared hc⟩
  obtain ⟨t, ht, hcomment, hstart⟩ := (spans_of_mem_declared hm).first
  exact hstart ▸ Token.fits_of_mem_scan ht (hcomment ▸ hd)

/-- Two fields of one declaration, an enumeration with a field behind its constants, and comments with
letters of several bytes, behind a mark that opens the file. -/
def counters : Text :=
  "\uFEFF/** Zähler */\nclass A \x7b\n  /** é */ int a, b[];\n  // x\n".toList ++
    "  enum E \x7b X; /** y */ int c; \x7d\n  void f() \x7b\x7d\n\x7d\n".toList

theorem coherent_read_counters :
    (((Tree.scan counters).rows true).map fun row =>
      row.map fun m => (m.start, m.comment.doc?.map fun d => (d.start, d.stop))) =
      [[(18, some (3, 17))], [(40, some (30, 39)), (40, some (30, 39))], [(61, none)],
        [(82, some (73, 81))], [(93, none)]] ∧
      (read [] counters).Coherent ((Tree.scan counters).rows true) :=
  ⟨by decide +kernel, coherent_read [] counters⟩

end SourceFile
end Javadoc
