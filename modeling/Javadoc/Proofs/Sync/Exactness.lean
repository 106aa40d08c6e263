import Javadoc.Proofs.Sync.Segments

/-! What observing a file gives: the comments of constructors and setters, each updated on its own.
The way there, over the text of the type updated in stretches and read again, leaves no trace. -/
namespace Javadoc

private theorem Edit.firstAtEach_of_pairwise {es : List Edit}
    (h : es.Pairwise fun e f => f.start ≠ e.start) : firstAtEach es = es := by
  induction h with
  | nil => rfl
  | @cons e es he _ ih =>
    rw [firstAtEach, ih, List.filter_eq_self.2 fun f hf => by simpa using he f hf]

theorem Snapshot.changes_self (s : Snapshot) : s.changes s = [] := by
  rw [changes, List.filterMap_eq_nil_iff]
  intro e he
  simp [OrderedMap.get?_of_mem he]

/-- Of the constructors and setters of one type, those with a body have different bodies, up to
blanks. -/
def ClassDecl.BodiesDiffer (c : ClassDecl) : Prop :=
  c.entryOwners.Pairwise fun p q =>
    p.1 = q.1 → p.2.flatBody? = q.2.flatBody? → p.2.flatBody? = none

instance (c : ClassDecl) : Decidable c.BodiesDiffer :=
  inferInstanceAs (Decidable (List.Pairwise _ _))

namespace Synchronizer

open Java

/-- The edit that gives a constructor or setter `p` the updated comment of `q`, if they are of one
type and have one body. -/
def renewal? (changes : List FieldChange) (q p : Text × Method) : Option Edit :=
  match q.2.flatBody?, q.2.comment.doc?, p.2.comment.doc? with
  | some body, some source, some doc =>
    let text := Entry.update (FieldChange.ofType changes q.1) source.text
    if p.1 = q.1 ∧ p.2.flatBody? = some body ∧ doc.text ≠ text then
      some (.replace doc.start doc.stop text)
    else none
  | _, _, _ => none

theorem renewal?_eq_some {changes : List FieldChange} {q p : Text × Method} {e : Edit} :
    renewal? changes q p = some e ↔ p.1 = q.1 ∧ p.2.flatBody? = q.2.flatBody? ∧
      q.2.flatBody?.isSome ∧ ∃ source doc, q.2.comment.doc? = some source ∧
        p.2.comment.doc? = some doc ∧
        doc.text ≠ Entry.update (FieldChange.ofType changes q.1) source.text ∧
        e = .replace doc.start doc.stop
          (Entry.update (FieldChange.ofType changes q.1) source.text) := by
  unfold renewal?
  split
  · next body source doc hb hs hd =>
    simp only [hb, hs, hd, Option.ite_none_right_eq_some, Option.some.injEq, Option.isSome_some]
    constructor
    · rintro ⟨⟨h₁, h₂, h₃⟩, rfl⟩
      exact ⟨h₁, h₂, trivial, source, doc, rfl, rfl, h₃, rfl⟩
    · rintro ⟨h₁, h₂, -, _, _, rfl, rfl, h₃, rfl⟩
      exact ⟨⟨h₁, h₂, h₃⟩, rfl⟩
  · next hno =>
    refine iff_of_false (by simp) ?_
    rintro ⟨-, -, hb, source, doc, hs, hd, -⟩
    obtain ⟨body, hb⟩ := Option.isSome_iff_exists.1 hb
    exact hno body source doc hb hs hd

private theorem editsFor_eq {changes : List FieldChange} {live : List (Text × Method)}
    {q q' : Text × Method}
    (h : Renewed changes q q')
    (hq : ∀ d ∈ q.2.comment.doc?, Entry.update (FieldChange.ofType changes q.1) d.text =
      Entry.renewText (FieldChange.ofType changes q.1) d.text) :
    editsFor live q'.1 q'.2 = live.filterMap (renewal? changes q) := by
  obtain ⟨path', m'⟩ := q'
  obtain ⟨rfl, hbody, hdoc⟩ := h
  simp only at hbody hdoc
  rw [editsFor, hbody]
  cases hb : q.2.flatBody? with
  | none =>
    have : renewal? changes q = fun _ => none := by
      funext p
      simp [renewal?, hb]
    simp [this]
  | some body =>
    cases hs : q.2.comment.doc? with
    | none =>
      have : renewal? changes q = fun _ => none := by
        funext p
        simp [renewal?, hs]
      rw [hs, Option.map_none, Option.map_eq_none_iff] at hdoc
      simp [this, hdoc]
    | some source =>
      rw [hs, Option.map_some] at hdoc
      obtain ⟨new, hnew, htext⟩ := Option.map_eq_some_iff.1 hdoc
      rw [hnew]
      refine List.filterMap_congr fun p _ => ?_
      simp only [renewal?, hb, hs, htext, ← hq source hs]
      cases hd : p.2.comment.doc? with
      | none => simp
      | some doc =>
        simp only [Bool.and_eq_true, beq_iff_eq]
        split
        · next hpair => simp [hpair]
        · next hpair =>
          rw [if_neg fun h => hpair ⟨h.1, h.2.1⟩]

section

variable {path source : Text} {c : ClassDecl}
  (h : (SourceFile.read path source).primary? = some c) {changes : List FieldChange}
  (hc : ∀ c ∈ changes, Entry.Sound c) (hp : Entry.isPlain source)
include h hc hp

theorem update_doc_eq {p : Text × Method} (hm : p ∈ c.entryOwners) :
    ∀ d ∈ p.2.comment.doc?, Entry.update (FieldChange.ofType changes p.1) d.text =
      Entry.renewText (FieldChange.ofType changes p.1) d.text := by
  intro d hd
  obtain ⟨l, -, -, hin, ht⟩ := exists_lexeme_of_doc h hm hd
  exact Entry.update_eq_renewText (fun c hm => (hc c (List.mem_filter.1 hm).1).readable)
    (ht ▸ Entry.isPlain_of_isInfix hp hin)

/-- Either no comment is different once it is updated, or every constructor and setter gets the
updated comments of those that it is paired with. -/
theorem commentEdits_cases (hs : EntriesSheltered changes source) :
    (commentEdits (SourceFile.read path source) c changes = .ok [] ∧
        ∀ p ∈ c.entryOwners, ∀ d ∈ p.2.comment.doc?,
          Entry.update (FieldChange.ofType changes p.1) d.text = d.text) ∨
      commentEdits (SourceFile.read path source) c changes = .ok (Edit.firstAtEach
        (c.entryOwners.flatMap fun q => c.entryOwners.filterMap (renewal? changes q))) := by
  obtain ⟨fresh, hfresh, hrel⟩ := exists_primary?_renewedText h hc hp
  have hslice : Text.slice? c.own.start c.own.stop (SourceFile.read path source).source =
      some (renewedText [] source) := (slices_primary h).2
  have hsource : (SourceFile.read path source).source = source := rfl
  have hpath : (SourceFile.read path source).path = path := rfl
  rw [commentEdits, hslice]
  simp only [hsource, hpath, updateClass_eq h hc hp hs]
  split
  · next heq =>
    refine .inl ⟨rfl, fun p hm d hd => ?_⟩
    obtain ⟨fresh', hfresh', hrel'⟩ := exists_primary?_renewedText h
      (show ∀ c ∈ ([] : List FieldChange), Entry.Sound c by simp) hp
    rw [heq, hfresh', Option.some.injEq] at hfresh
    subst hfresh
    obtain ⟨i, hi, rfl⟩ := List.getElem_of_mem hm
    have hi' : i < fresh'.entryOwners.length := by rwa [← hrel.length_eq]
    have h₁ := (hrel.get hi hi').doc
    have h₂ := (hrel'.get hi hi').doc
    simp only [List.get_eq_getElem, FieldChange.ofType, List.filter_nil, Entry.renewText_nil] at h₁ h₂
    rw [h₁, hd, Option.map_some, Option.map_some, Option.some.injEq] at h₂
    rw [update_doc_eq h hc hp hm d hd]
    exact h₂
  · right
    rw [hfresh]
    simp only [Except.ok.injEq]
    congr 1
    have hall : ∀ {live live' : List (Text × Method)}, live ⊆ c.entryOwners →
        List.Forall₂ (Renewed changes) live live' →
        (live'.flatMap fun q => editsFor c.entryOwners q.1 q.2) =
          live.flatMap fun q => c.entryOwners.filterMap (renewal? changes q) := by
      intro live live' hsub hrel
      induction hrel with
      | nil => rfl
      | cons hq _ ih =>
        obtain ⟨hm, hsub⟩ := List.cons_subset.1 hsub
        rw [List.flatMap_cons, List.flatMap_cons, ih hsub,
          editsFor_eq hq (update_doc_eq h hc hp hm)]
    exact hall (List.Subset.refl _) hrel

end

/-- The edit that updates the comment of a constructor or setter with a body, if the changes are
about it. -/
def update? (changes : List FieldChange) (p : Text × Method) : Option Edit :=
  match p.2.flatBody?, p.2.comment.doc? with
  | some _, some doc =>
    let text := Entry.update (FieldChange.ofType changes p.1) doc.text
    if text = doc.text then none else some (.replace doc.start doc.stop text)
  | _, _ => none

private theorem renewal?_self (changes : List FieldChange) (p : Text × Method) :
    renewal? changes p p = update? changes p := by
  rw [renewal?, update?]
  cases hb : p.2.flatBody? with
  | none => rfl
  | some body =>
    cases hd : p.2.comment.doc? with
    | none => rfl
    | some doc => simp [eq_comm, apply_ite]

private theorem update?_eq_none {changes : List FieldChange} {p : Text × Method}
    (h : ∀ d ∈ p.2.comment.doc?, Entry.update (FieldChange.ofType changes p.1) d.text = d.text) :
    update? changes p = none := by
  unfold update?
  split
  · next doc _ hd => simp [h doc hd]
  · rfl

theorem start_of_update? {changes : List FieldChange} {p : Text × Method} {e : Edit}
    (h : update? changes p = some e) :
    p.2.flatBody? ≠ none ∧ ∃ d, p.2.comment.doc? = some d ∧ e.start = d.start := by
  rw [← renewal?_self, renewal?_eq_some] at h
  obtain ⟨-, -, hb, _, d, -, hd, -, rfl⟩ := h
  exact ⟨by simpa [Option.isSome_iff_ne_none] using hb, d, hd, rfl⟩

/-- Where bodies are different, a constructor or setter gets its own comment. -/
theorem filterMap_renewal? {changes : List FieldChange} {live : List (Text × Method)}
    {q : Text × Method} (hq : q ∈ live) (hd : live.Pairwise fun p q =>
      p.1 = q.1 → p.2.flatBody? = q.2.flatBody? → p.2.flatBody? = none) :
    live.filterMap (renewal? changes q) = (update? changes q).toList := by
  have hnone {p : Text × Method} (h : p.1 = q.1 → p.2.flatBody? = q.2.flatBody? →
      p.2.flatBody? = none) : renewal? changes q p = none := by
    rw [Option.eq_none_iff_forall_ne_some]
    intro e he
    obtain ⟨hpath, hbody, hsome, -⟩ := renewal?_eq_some.1 he
    rw [← hbody, h hpath hbody] at hsome
    cases hsome
  induction hd with
  | nil => cases hq
  | @cons p live hp _ ih =>
    rcases List.mem_cons.1 hq with rfl | hq
    · have hrest : live.filterMap (renewal? changes q) = [] :=
        List.filterMap_eq_nil_iff.2 fun p hm => hnone fun hpath hbody =>
          hbody.trans (hp p hm hpath.symm hbody.symm)
      rw [List.filterMap_cons, hrest, renewal?_self]
      cases update? changes q <;> rfl
    · rw [List.filterMap_cons, hnone (hp q hq), ih hq]

section

variable {path source : Text} {c : ClassDecl}
  (h : (SourceFile.read path source).primary? = some c) {changes : List FieldChange}
  (hdiffer : c.BodiesDiffer)
include h hdiffer

private theorem pairwise_start_updates : (c.entryOwners.filterMap (update? changes)).Pairwise
    fun e f => f.start ≠ e.start := by
  refine List.Pairwise.filterMap _ (R := fun p q => p ∈ c.entryOwners ∧ q ∈ c.entryOwners ∧
    (p.1 = q.1 → p.2.flatBody? = q.2.flatBody? → p.2.flatBody? = none)) ?_ ?_
  · rintro p q ⟨hp, hq, hpq⟩ e he f hf heq
    obtain ⟨hb, d, hd, hds⟩ := start_of_update? he
    obtain ⟨-, d', hd', hds'⟩ := start_of_update? hf
    have := eq_of_doc_start_eq h hp hq hd hd' (by rw [← hds, ← hds', heq])
    subst this
    exact hb (hpq rfl rfl)
  · exact hdiffer.imp_of_mem fun hp hq hpq => ⟨hp, hq, hpq⟩

private theorem firstAtEach_updates :
    Edit.firstAtEach (c.entryOwners.flatMap fun q => c.entryOwners.filterMap (renewal? changes q)) =
      c.entryOwners.filterMap (update? changes) := by
  have hflat : (c.entryOwners.flatMap fun q => c.entryOwners.filterMap (renewal? changes q)) =
      c.entryOwners.filterMap (update? changes) := by
    rw [List.filterMap_eq_flatMap_toList]
    exact List.flatMap_congr fun q hq => filterMap_renewal? hq hdiffer
  rw [hflat, Edit.firstAtEach_of_pairwise (pairwise_start_updates h hdiffer)]

end

/-- Observing a file gives, one after the other, the constructors and setters whose comments the
changes of the fields of their types are about, each with its own comment updated. -/
theorem observe_eq_updates {s : Synchronizer} {path source : Text} {c : ClassDecl}
    (h : (SourceFile.read path source).primary? = some c)
    (htracked : s.tracked?.any (Container.same ⟨path, c.own.name⟩))
    (hrecorded : s.snapshot.Recorded) (hdescriptions : ∀ e ∈ s.snapshot.entries, Entry.isPlain e.2)
    (hplain : Entry.isPlain source) (hdiffer : c.BodiesDiffer)
    (hsheltered : EntriesSheltered (s.snapshot.changes (Snapshot.ofClass c)) source) :
    s.observe (SourceFile.read path source) =
      (.ok (c.entryOwners.filterMap (update? (s.snapshot.changes (Snapshot.ofClass c)))),
        { s with snapshot := Snapshot.ofClass c }) := by
  have hsound := Snapshot.sound_of_mem_changes h hplain hrecorded hdescriptions
  have hnone : c.entryOwners.filterMap (update? []) = [] := by
    refine List.filterMap_eq_nil_iff.2 fun p hm => update?_eq_none fun d hd => ?_
    rw [update_doc_eq h (by simp) hplain hm d hd]
    exact Entry.renewText_nil _
  have hpath : (SourceFile.read path source).path = path := rfl
  rw [observe, h]
  simp only [hpath, htracked, if_true]
  split
  · next heq => rw [heq, Snapshot.changes_self, hnone]
  · split
    · next hchanges => rw [hchanges, hnone]
    · rcases commentEdits_cases h hsound hplain hsheltered with ⟨hedits, hno⟩ | hedits
      · rw [hedits, List.filterMap_eq_nil_iff.2 fun p hm => update?_eq_none (hno p hm)]
      · rw [hedits, firstAtEach_updates h hdiffer]

def nestedBefore : Text := Text.joinLines (["class A \x7b /** x */ int a; /**", "* @param a: x",
  "*/ A(int a) \x7b \x7d class B \x7b /** x */ int a; /**", "* @param a: x",
  "*/ void setA(int a) \x7b \x7d \x7d \x7d"].map String.toList)

def nestedAfter : Text := Text.joinLines (["class A \x7b /** y */ int a; /**", "* @param a: x",
  "*/ A(int a) \x7b \x7d class B \x7b /** x */ int a; /**", "* @param a: x",
  "*/ void setA(int a) \x7b \x7d \x7d \x7d"].map String.toList)

/-- The entry of the inner type stays as it is. -/
theorem observe_eq_updates_nested : ∃ (before after : ClassDecl) (s : Synchronizer),
    (SourceFile.read [] nestedBefore).primary? = some before ∧
      (SourceFile.read [] nestedAfter).primary? = some after ∧
      s = ⟨some ⟨[], before.own.name⟩, Snapshot.ofClass before⟩ ∧
      (s.tracked?.any (Container.same ⟨[], after.own.name⟩) ∧ s.snapshot.Recorded ∧
        (∀ e ∈ s.snapshot.entries, Entry.isPlain e.2) ∧ Entry.isPlain nestedAfter ∧
        after.BodiesDiffer ∧
        EntriesSheltered (s.snapshot.changes (Snapshot.ofClass after)) nestedAfter) ∧
      s.observe (SourceFile.read [] nestedAfter) =
        (.ok [.replace 26 46 "/**\n* @param a: y\n*/".toList],
          { s with snapshot := Snapshot.ofClass after }) := by
  obtain ⟨before, hb⟩ := Option.isSome_iff_exists.1
    (show (SourceFile.read [] nestedBefore).primary?.isSome by decide +kernel)
  obtain ⟨after, ha⟩ := Option.isSome_iff_exists.1
    (show (SourceFile.read [] nestedAfter).primary?.isSome by decide +kernel)
  have hrecorded : (Snapshot.ofClass before).Recorded := ⟨[], nestedBefore, before, hb, rfl⟩
  have hplain : Entry.isPlain nestedAfter := by decide +kernel
  have hentries : ∀ e ∈ (Snapshot.ofClass before).entries, Entry.isPlain e.2 :=
    fun e he => Snapshot.isPlain_of_mem_ofClass hb (by decide +kernel) he
  have hsound := Snapshot.sound_of_mem_changes ha hplain hrecorded hentries
  have hevaluated : ∀ b ∈ (SourceFile.read [] nestedBefore).primary?,
      ∀ a ∈ (SourceFile.read [] nestedAfter).primary?,
        Container.same ⟨[], a.own.name⟩ ⟨[], b.own.name⟩ ∧ a.BodiesDiffer ∧
        ((Tree.ownStretches nestedAfter).all fun s => Entry.shelters (FieldChange.ofType
          ((Snapshot.ofClass b).changes (Snapshot.ofClass a)) s.path) (Entry.charsOf s.lexemes)) ∧
        a.entryOwners.filterMap (update? ((Snapshot.ofClass b).changes (Snapshot.ofClass a))) =
          [.replace 26 46 "/**\n* @param a: y\n*/".toList] := by
    decide +kernel
  obtain ⟨hsame, hdiffer, hall, hedits⟩ := hevaluated before hb after ha
  refine ⟨before, after, ⟨some ⟨[], before.own.name⟩, Snapshot.ofClass before⟩, hb, ha, rfl,
    ⟨hsame, hrecorded, hentries, hplain, hdiffer, entriesSheltered_of_shelters hsound hall⟩, ?_⟩
  have hobserve := observe_eq_updates (s := ⟨some ⟨[], before.own.name⟩, Snapshot.ofClass before⟩)
    ha hsame hrecorded hentries hplain hdiffer (entriesSheltered_of_shelters hsound hall)
  rwa [hedits] at hobserve

/-- Every line of the first type that is an entry of a changed field lies in comments outside of the
bodies of constructors and setters. Lines are those of its whole text here, with the types in it. -/
def LinesSheltered (changes : List FieldChange) (source : Text) : Prop :=
  Entry.Sheltered changes (Entry.charsOf ((Tree.ownStretches source).flatMap (·.lexemes)))

/-- A text block in front of a nested type. Its last line is no entry, but the part of the line in front
of the nested type is one. -/
def cutLine (description : Text) : Text :=
  Text.joinLines ["class A \x7b /** ".toList ++ description ++
    " */ String f; String s = \"\"\"".toList, "@param f: d\"\"\"; class B \x7b \x7d /**".toList,
    "* @param f: d\"\"\";".toList, "*/ A(String f) \x7b \x7d \x7d".toList]

def cutBefore : Text := cutLine "d\"\"\";".toList

def cutAfter : Text := cutLine "e\"\"\"; /*".toList

/-- It is not enough that whole lines are sheltered. The part of a line in front of a nested type is
updated too, and the comment that is opened there takes in the one of the constructor. -/
theorem exists_observe_ne_updates : ∃ (c : ClassDecl) (s : Synchronizer),
    (SourceFile.read [] cutAfter).primary? = some c ∧
      s.tracked?.any (Container.same ⟨[], c.own.name⟩) ∧ s.snapshot.Recorded ∧
      (∀ e ∈ s.snapshot.entries, Entry.isPlain e.2) ∧ Entry.isPlain cutAfter ∧ c.BodiesDiffer ∧
      LinesSheltered (s.snapshot.changes (Snapshot.ofClass c)) cutAfter ∧
      (s.observe (SourceFile.read [] cutAfter)).1.toOption = some [] ∧
      c.entryOwners.filterMap (update? (s.snapshot.changes (Snapshot.ofClass c))) =
        [.replace 79 103 "/**\n* @param f: e\"\"\"; /*\n*/".toList] := by
  obtain ⟨b, hb⟩ := Option.isSome_iff_exists.1
    (show (SourceFile.read [] cutBefore).primary?.isSome by decide +kernel)
  obtain ⟨c, hc⟩ := Option.isSome_iff_exists.1
    (show (SourceFile.read [] cutAfter).primary?.isSome by decide +kernel)
  have hplain : Entry.isPlain cutAfter := by decide +kernel
  have hrecorded : (Snapshot.ofClass b).Recorded := ⟨[], cutBefore, b, hb, rfl⟩
  have hentries : ∀ e ∈ (Snapshot.ofClass b).entries, Entry.isPlain e.2 :=
    fun e he => Snapshot.isPlain_of_mem_ofClass hb (by decide +kernel) he
  have hsound := Snapshot.sound_of_mem_changes hc hplain hrecorded hentries
  have hevaluated : ∀ b ∈ (SourceFile.read [] cutBefore).primary?,
      ∀ c ∈ (SourceFile.read [] cutAfter).primary?,
        Container.same ⟨[], c.own.name⟩ ⟨[], b.own.name⟩ ∧ c.BodiesDiffer ∧
        Entry.shelters ((Snapshot.ofClass b).changes (Snapshot.ofClass c))
          (Entry.charsOf ((Tree.ownStretches cutAfter).flatMap (·.lexemes))) ∧
        (observe ⟨some ⟨[], b.own.name⟩, Snapshot.ofClass b⟩
          (SourceFile.read [] cutAfter)).1.toOption = some [] ∧
        c.entryOwners.filterMap (update? ((Snapshot.ofClass b).changes (Snapshot.ofClass c))) =
          [.replace 79 103 "/**\n* @param f: e\"\"\"; /*\n*/".toList] := by
    decide +kernel
  obtain ⟨hsame, hdiffer, hshelters, hobserve, hupdates⟩ := hevaluated b hb c hc
  exact ⟨c, ⟨some ⟨[], b.own.name⟩, Snapshot.ofClass b⟩, hc, hsame, hrecorded, hentries, hplain,
    hdiffer, Entry.sheltered_of_shelters hsound hshelters, hobserve, hupdates⟩

end Synchronizer
end Javadoc
