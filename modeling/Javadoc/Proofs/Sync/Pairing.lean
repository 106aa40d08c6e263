import Javadoc.Proofs.Sync.Application
import Javadoc.Proofs.Sync.Exactness

/-! Whose comment an edit takes. Declarations are paired by their bodies: an edit updates the
comment that it replaces, or that of a declaration of the same type with the same body. -/
namespace Javadoc.Synchronizer

open Java

/-- A file is observed that has no letters of tokens, nor had them when it was recorded. -/
structure PlainlyObserved (s : Synchronizer) (path source : Text) (c : ClassDecl)
    (edits : List Edit) : Prop where
  primary : (SourceFile.read path source).primary? = some c
  tracked : s.tracked?.any (Container.same ⟨path, c.own.name⟩)
  recorded : s.snapshot.Recorded
  descriptions : ∀ e ∈ s.snapshot.entries, Entry.isPlain e.2
  plain : Entry.isPlain source
  given : (s.observe (SourceFile.read path source)).1 = .ok edits

/-- Every edit updates the comment of a constructor or setter that it replaces. -/
def OwnComments (s : Synchronizer) (c : ClassDecl) (edits : List Edit) : Prop :=
  ∀ e ∈ edits, ∃ p ∈ c.entryOwners, ∃ d, p.2.comment.doc? = some d ∧
    e = .replace d.start d.stop (Entry.update
      (FieldChange.ofType (s.snapshot.changes (Snapshot.ofClass c)) p.1) d.text)

/-- An edit updates the comment of a declaration of the same type with the same body: its own one,
if no other has that body. -/
theorem PlainlyObserved.exists_update {s : Synchronizer} {path source : Text} {c : ClassDecl}
    {edits : List Edit} (h : PlainlyObserved s path source c edits)
    (hs : EntriesSheltered (s.snapshot.changes (Snapshot.ofClass c)) source) :
    ∀ e ∈ edits, ∃ p ∈ c.entryOwners, ∃ q ∈ c.entryOwners, q.1 = p.1 ∧
      q.2.flatBody? = p.2.flatBody? ∧ p.2.flatBody?.isSome ∧
      (∃ old source, p.2.comment.doc? = some old ∧ q.2.comment.doc? = some source ∧
        e = .replace old.start old.stop (Entry.update
          (FieldChange.ofType (s.snapshot.changes (Snapshot.ofClass c)) p.1) source.text)) ∧
      ((∀ r ∈ c.entryOwners, r.1 = p.1 → r.2.flatBody? = p.2.flatBody? → r = p) → q = p) := by
  obtain ⟨hc, htracked, hrecorded, hdescriptions, hplain, hobserve⟩ := h
  have hsound := Snapshot.sound_of_mem_changes hc hplain hrecorded hdescriptions
  intro e he
  have hedits : commentEdits (SourceFile.read path source) c
      (s.snapshot.changes (Snapshot.ofClass c)) = .ok edits := by
    have hpath : (SourceFile.read path source).path = path := rfl
    rw [observe, hc] at hobserve
    simp only [hpath, htracked, if_true] at hobserve
    split at hobserve
    · cases hobserve
      cases he
    · split at hobserve
      · cases hobserve
        cases he
      · split at hobserve
        · next hok => rw [hok, ← hobserve]
        · cases hobserve
  rcases commentEdits_cases hc hsound hplain hs with ⟨hnil, -⟩ | hall
  · rw [hnil] at hedits
    cases hedits
    cases he
  · rw [hall, Except.ok.injEq] at hedits
    rw [← hedits] at he
    obtain ⟨q, hq, he⟩ := List.mem_flatMap.1 (Edit.firstAtEach_subset _ he)
    obtain ⟨p, hp, he⟩ := List.mem_filterMap.1 he
    obtain ⟨hpath, hbody, hsome, source, old, hsource, hold, -, rfl⟩ := renewal?_eq_some.1 he
    refine ⟨p, hp, q, hq, hpath.symm, hbody.symm, hbody ▸ hsome,
      ⟨old, source, hold, hsource, by rw [hpath]⟩, fun hunique => ?_⟩
    exact hunique q hq hpath.symm hbody.symm

def twins (description : Char) : Text :=
  Text.joinLines ["class A \x7b /** ".toList ++ [description], "*/ int a; /** first".toList,
    "* @param a: x".toList, "*/ void setA(int a) \x7b \x7d /** second".toList,
    "* @param a: x".toList, "*/ void setB(int a) \x7b \x7d \x7d".toList]

/-- A type with two setters with different bodies. The comments in the bodies hold what would be
entries in a documentation comment. -/
def bodyEntries (description : Char) : Text :=
  Text.joinLines ["class A \x7b /** ".toList ++ [description],
    "*/ int a; /** first */ void setA(int a) \x7b /*".toList, "* @param a: x".toList,
    "*/ \x7d /** second */ void setB(int a) \x7b /*".toList, "* @param a: y".toList,
    "*/ \x7d \x7d".toList]

private theorem plainlyObserved {before after : Text} {edits : List Edit}
    (hplain : Entry.isPlain before ∧ Entry.isPlain after) {b c : ClassDecl}
    (hb : (SourceFile.read [] before).primary? = some b)
    (hc : (SourceFile.read [] after).primary? = some c)
    (hsame : Container.same ⟨[], c.own.name⟩ ⟨[], b.own.name⟩)
    (hedits : ((⟨some ⟨[], b.own.name⟩, Snapshot.ofClass b⟩ : Synchronizer).observe
      (SourceFile.read [] after)).1.toOption = some edits) :
    PlainlyObserved ⟨some ⟨[], b.own.name⟩, Snapshot.ofClass b⟩ [] after c edits := by
  refine ⟨hc, hsame, ⟨[], before, b, hb, rfl⟩,
    fun _ he => Snapshot.isPlain_of_mem_ofClass hb hplain.1 he, hplain.2, ?_⟩
  revert hedits
  cases (observe _ _).1 with
  | error _ => exact nofun
  | ok _ => exact fun h => congrArg _ (Option.some.inj h)

def twinEdits : List Edit :=
  let text := Text.joinLines ["/** first".toList, "* @param a: y".toList, "*/".toList]
  [.replace 26 52 text, .replace 74 101 text]

theorem exists_update_twins : ∃ s c, PlainlyObserved s [] (twins 'y') c twinEdits ∧
    EntriesSheltered (s.snapshot.changes (Snapshot.ofClass c)) (twins 'y') ∧
    ∀ e ∈ twinEdits, ∃ p ∈ c.entryOwners, ∃ q ∈ c.entryOwners, q.1 = p.1 ∧
      q.2.flatBody? = p.2.flatBody? ∧ p.2.flatBody?.isSome ∧
      (∃ old source, p.2.comment.doc? = some old ∧ q.2.comment.doc? = some source ∧
        e = .replace old.start old.stop (Entry.update
          (FieldChange.ofType (s.snapshot.changes (Snapshot.ofClass c)) p.1) source.text)) ∧
      ((∀ r ∈ c.entryOwners, r.1 = p.1 → r.2.flatBody? = p.2.flatBody? → r = p) → q = p) := by
  obtain ⟨b, hb⟩ := Option.isSome_iff_exists.1
    (show (SourceFile.read [] (twins 'x')).primary?.isSome by decide +kernel)
  obtain ⟨c, hc⟩ := Option.isSome_iff_exists.1
    (show (SourceFile.read [] (twins 'y')).primary?.isSome by decide +kernel)
  have hevaluated : ∀ b ∈ (SourceFile.read [] (twins 'x')).primary?,
      ∀ c ∈ (SourceFile.read [] (twins 'y')).primary?,
      Container.same ⟨[], c.own.name⟩ ⟨[], b.own.name⟩ ∧
      ((⟨some ⟨[], b.own.name⟩, Snapshot.ofClass b⟩ : Synchronizer).observe
        (SourceFile.read [] (twins 'y'))).1.toOption = some twinEdits ∧
      (Tree.ownStretches (twins 'y')).all fun s => Entry.shelters (FieldChange.ofType
        ((Snapshot.ofClass b).changes (Snapshot.ofClass c)) s.path) (Entry.charsOf s.lexemes) := by
    decide +kernel
  obtain ⟨hsame, hedits, hall⟩ := hevaluated b hb c hc
  have h := plainlyObserved (by decide +kernel) hb hc hsame hedits
  have hsound := Snapshot.sound_of_mem_changes hc h.plain h.recorded h.descriptions
  have hsheltered := entriesSheltered_of_shelters hsound hall
  exact ⟨_, c, h, hsheltered, h.exists_update hsheltered⟩

private theorem exists_foreign (before after : Text) (edits : List Edit) (e : Edit)
    (hb : (SourceFile.read [] before).primary?.isSome)
    (ha : (SourceFile.read [] after).primary?.isSome)
    (hplain : Entry.isPlain before ∧ Entry.isPlain after)
    (h : ∀ b ∈ (SourceFile.read [] before).primary?, ∀ c ∈ (SourceFile.read [] after).primary?,
      Container.same ⟨[], c.own.name⟩ ⟨[], b.own.name⟩ ∧
      ((⟨some ⟨[], b.own.name⟩, Snapshot.ofClass b⟩ : Synchronizer).observe
        (SourceFile.read [] after)).1.toOption = some edits ∧ e ∈ edits ∧
      ∀ p ∈ c.entryOwners, ∀ d ∈ p.2.comment.doc?, e ≠ .replace d.start d.stop (Entry.update
        (FieldChange.ofType ((Snapshot.ofClass b).changes (Snapshot.ofClass c)) p.1) d.text)) :
    ∃ s c, PlainlyObserved s [] after c edits ∧ ¬ OwnComments s c edits := by
  obtain ⟨b, hb⟩ := Option.isSome_iff_exists.1 hb
  obtain ⟨c, hc⟩ := Option.isSome_iff_exists.1 ha
  obtain ⟨hsame, hedits, he, hno⟩ := h b hb c hc
  refine ⟨_, c, plainlyObserved hplain hb hc hsame hedits, fun hown => ?_⟩
  obtain ⟨p, hp, d, hd, heq⟩ := hown e he
  exact hno p hp d hd heq

/-- The comment of the second setter gets lost: among declarations with one body the first comment
is taken for all of them, and an entry that is updated in one body can make it look like another. -/
theorem exists_not_ownComments :
    (∃ s c, PlainlyObserved s [] (twins 'y') c twinEdits ∧ ¬ OwnComments s c twinEdits) ∧
    ∃ s c, c.BodiesDiffer ∧
      PlainlyObserved s [] (bodyEntries 'y') c [.replace 80 93 "/** first */".toList] ∧
        ¬ OwnComments s c [.replace 80 93 "/** first */".toList] := by
  constructor
  · exact exists_foreign (twins 'x') (twins 'y') twinEdits (twinEdits.getD 1 (.insert 0 []))
      (by decide +kernel) (by decide +kernel) (by decide +kernel) (by decide +kernel)
  · obtain ⟨s, c, h, hno⟩ := exists_foreign (bodyEntries 'x') (bodyEntries 'y')
      [.replace 80 93 "/** first */".toList] (.replace 80 93 "/** first */".toList)
      (by decide +kernel) (by decide +kernel) (by decide +kernel) (by decide +kernel)
    have hdiffer : ∀ c ∈ (SourceFile.read [] (bodyEntries 'y')).primary?, c.BodiesDiffer := by
      decide +kernel
    exact ⟨s, c, hdiffer c h.primary, h, hno⟩

end Javadoc.Synchronizer
