import Javadoc.Proofs.Sync.Convergence

/-! The life of a synchronizer. After any sequence of resets and observations it follows the type of
the file that it observed last with success, if there is one since the last reset, and holds the
descriptions of that file. Edits come only from fields that this file and the next describe
differently. -/
namespace Javadoc

/-- Two types are the same when their paths have the same components and their names are equal. -/
theorem Container.same_iff {c d : Container} :
    c.same d ↔ Path.components c.path = Path.components d.path ∧ c.name = d.name := by
  simp [Container.same, Path.same]

private theorem Container.same_of_same_same {c d e : Container} (hc : c.same e) (hd : d.same e) :
    c.same d := by
  rw [same_iff] at hc hd ⊢
  exact ⟨hc.1.trans hd.1.symm, hc.2.trans hd.2.symm⟩

namespace Snapshot

/-- A change is about a field that both snapshots describe, and differently. -/
theorem exists_descriptions {s t : Snapshot} (h : s.changes t ≠ []) :
    ∃ key old new, s.get? key = some old ∧ t.get? key = some new ∧ old ≠ new := by
  obtain ⟨change, hc⟩ := List.exists_mem_of_ne_nil _ h
  obtain ⟨hnew, hold⟩ := mem_changes hc
  exact ⟨_, _, _, hold, OrderedMap.get?_of_mem hnew, old_ne_new hc⟩

end Snapshot

namespace Synchronizer

/-- What is done to a synchronizer. -/
inductive Call where
  | reset
  | observe (file : SourceFile)

/-- A synchronizer, and the file that it observed last with success since it was reset. -/
abbrev Life := Synchronizer × Option SourceFile

def Life.next : Life → Call → Life
  | (s, _), .reset => (s.reset, none)
  | (s, last?), .observe file =>
    match s.observe file with
    | (.ok _, s) => (s, some file)
    | (.error _, s) => (s, last?)

/-- A new synchronizer after some calls. -/
def Life.after (calls : List Call) : Life := calls.foldl next ({}, none)

/-- What a synchronizer holds that observed the given file last: nothing without a file, else its
first type and the descriptions of it. -/
def Holds (s : Synchronizer) : Option SourceFile → Prop
  | none => s = {}
  | some file => ∃ c, file.primary? = some c ∧
      s.tracked?.any (Container.same ⟨file.path, c.own.name⟩) ∧ s.snapshot = Snapshot.ofClass c

private theorem Holds.next {life : Life} (h : life.1.Holds life.2) (call : Call) :
    (life.next call).1.Holds (life.next call).2 := by
  obtain ⟨s, last?⟩ := life
  cases call with
  | reset => rfl
  | observe file =>
    rw [Life.next]
    split
    · next edits s' hobserve =>
      obtain ⟨c, hc, htracked, hsnapshot, -⟩ := observe_ok hobserve
      exact ⟨c, hc, htracked, hsnapshot⟩
    · next e s' hobserve =>
      rw [observe_error hobserve]
      exact h

private theorem holds_after (calls : List Call) :
    (Life.after calls).1.Holds (Life.after calls).2 := by
  suffices h : ∀ life : Life, life.1.Holds life.2 →
      (calls.foldl Life.next life).1.Holds (calls.foldl Life.next life).2 from h _ rfl
  induction calls with
  | nil => exact fun life h => h
  | cons call calls ih => exact fun life h => ih _ (h.next call)

/-- After any calls a new synchronizer holds what it observed last with success since it was reset.
From there a failing observation changes nothing, and one that gives edits is of the same type, at
the same path, with a field that was described otherwise. -/
theorem life_after (calls : List Call) (file : SourceFile) :
    let (s, last?) := Life.after calls
    s.Holds last? ∧
    (∀ e s', s.observe file = (.error e, s') → s' = s) ∧
    ∀ e edits s', s.observe file = (.ok (e :: edits), s') → ∃ last c c',
      last? = some last ∧ last.primary? = some c ∧ file.primary? = some c' ∧
      Container.same ⟨last.path, c.own.name⟩ ⟨file.path, c'.own.name⟩ ∧
      ∃ key old new, (Snapshot.ofClass c).get? key = some old ∧
        (Snapshot.ofClass c').get? key = some new ∧ old ≠ new := by
  have hholds := holds_after calls
  generalize Life.after calls = life at hholds
  obtain ⟨s, last?⟩ := life
  refine ⟨hholds, fun e s' h => observe_error h, fun e edits s' h => ?_⟩
  obtain ⟨c', hc', -, -, hedits⟩ := observe_ok h
  obtain ⟨htracked, hchanges, -⟩ := hedits (List.cons_ne_nil e edits)
  cases last? with
  | none =>
    cases hholds
    cases htracked
  | some last =>
    obtain ⟨c, hc, hlast, hsnapshot⟩ := hholds
    refine ⟨last, c, c', rfl, hc, hc', ?_, Snapshot.exists_descriptions (hsnapshot ▸ hchanges)⟩
    obtain ⟨id, hid, hsame⟩ := (Option.any_eq_true _ _).1 htracked
    rw [hid] at hlast
    exact Container.same_of_same_same hlast hsame

/-- The description of a field, observed after another one. -/
theorem life_after_described : ∃ e edits s',
    let (s, last?) := Life.after [.observe (SourceFile.read [] (described ['x'])), .reset,
      .observe (SourceFile.read [] (described ['x'])), .observe (SourceFile.read [] [])]
    s.observe (SourceFile.read [] (described ['y'])) = (.ok (e :: edits), s') ∧ s.Holds last? ∧
    ∃ last c c', last? = some last ∧ last.primary? = some c ∧
      (SourceFile.read [] (described ['y'])).primary? = some c' ∧
      Container.same ⟨last.path, c.own.name⟩ ⟨[], c'.own.name⟩ ∧
      ∃ key old new, (Snapshot.ofClass c).get? key = some old ∧
        (Snapshot.ofClass c').get? key = some new ∧ old ≠ new := by
  generalize hcalls : [Call.observe (SourceFile.read [] (described ['x'])), .reset,
    .observe (SourceFile.read [] (described ['x'])), .observe (SourceFile.read [] [])] = calls
  obtain ⟨hholds, -, hedits⟩ := life_after calls (SourceFile.read [] (described ['y']))
  have hevaluated : ((Life.after calls).1.observe
      (SourceFile.read [] (described ['y']))).1.toOption =
        some [.replace 26 46 "/**\n* @param a: y\n*/".toList] := by
    subst hcalls
    decide +kernel
  rcases hobserve : (Life.after calls).1.observe
    (SourceFile.read [] (described ['y'])) with ⟨result, s'⟩
  rw [hobserve] at hevaluated
  cases result with
  | error e => cases hevaluated
  | ok edits =>
    obtain rfl := Option.some.inj hevaluated
    exact ⟨_, _, s', hobserve, hholds, hedits _ _ _ hobserve⟩

end Synchronizer
end Javadoc
