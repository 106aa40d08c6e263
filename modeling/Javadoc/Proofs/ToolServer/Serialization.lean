import Javadoc.Proofs.ToolServer.Phases
import Mathlib.Data.List.Permutation

/-! Requests about one file that run side by side leave what the same requests leave one after the
other, as long as those that overlap see the same file. -/
namespace Javadoc.ToolServer

open Synchronizer

section

variable {path : Text} {r : Registry} {tree : FileTree} {trace : List Event}
  (hfile : tree.isFile path) (htrace : Interleaving trace)
  (hsees : SeesAlike path ⟨r, tree, fun _ => .outside⟩ trace)
include hfile htrace hsees

/-- At any time some requests and saves are done that serialize what has happened so far. -/
theorem exists_phase {pre post : List Event} (h : trace = pre ++ post) : ∃ ops, Progress pre ops ∧
    Phase path trace pre (Shared.run path ⟨r, tree, fun _ => .outside⟩ pre) ops
      (Op.applyAll path (r, tree) ops) := by
  induction pre using List.reverseRecOn generalizing post with
  | nil =>
    have hstored : Option.Rel Alike (r.at? path) (r.at? path) := by
      cases r.at? path with
      | none => exact .none
      | some s => exact .some (.refl s)
    exact ⟨[], ⟨List.nodup_nil, by simp, by simp, by simp⟩,
      .fresh ⟨rfl, fun _ => .inl rfl, .inl ⟨fun _ => rfl, hstored⟩⟩⟩
  | append_singleton pre e ih =>
    rw [List.append_assoc] at h
    obtain ⟨ops, hprogress, hphase⟩ := ih h
    obtain rfl := h
    have hfits : ∀ id, ((Shared.run path ⟨r, tree, fun _ => .outside⟩ pre).stage id).Fits pre id :=
      fun id => htrace.fits id
    rw [Shared.run_concat]
    cases e with
    | take id =>
      exact ⟨ops, hprogress.pass htrace (fun op hop => nomatch hop),
        hphase.take hfits htrace (hprogress.not_mem_of_starts htrace rfl)⟩
    | look id =>
      have hfile := Shared.isFile_run (x := ⟨r, tree, fun _ => .outside⟩) hfile pre
      obtain ⟨new, hnew, hn, hphase⟩ := hphase.look hfits htrace hfile
        fun j hj => hsees.text id j pre post hj rfl
      refine ⟨ops ++ new, hprogress.extend htrace ?_ (fun op hop => ?_) (fun op hop => nomatch hop),
        by rwa [Op.applyAll_append]⟩
      · exact List.nodup_append.2 ⟨hprogress.nodup, hn,
          fun a ha b hb heq => (hnew b hb).1 (heq ▸ ha)⟩
      · obtain ⟨-, i, rfl, hi⟩ := hnew op hop
        exact ⟨.take i, List.mem_append_left _ ((hfits i).mem htrace hi).1, rfl⟩
    | putBack id =>
      obtain ⟨hdone, hphase⟩ := hphase.putBack hfits htrace
      exact ⟨ops, hprogress.pass htrace (fun op hop => Option.some.inj hop ▸ hdone), hphase⟩
    | save k content =>
      have hno : .save k content ∉ ops := hprogress.not_mem_of_starts htrace rfl
      refine ⟨ops ++ [.save k content], hprogress.extend htrace ?_ (fun op hop => ?_)
        (fun op hop => ?_), ?_⟩
      · exact List.nodup_append.2 ⟨hprogress.nodup, List.nodup_singleton _,
          fun a ha b hb heq => hno (List.mem_singleton.1 hb ▸ heq ▸ ha)⟩
      · exact ⟨.save k content, List.mem_concat_self, (List.mem_singleton.1 hop) ▸ rfl⟩
      · exact Option.some.inj hop ▸ List.mem_concat_self
      · rw [Op.applyAll_append]
        exact hphase.save hfits htrace hsees.same

end

/-- The last request comes after every save that some request began after. -/
theorem Serializes.mem_of_save {trace : List Event} {before after : List Op} {id : Nat}
    (h : Serializes trace (before ++ .request id :: after))
    (hafter : ∀ op ∈ after, ∃ k content, op = .save k content) {j k : Nat} {content : Content}
    (hbefore : [.save k content, .take j].Sublist trace) : .save k content ∈ before := by
  have horder := h.order _ _ _ _ hbefore rfl rfl
  have hn := h.nodup
  rw [List.append_cons] at horder hn
  have hmem : Op.request j ∈ before ++ [Op.request id] ++ after := horder.subset (by simp)
  have hj : Op.request j ∈ before ++ [Op.request id] :=
    (List.mem_append.1 hmem).resolve_right fun hm => by
      obtain ⟨k, content, heq⟩ := hafter _ hm
      cases heq
  simpa using mem_front_of_pair_sublist hn horder hj

/-- Requests about a file run side by side and the user saves it in between; those that overlap see
the same. Then they leave what the same requests and saves leave one after the other in some order
that agrees with the trace. The last request of that order takes notice of every save that came
before some request. -/
theorem exists_serialization {path : Text} {r : Registry} {tree : FileTree} {trace : List Event}
    (hfile : tree.isFile path) (htrace : Interleaving trace)
    (hsees : SeesAlike path ⟨r, tree, fun _ => .outside⟩ trace) :
    ∃ ops, Serializes trace ops ∧
      let x := Shared.run path ⟨r, tree, fun _ => .outside⟩ trace
      let y := Op.applyAll path (r, tree) ops
      x.tree = y.2 ∧ Option.Rel Alike (x.registry.at? path) (y.1.at? path) ∧
      ∀ (before : List Op) (id : Nat) (after : List Op), ops = before ++ Op.request id :: after →
        (∀ op ∈ after, ∃ k content, op = Op.save k content) →
        (∀ j k content, [.save k content, .take j].Sublist trace → Op.save k content ∈ before) ∧
        let z := Op.applyAll path (r, tree) before
        let z' := Op.applyAll path z [.request id]
        Noticed path ((z.1.at? path).getD {}) z.2 (z'.1.at? path) z'.2 := by
  obtain ⟨ops, hprogress, hphase⟩ :=
    exists_phase hfile htrace hsees (List.append_nil trace).symm
  have hserializes := hprogress.serializes htrace
  refine ⟨ops, hserializes, ?_⟩
  have hout (id : Nat) :
      (Shared.run path ⟨r, tree, fun _ => .outside⟩ trace).stage id = .outside := by
    rw [← List.append_nil trace] at htrace
    by_contra hactive
    exact List.not_mem_nil ((htrace.fits id).mem htrace hactive).2
  have hfresh := hphase.fresh_of_outside hout
  refine ⟨hfresh.tree, ?_, ?_⟩
  · rcases hfresh.stored with ⟨-, hstored⟩ | ⟨owner, s, ho⟩
    · exact hstored
    · cases ho.holds.symm.trans (hout owner)
  · rintro before id after rfl hafter
    refine ⟨fun j k content => hserializes.mem_of_save hafter, ?_⟩
    have hfile' := Op.isFile_applyAll (y := (r, tree)) hfile before
    rcases hsync : (((Op.applyAll path (r, tree) before).1.at? path).getD {}).synchronize path
      (Op.applyAll path (r, tree) before).2 with ⟨result, s, tree'⟩
    obtain ⟨htree, hat⟩ := Op.apply_request hfile' hsync id
    have hnoticed := noticed_synchronize hsync
    rw [← hat, ← htree] at hnoticed
    exact hnoticed

def sharedPath : Text := "A.java".toList

def sharedTree (description : Text) : FileTree :=
  FileTree.put {} [sharedPath] (.file (.text (described description)))

def sameAtOnce : List Event :=
  [.take 0, .look 0, .putBack 0, .save 0 (.text (described ['y'])), .take 1, .take 2, .look 2,
    .look 1, .putBack 1, .putBack 2]

theorem exists_serialization_sameAtOnce :
    let x := Shared.run sharedPath ⟨.empty, sharedTree ['x'], fun _ => .outside⟩ sameAtOnce
    ∃ ops, Serializes sameAtOnce ops ∧
      let y := Op.applyAll sharedPath (.empty, sharedTree ['x']) ops
      x.tree = y.2 ∧ Option.Rel Alike (x.registry.at? sharedPath) (y.1.at? sharedPath) := by
  have hfile : (sharedTree ['x']).isFile sharedPath := by decide +kernel
  have htrace : Interleaving sameAtOnce := by decide
  have hsees : SeesAlike sharedPath ⟨.empty, sharedTree ['x'], fun _ => .outside⟩ sameAtOnce := by
    refine ⟨fun i j k content hoverlap hsave => ?_, fun i j before after _ heq => ?_⟩
    · have hi : Event.look i ∈ sameAtOnce := hsave.subset (by simp)
      have hj : Event.look j ∈ sameAtOnce := hsave.subset (by simp)
      have hk : Event.save k content ∈ sameAtOnce := hsave.subset (by simp)
      simp only [sameAtOnce, List.mem_cons, reduceCtorEq, Event.look.injEq, Event.save.injEq,
        List.not_mem_nil, false_or, or_false] at hi hj hk
      obtain ⟨rfl, rfl⟩ := hk
      revert hoverlap hsave
      rcases hi with rfl | rfl | rfl <;> rcases hj with rfl | rfl | rfl <;> decide
    · have htext : ∀ front ∈ sameAtOnce.inits, ((Shared.run sharedPath ⟨.empty, sharedTree ['x'],
          fun _ => .outside⟩ front).tree.document sharedPath).toOption.isSome := by
        decide +kernel
      have hsome := htext before ((List.mem_inits _ _).2 ⟨_, heq.symm⟩)
      rcases hfound : (Shared.run sharedPath ⟨.empty, sharedTree ['x'],
        fun _ => .outside⟩ before).tree.document sharedPath with e | ⟨p, text⟩
      · rw [hfound] at hsome
        cases hsome
      · obtain rfl : p = sharedPath := (FileTree.document_eq_ok_iff.1 hfound).1
        exact ⟨text, rfl⟩
  obtain ⟨ops, hserializes, htree, hstored, -⟩ := exists_serialization hfile htrace hsees
  exact ⟨ops, hserializes, htree, hstored⟩

/-- The user saves between the looks of two requests, and the older synchronizer is put back
first. -/
def savedBetween : List Event :=
  [.take 0, .look 0, .putBack 0, .take 1, .look 1, .save 0 (.text (described ['y'])), .take 2,
    .look 2, .putBack 1, .putBack 2]

def unreadAtOnce : List Event :=
  [.take 0, .look 0, .putBack 0, .save 0 .bytes, .take 1, .take 2, .look 1, .look 2, .putBack 1,
    .putBack 2]

def typelessBetween : List Event :=
  [.take 0, .look 0, .putBack 0, .save 0 (.text []), .take 1, .look 1, .putBack 1,
    .save 1 (.text (described ['y'])), .take 2, .look 2, .putBack 2]

/-- If requests at once do not see the same, what they leave need not be what the same requests leave
one after the other: an update of the file is lost, or what was recorded of it. And if the type is
gone for a while, the description that it has when it is back is recorded, and no entry follows. -/
theorem exists_lost_update :
    (∀ trace ∈ [savedBetween, unreadAtOnce], Interleaving trace ∧ ∀ ops, Serializes trace ops →
      let x := Shared.run sharedPath ⟨.empty, sharedTree ['x'], fun _ => .outside⟩ trace
      let y := Op.applyAll sharedPath (.empty, sharedTree ['x']) ops
      ¬(x.tree = y.2 ∧
        (x.registry.at? sharedPath).map snapshot = (y.1.at? sharedPath).map snapshot)) ∧
    let x := Shared.run sharedPath ⟨.empty, sharedTree ['x'], fun _ => .outside⟩ typelessBetween
    x.tree = sharedTree ['y'] ∧ (x.registry.at? sharedPath).map snapshot =
      (SourceFile.read sharedPath (described ['y'])).primary?.map Snapshot.ofClass := by
  have hevaluated : ∀ trace ∈ [savedBetween, unreadAtOnce],
      ∀ ops ∈ (trace.filterMap Event.starts?).permutations',
        (∀ e ∈ trace, ∀ f ∈ trace, [e, f].Sublist trace → ∀ a ∈ e.ends?, ∀ b ∈ f.starts?,
          [a, b].Sublist ops) →
        let x := Shared.run sharedPath ⟨.empty, sharedTree ['x'], fun _ => .outside⟩ trace
        let y := Op.applyAll sharedPath (.empty, sharedTree ['x']) ops
        ¬(x.tree = y.2 ∧
          (x.registry.at? sharedPath).map snapshot = (y.1.at? sharedPath).map snapshot) := by
    decide +kernel
  refine ⟨fun trace htrace => ?_, by decide +kernel⟩
  have hinterleaving : Interleaving trace := by
    revert trace
    decide
  refine ⟨hinterleaving, fun ops hops => hevaluated trace htrace ops ?_ ?_⟩
  · exact List.mem_permutations'.2 (hops.perm hinterleaving.nodup)
  · exact fun e _ f _ hef a ha b hb => hops.order e f a b hef ha hb

end Javadoc.ToolServer
