import Javadoc.Proofs.Sync.Steady
import Javadoc.Proofs.ToolServer.Interleaving
import Mathlib.Data.Option.Basic

/-! The phases of requests about one file that run side by side. Along with a trace goes a run of the
requests and saves one after the other, in which a request is done when it looks at the file, or
earlier if another one looks first. As long as requests that overlap see the same, the two agree
about the file, and about what is stored or will be put back. -/
namespace Javadoc.ToolServer

open Synchronizer

/-- A request that has nothing to change, in a run of requests one after the other. -/
theorem Op.apply_idle {path : Text} {base? : Option Synchronizer} {y : Registry × FileTree}
    (h : Reads path base? y.2) (hheld : ∀ t, y.1.at? path = some t → t.Matches base?) (id : Nat) :
    let y' := apply path y (.request id)
    y'.2 = y.2 ∧ (∀ t, y'.1.at? path = some t → t.Matches base?) ∧
      (base?.isSome → (y'.1.at? path).isSome) := by
  have hidle : ((y.1.at? path).getD {}).Idle base? := by
    cases ht : y.1.at? path with
    | none => exact .inl rfl
    | some t => exact .inr (hheld t ht)
  obtain ⟨result, s, hsync, hkeeps⟩ := h.synchronize hidle
  obtain ⟨htree, hat⟩ := apply_request h.isFile hsync id
  refine ⟨htree, fun t ht => ?_, fun hbase => ?_⟩
  · rw [hat] at ht
    split at ht
    · next hk =>
      cases ht
      exact (h.after hsync).2 hk
    · cases ht
  · rw [hat, hkeeps, hbase]
    rfl

/-- The registry holds what is left of the requests that are done, or it will once those on their way
have put back what they hold. -/
structure Kept (path : Text) (x : Shared) (ops : List Op) (y : Registry × FileTree) : Prop where
  slot : ∀ s, x.registry.at? path = some s → s.Matches (y.1.at? path)
  seen : ∀ id result s, x.stage id = .seen result s → .request id ∈ ops ∧
    (Registry.keeps result → s.Matches (y.1.at? path))
  back : (y.1.at? path).isSome → (x.registry.at? path).isSome ∨
    (∃ id result s, x.stage id = .seen result s ∧ Registry.keeps result) ∨
    ∃ id s, x.stage id = .holding s ∧ .request id ∉ ops

namespace Kept

variable {path : Text} {x : Shared} {ops : List Op} {y : Registry × FileTree}
  (h : Kept path x ops y)
include h

private theorem rel (hout : ∀ id, x.stage id = .outside) :
    Option.Rel Alike (x.registry.at? path) (y.1.at? path) := by
  cases hs : x.registry.at? path with
  | some s =>
    obtain ⟨t, ht, halike⟩ := h.slot s hs
    rw [ht]
    exact .some halike
  | none =>
    cases ht : y.1.at? path with
    | none => exact .none
    | some t => simpa [ht, hs, hout] using h.back

private theorem take {id : Nat} (hno : .request id ∉ ops) :
    Kept path (x.step path (.take id)) ops y where
  slot s hs := by
    rw [Shared.at?_take] at hs
    cases hs
  seen i result s hs := by
    by_cases hi : i = id
    · subst hi
      cases Shared.stage_take_self.symm.trans hs
    · rw [Shared.stage_of_ne rfl hi] at hs
      exact h.seen i result s hs
  back _ := .inr (.inr ⟨id, _, Shared.stage_take_self, hno⟩)

private theorem putBack {id : Nat} {result : Except Error Nat} {s : Synchronizer}
    (hs : x.stage id = .seen result s) : Kept path (x.step path (.putBack id)) ops y := by
  have hat : (x.step path (.putBack id)).registry.at? path =
      if Registry.keeps result then some s else x.registry.at? path := by
    rw [Shared.step_putBack hs]
    split
    · exact Registry.at?_store_self _ _ _
    · rfl
  refine ⟨fun t ht => ?_, fun i result' t ht => ?_, fun hsome => ?_⟩
  · rw [hat] at ht
    split at ht
    · next hkeeps =>
      cases ht
      exact (h.seen id result s hs).2 hkeeps
    · exact h.slot t ht
  · exact h.seen i result' t ((Shared.stage_putBack_eq hs (by simp)).1 ht).2
  · rw [hat]
    by_cases hkeeps : Registry.keeps result
    · simp [hkeeps]
    · rw [if_neg hkeeps]
      refine (h.back hsome).imp_right (Or.imp ?_ ?_)
      · rintro ⟨i, result', t, ht, hk⟩
        have hi : i ≠ id := by
          rintro rfl
          cases hs.symm.trans ht
          exact hkeeps hk
        exact ⟨i, result', t, (Shared.stage_putBack_eq hs (by simp)).2 ⟨hi, ht⟩, hk⟩
      · rintro ⟨i, t, ht, hno⟩
        have hi : i ≠ id := by
          rintro rfl
          cases hs.symm.trans ht
        exact ⟨i, t, (Shared.stage_putBack_eq hs (by simp)).2 ⟨hi, ht⟩, hno⟩

private theorem save (k : Nat) (content : Content) :
    Kept path (x.step path (.save k content)) (ops ++ [.save k content])
      (Op.apply path y (.save k content)) where
  slot := h.slot
  seen id result s hs := (h.seen id result s hs).imp_left (List.mem_append_left _)
  back hsome := by simpa [Shared.step] using h.back hsome

end Kept

/-- When a request looks, what is stored does not change, and it gets something to put back. -/
theorem Kept.of_look {path : Text} {x : Shared} {ops : List Op} {y : Registry × FileTree} {id : Nat}
    {s s' : Synchronizer} {result : Except Error Nat} {tree : FileTree}
    (hs : x.stage id = .holding s) (hsync : s.synchronize path x.tree = (result, s', tree))
    (hslot : ∀ t, x.registry.at? path = some t → t.Matches (y.1.at? path))
    (hseen : ∀ i result t, x.stage i = .seen result t →
      .request i ∈ ops ∧ (Registry.keeps result → t.Matches (y.1.at? path)))
    (hdone : .request id ∈ ops) (hmatches : Registry.keeps result → s'.Matches (y.1.at? path))
    (hback : (y.1.at? path).isSome → Registry.keeps result ∨ (x.registry.at? path).isSome ∨
      (∃ i result t, x.stage i = .seen result t ∧ Registry.keeps result) ∨
      ∃ i t, x.stage i = .holding t ∧ .request i ∉ ops) :
    Kept path (x.step path (.look id)) ops y := by
  have hself := Shared.stage_look_self hs hsync
  have hother {i : Nat} (hi : i ≠ id) : (x.step path (.look id)).stage i = x.stage i :=
    Shared.stage_of_ne rfl hi
  have hregistry : (x.step path (.look id)).registry = x.registry := by
    rw [Shared.step_look hs hsync]
  refine ⟨hregistry ▸ hslot, fun i result' t ht => ?_, fun hsome => ?_⟩
  · by_cases hi : i = id
    · subst hi
      cases hself.symm.trans ht
      exact ⟨hdone, hmatches⟩
    · exact hseen i result' t ((hother hi).symm.trans ht)
  · rw [hregistry]
    rcases hback hsome with hkeeps | hstored | ⟨i, result', t, ht, hkeeps⟩ | ⟨i, t, ht, hno⟩
    · exact .inr (.inl ⟨id, result, s', hself, hkeeps⟩)
    · exact .inl hstored
    · have hi : i ≠ id := by
        rintro rfl
        cases hs.symm.trans ht
      exact .inr (.inl ⟨i, result', t, (hother hi).trans ht, hkeeps⟩)
    · have hi : i ≠ id := by
        rintro rfl
        exact hno hdone
      exact .inr (.inr ⟨i, t, (hother hi).trans ht, hno⟩)

structure Owner (path : Text) (x : Shared) (y : Registry × FileTree) (id : Nat) (s : Synchronizer) :
    Prop where
  holds : x.stage id = .holding s
  alike : s.Alike ((y.1.at? path).getD {})
  slot : x.registry.at? path = none
  others : ∀ i t, i ≠ id → x.stage i = .holding t → t = {}

structure Fresh (path : Text) (x : Shared) (ops : List Op) (y : Registry × FileTree) : Prop where
  tree : x.tree = y.2
  stages : ∀ id, x.stage id = .outside ∨ ∃ s, x.stage id = .holding s ∧ .request id ∉ ops
  stored : (∀ id, x.stage id = .outside) ∧ Option.Rel Alike (x.registry.at? path) (y.1.at? path) ∨
    ∃ id s, Owner path x y id s

/-- Requests look that see the same. The one that took what was stored either has looked as well, or
it counts as done before it has. -/
structure Busy (path : Text) (x : Shared) (ops : List Op) (y : Registry × FileTree)
    (base? : Option Synchronizer) : Prop where
  kept : Kept path x ops y
  reads : Reads path base? x.tree
  held : ∀ t, y.1.at? path = some t → t.Matches base?
  ahead : (x.tree = y.2 ∧ ∀ id s, x.stage id = .holding s → .request id ∉ ops ∧ s.Idle base?) ∨
    ∃ owner s result s', x.stage owner = .holding s ∧ .request owner ∈ ops ∧
      s.synchronize path x.tree = (result, s', y.2) ∧
      (Registry.keeps result → (y.1.at? path).isSome) ∧
      ∀ id t, id ≠ owner → x.stage id = .holding t → .request id ∉ ops ∧ t.Idle base?

structure Closing (path : Text) (trace pre : List Event) (x : Shared) (ops : List Op)
    (y : Registry × FileTree) : Prop where
  kept : Kept path x ops y
  tree : x.tree = y.2
  stages : ∀ id s, x.stage id ≠ .holding s
  closed : ∀ i j, x.stage i ≠ .outside → .take j ∉ pre → ¬[.take j, .putBack i].Sublist trace

section

variable {path : Text} {trace pre : List Event} {x : Shared} {ops : List Op}
  {y : Registry × FileTree} {base? : Option Synchronizer}

private theorem Kept.fresh (h : Kept path x ops y) (htree : x.tree = y.2)
    (hout : ∀ id, x.stage id = .outside) : Fresh path x ops y :=
  ⟨htree, fun id => .inl (hout id), .inl ⟨hout, h.rel hout⟩⟩

private theorem Busy.tree (h : Busy path x ops y base?) (hno : ∀ id s, x.stage id ≠ .holding s) :
    x.tree = y.2 := by
  rcases h.ahead with ⟨htree, -⟩ | ⟨owner, s, result, s', hs, -⟩
  · exact htree
  · exact absurd hs (hno owner s)

namespace Fresh

variable (h : Fresh path x ops y)
include h

private theorem take {id : Nat} (hout : x.stage id = .outside) (hno : .request id ∉ ops) :
    Fresh path (x.step path (.take id)) ops y := by
  have hother {i : Nat} (hi : i ≠ id) : (x.step path (.take id)).stage i = x.stage i :=
    Shared.stage_of_ne rfl hi
  refine ⟨h.tree, fun i => ?_, .inr ?_⟩
  · by_cases hi : i = id
    · subst hi
      exact .inr ⟨_, Shared.stage_take_self, hno⟩
    · rw [hother hi]
      exact h.stages i
  · rcases h.stored with ⟨hall, hrel⟩ | ⟨owner, s, ho⟩
    · refine ⟨id, _, Shared.stage_take_self, Alike.getD hrel, Shared.at?_take, fun i t hi ht => ?_⟩
      cases (hall i).symm.trans ((hother hi).symm.trans ht)
    · have hne : owner ≠ id := by
        rintro rfl
        cases ho.holds.symm.trans hout
      refine ⟨owner, s, (hother hne).trans ho.holds, ho.alike, Shared.at?_take,
        fun i t hi ht => ?_⟩
      by_cases hid : i = id
      · subst hid
        cases Shared.stage_take_self.symm.trans ht
        rw [ho.slot]
        rfl
      · exact ho.others i t hi ((hother hid).symm.trans ht)

private theorem save (k : Nat) (content : Content) :
    Fresh path (x.step path (.save k content)) (ops ++ [.save k content])
      (Op.apply path y (.save k content)) := by
  refine ⟨by rw [Shared.step, Op.apply, h.tree], fun id => ?_, ?_⟩
  · rcases h.stages id with hout | ⟨s, hs, hno⟩
    · exact .inl hout
    · exact .inr ⟨s, hs, by simpa using hno⟩
  · rcases h.stored with hrel | ⟨owner, s, ho⟩
    · exact .inl hrel
    · exact .inr ⟨owner, s, ho.holds, ho.alike, ho.slot, ho.others⟩

section

variable {id : Nat} {s : Synchronizer} (ho : Owner path x y id s)
include ho

/-- All but the owner have nothing to change, and they are not done when the owner is. -/
theorem others_idle {i : Nat} {t : Synchronizer} (hi : i ≠ id) (ht : x.stage i = .holding t) :
    .request i ∉ ops ++ [.request id] ∧ ∀ base?, t.Idle base? := by
  refine ⟨?_, fun base? => .inl (ho.others i t hi ht)⟩
  rcases h.stages i with hout | ⟨u, -, hno⟩
  · cases hout.symm.trans ht
  · simpa [hi] using hno

variable (hfile : x.tree.isFile path)
include hfile

/-- When the owner looks it is done. -/
theorem look_owner :
    Kept path (x.step path (.look id)) (ops ++ [.request id]) (Op.apply path y (.request id)) ∧
      (x.step path (.look id)).tree = (Op.apply path y (.request id)).2 ∧
      ∀ base?, Reads path base? x.tree → Reads path base? (x.step path (.look id)).tree ∧
        ∀ t, (Op.apply path y (.request id)).1.at? path = some t → t.Matches base? := by
  rcases hsync : s.synchronize path x.tree with ⟨result, s', tree⟩
  obtain ⟨t, hsync', halike⟩ := ho.alike.synchronize path x.tree hsync
  obtain ⟨htree, hat⟩ := Op.apply_request (h.tree ▸ hfile) (h.tree ▸ hsync') id
  have htree' : (x.step path (.look id)).tree = tree := by rw [Shared.step_look ho.holds hsync]
  refine ⟨.of_look ho.holds hsync ?_ ?_ (by simp) (fun hk => ?_) (fun hsome => .inl ?_),
    htree'.trans htree.symm, fun base? hreads => ⟨htree' ▸ (hreads.after hsync).1, fun u hu => ?_⟩⟩
  · simp [ho.slot]
  · intro i result' u hu
    rcases h.stages i with hout | ⟨v, hv, -⟩
    · cases hout.symm.trans hu
    · cases hv.symm.trans hu
  · exact ⟨t, by rw [hat, if_pos hk], halike⟩
  · by_contra hk
    simp [hat, hk] at hsome
  · rw [hat] at hu
    split at hu
    · next hk =>
      cases hu
      exact (hreads.after hsync').2 hk
    · cases hu

/-- The owner looks first. -/
theorem look_first (hreads : Reads path base? x.tree) :
    Busy path (x.step path (.look id)) (ops ++ [.request id]) (Op.apply path y (.request id))
      base? := by
  obtain ⟨hkept, htree, hbase⟩ := h.look_owner ho hfile
  obtain ⟨hreads', hheld⟩ := hbase base? hreads
  refine ⟨hkept, hreads', hheld, .inl ⟨htree, fun i t ht => ?_⟩⟩
  obtain ⟨hi, ht⟩ := (Shared.stage_look_eq_holding ho.holds).1 ht
  exact (h.others_idle ho hi ht).imp_right fun hidle => hidle base?

/-- Another request is about to look. The owner counts as done before it. -/
theorem busy {other : Nat} {t : Synchronizer} (hne : other ≠ id) (ht : x.stage other = .holding t)
    (hreads : Reads path base? x.tree) :
    Busy path x (ops ++ [.request id]) (Op.apply path y (.request id)) base? := by
  obtain ⟨hkept, htree, hbase⟩ := h.look_owner ho hfile
  obtain ⟨-, hheld⟩ := hbase base? hreads
  rcases hsync : s.synchronize path x.tree with ⟨result, s', tree⟩
  rw [Shared.step_look ho.holds hsync] at htree hkept
  refine ⟨⟨fun u hu => ?_, fun i result u hu => ?_, fun _ => ?_⟩, hreads, hheld,
    .inr ⟨id, s, result, s', ho.holds, by simp, htree ▸ hsync, fun hk => ?_,
      fun i u hi hu => (h.others_idle ho hi hu).imp_right fun hidle => hidle base?⟩⟩
  · cases ho.slot.symm.trans hu
  · rcases h.stages i with hout | ⟨v, hv, -⟩
    · cases hout.symm.trans hu
    · cases hv.symm.trans hu
  · exact .inr (.inr ⟨other, t, ht, (h.others_idle ho hne ht).1⟩)
  · obtain ⟨v, hv, -⟩ := (hkept.seen id result s' (by simp)).2 hk
    exact Option.isSome_of_eq_some hv

/-- The owner looks, and it overlaps with no other request. -/
theorem look_solo {post : List Event} (hpre : Interleaving (pre ++ .look id :: post))
    (hfits : ∀ id, (x.stage id).Fits pre id)
    (hsolo : ∀ j, ¬Overlap (pre ++ .look id :: post) id j) :
    Closing path (pre ++ .look id :: post) (pre ++ [.look id]) (x.step path (.look id))
      (ops ++ [.request id]) (Op.apply path y (.request id)) := by
  have halone : ∀ i, x.stage i ≠ .outside → i = id := fun i hout =>
    of_not_not fun hi =>
      hsolo i (hpre.overlap (Ne.symm hi) (hfits id) (hfits i) (by simp [ho.holds]) hout)
  obtain ⟨hkept, htree, -⟩ := h.look_owner ho hfile
  refine ⟨hkept, htree, fun i t ht => ?_, fun i j hi hj hbefore => ?_⟩
  · obtain ⟨hi, ht⟩ := (Shared.stage_look_eq_holding ho.holds).1 ht
    exact hi (halone i (by simp [ht]))
  · have hi : i = id := by
      by_contra hne
      rw [Shared.stage_of_ne rfl hne] at hi
      exact hne (halone i hi)
    subst hi
    have htake := ((hfits i).mem hpre (by simp [ho.holds])).1
    exact hsolo j (hpre.overlap_later htake (by simpa using hj) hbefore)

end
end Fresh

namespace Busy

variable (h : Busy path x ops y base?)
include h

private theorem take {id : Nat} (hno : .request id ∉ ops) (hout : x.stage id = .outside) :
    Busy path (x.step path (.take id)) ops y base? := by
  have hidle : ((x.registry.at? path).getD {}).Idle base? := by
    cases hs : x.registry.at? path with
    | none => exact .inl rfl
    | some s => exact .inr ((h.kept.slot s hs).trans h.held)
  have hother {i : Nat} (hi : i ≠ id) : (x.step path (.take id)).stage i = x.stage i :=
    Shared.stage_of_ne rfl hi
  have hstage (i : Nat) (t : Synchronizer)
      (ht : (x.step path (.take id)).stage i = .holding t) :
      i = id ∧ t = (x.registry.at? path).getD {} ∨ x.stage i = .holding t := by
    by_cases hi : i = id
    · subst hi
      cases Shared.stage_take_self.symm.trans ht
      exact .inl ⟨rfl, rfl⟩
    · exact .inr ((hother hi).symm.trans ht)
  refine ⟨h.kept.take hno, h.reads, h.held, ?_⟩
  rcases h.ahead with ⟨htree, hothers⟩ | ⟨owner, s, result, s', hs, hdone, hsync, hk, hothers⟩
  · refine .inl ⟨htree, fun i t ht => ?_⟩
    rcases hstage i t ht with ⟨rfl, rfl⟩ | ht
    · exact ⟨hno, hidle⟩
    · exact hothers i t ht
  · have hne : owner ≠ id := by
      rintro rfl
      cases hs.symm.trans hout
    refine .inr ⟨owner, s, result, s', (hother hne).trans hs, hdone, hsync, hk,
      fun i t hi ht => ?_⟩
    rcases hstage i t ht with ⟨rfl, rfl⟩ | ht
    · exact ⟨hno, hidle⟩
    · exact hothers i t hi ht

private theorem putBack {id : Nat} {result : Except Error Nat} {s : Synchronizer}
    (hs : x.stage id = .seen result s) :
    Busy path (x.step path (.putBack id)) ops y base? := by
  have htree : (x.step path (.putBack id)).tree = x.tree := by rw [Shared.step_putBack hs]
  refine ⟨h.kept.putBack hs, htree ▸ h.reads, h.held, ?_⟩
  simpa only [Shared.stage_putBack_eq_holding hs, htree] using h.ahead

/-- The owner looks after it was done. -/
theorem look_owner {owner : Nat} {s s' : Synchronizer} {result : Except Error Nat}
    (hs : x.stage owner = .holding s) (hdone : .request owner ∈ ops)
    (hsync : s.synchronize path x.tree = (result, s', y.2))
    (hk : Registry.keeps result → (y.1.at? path).isSome)
    (hothers : ∀ id t, id ≠ owner → x.stage id = .holding t → .request id ∉ ops ∧ t.Idle base?) :
    Busy path (x.step path (.look owner)) ops y base? := by
  obtain ⟨hreads, hmatches⟩ := h.reads.after hsync
  have htree : (x.step path (.look owner)).tree = y.2 := by rw [Shared.step_look hs hsync]
  refine ⟨.of_look hs hsync h.kept.slot h.kept.seen hdone (fun hkeeps => ?_)
    (fun hsome => .inr (h.kept.back hsome)), htree ▸ hreads, h.held, .inl ⟨htree, fun i t ht => ?_⟩⟩
  · exact (hmatches hkeeps).of_held h.held fun _ => hk hkeeps
  · obtain ⟨hi, ht⟩ := (Shared.stage_look_eq_holding hs).1 ht
    exact hothers i t hi ht

/-- A request looks that has nothing to change. -/
theorem look_idle {id : Nat} {s : Synchronizer} (hs : x.stage id = .holding s)
    (hno : .request id ∉ ops) (hidle : s.Idle base?) :
    Busy path (x.step path (.look id)) (ops ++ [.request id]) (Op.apply path y (.request id))
      base? := by
  obtain ⟨result, s', hsync, hkeeps⟩ := h.reads.synchronize hidle
  have hreads : Reads path base? y.2 := by
    rcases h.ahead with ⟨htree, -⟩ | ⟨owner, s₀, result₀, s₀', -, -, hsync₀, -⟩
    · exact htree ▸ h.reads
    · exact (h.reads.after hsync₀).1
  obtain ⟨htree, hheld, hsome⟩ := Op.apply_idle hreads h.held id
  have hmove (t : Synchronizer) (ht : t.Matches (y.1.at? path)) :
      t.Matches ((Op.apply path y (.request id)).1.at? path) :=
    (ht.trans h.held).of_held hheld hsome
  have hlater {i : Nat} (hi : i ≠ id) (hops : .request i ∉ ops) :
      .request i ∉ ops ++ [.request id] := by simpa [hi] using hops
  have htree' : (x.step path (.look id)).tree = x.tree := by rw [Shared.step_look hs hsync]
  have hkept : Kept path (x.step path (.look id)) (ops ++ [.request id])
      (Op.apply path y (.request id)) := by
    refine .of_look hs hsync (fun t ht => hmove t (h.kept.slot t ht)) (fun i result' t ht => ?_)
      (by simp) (fun hk => ((h.reads.after hsync).2 hk).of_held hheld hsome) (fun hsome' => .inl ?_)
    · obtain ⟨hops, hmatches⟩ := h.kept.seen i result' t ht
      exact ⟨List.mem_append_left _ hops, fun hk => hmove t (hmatches hk)⟩
    · obtain ⟨t, ht⟩ := Option.isSome_iff_exists.1 hsome'
      obtain ⟨b, rfl, -⟩ := hheld t ht
      exact hkeeps
  refine ⟨hkept, htree' ▸ h.reads, hheld, ?_⟩
  rw [htree', htree]
  rcases h.ahead with ⟨htree₀, hothers⟩ | ⟨owner, s₀, result₀, s₀', hs₀, hdone, hsync₀, hk, hothers⟩
  · refine .inl ⟨htree₀, fun i t ht => ?_⟩
    obtain ⟨hi, ht⟩ := (Shared.stage_look_eq_holding hs).1 ht
    exact (hothers i t ht).imp_left (hlater hi)
  · have hne : owner ≠ id := by
      rintro rfl
      exact hno hdone
    refine .inr ⟨owner, s₀, result₀, s₀', (Shared.stage_look_eq_holding hs).2 ⟨hne, hs₀⟩,
      List.mem_append_left _ hdone, hsync₀, fun hk₀ => ?_, fun i t hi ht => ?_⟩
    · obtain ⟨b, rfl, -⟩ := (h.reads.after hsync₀).2 hk₀
      exact hsome rfl
    · obtain ⟨hid, ht⟩ := (Shared.stage_look_eq_holding hs).1 ht
      exact (hothers i t hi ht).imp_left (hlater hid)

end Busy

namespace Closing

private theorem putBack (h : Closing path trace pre x ops y) {id : Nat} {result : Except Error Nat}
    {s : Synchronizer} (hs : x.stage id = .seen result s) :
    Closing path trace (pre ++ [.putBack id]) (x.step path (.putBack id)) ops y := by
  refine ⟨h.kept.putBack hs, ?_, fun i t ht => ?_, fun i j hi hj => ?_⟩
  · rw [Shared.step_putBack hs]
    exact h.tree
  · exact h.stages i t ((Shared.stage_putBack_eq_holding hs).1 ht)
  · have hstage := ((Shared.stage_putBack_eq hs hi).1 rfl).2
    exact h.closed i j (fun hout => hi (hstage.symm.trans hout)) (by simpa using hj)

private theorem save (h : Closing path trace pre x ops y) (k : Nat) (content : Content) :
    Closing path trace (pre ++ [.save k content]) (x.step path (.save k content))
      (ops ++ [.save k content]) (Op.apply path y (.save k content)) where
  kept := h.kept.save k content
  tree := by rw [Shared.step, Op.apply, h.tree]
  stages := h.stages
  closed i j hi hj := h.closed i j hi (by simpa using hj)

end Closing

inductive Phase (path : Text) (trace pre : List Event) (x : Shared) (ops : List Op)
    (y : Registry × FileTree) : Prop where
  | fresh (h : Fresh path x ops y)
  | busy (base? : Option Synchronizer) (h : Busy path x ops y base?)
    (meets : (∃ id s, x.stage id = .holding s) →
      ∃ i j s, x.stage i = .holding s ∧ .look j ∈ pre ∧ Overlap trace i j)
  | closing (h : Closing path trace pre x ops y)

namespace Phase

theorem fresh_of_outside (h : Phase path trace pre x ops y) (hout : ∀ id, x.stage id = .outside) :
    Fresh path x ops y := by
  have hno (id : Nat) (s : Synchronizer) : x.stage id ≠ .holding s := by simp [hout]
  cases h with
  | fresh h => exact h
  | busy base? h _ => exact h.kept.fresh (h.tree hno) hout
  | closing h => exact h.kept.fresh h.tree hout

variable {post : List Event} (hfits : ∀ id, (x.stage id).Fits pre id)
include hfits

theorem take {id : Nat} (hpre : Interleaving (pre ++ .take id :: post))
    (h : Phase path (pre ++ .take id :: post) pre x ops y) (hno : .request id ∉ ops) :
    Phase path (pre ++ .take id :: post) (pre ++ [.take id]) (x.step path (.take id)) ops y := by
  have hout := (hfits id).eq_outside hpre
  by_cases hall : ∀ i, x.stage i = .outside
  · exact .fresh ((h.fresh_of_outside hall).take hout hno)
  · obtain ⟨i, hi⟩ := not_forall.1 hall
    obtain ⟨htake, hput⟩ := (hfits i).mem hpre hi
    have hput : .putBack i ∈ post := by simpa using hput
    have hbefore : [.take id, .putBack i].Sublist (pre ++ .take id :: post) :=
      .trans ((List.singleton_sublist.2 hput).cons_cons _) (List.sublist_append_right _ _)
    cases h with
    | fresh h => exact .fresh (h.take hout hno)
    | closing h => exact absurd hbefore (h.closed i id hi hpre.not_mem)
    | busy base? h meets =>
      refine .busy base? (h.take hno hout) fun _ => ?_
      cases hs : x.stage i with
      | outside => exact absurd hs hi
      | holding s =>
        obtain ⟨i', j, t, ht, hj, hoverlap⟩ := meets ⟨i, s, hs⟩
        have hne : i' ≠ id := by
          rintro rfl
          cases ht.symm.trans hout
        have hother : (x.step path (.take id)).stage i' = x.stage i' :=
          Shared.stage_of_ne rfl hne
        exact ⟨i', j, t, hother.trans ht, List.mem_append_left _ hj, hoverlap⟩
      | seen result s =>
        exact ⟨id, i, _, Shared.stage_take_self, List.mem_append_left _ ((hfits i).of_seen hs).1,
          (hpre.overlap_later htake hpre.not_mem hbefore).symm⟩

theorem putBack {id : Nat} (hpre : Interleaving (pre ++ .putBack id :: post))
    (h : Phase path trace pre x ops y) : .request id ∈ ops ∧
      Phase path trace (pre ++ [.putBack id]) (x.step path (.putBack id)) ops y := by
  obtain ⟨result, s, hs⟩ := (hfits id).eq_seen hpre
  cases h with
  | fresh h =>
    rcases h.stages id with hout | ⟨t, ht, -⟩
    · cases hs.symm.trans hout
    · cases hs.symm.trans ht
  | closing h => exact ⟨(h.kept.seen id result s hs).1, .closing (h.putBack hs)⟩
  | busy base? h meets =>
    refine ⟨(h.kept.seen id result s hs).1, .busy base? (h.putBack hs) ?_⟩
    rintro ⟨i, t, ht⟩
    obtain ⟨i', j, t', ht', hj, hoverlap⟩ := meets ⟨i, t, (Shared.stage_putBack_eq_holding hs).1 ht⟩
    exact ⟨i', j, t', (Shared.stage_putBack_eq_holding hs).2 ht', List.mem_append_left _ hj,
      hoverlap⟩

theorem save {k : Nat} {content : Content} (hpre : Interleaving (pre ++ .save k content :: post))
    (h : Phase path (pre ++ .save k content :: post) pre x ops y)
    (hsame : ∀ i j k' content', Overlap (pre ++ .save k content :: post) i j →
      ¬[.look i, .save k' content', .look j].Sublist (pre ++ .save k content :: post)) :
    Phase path (pre ++ .save k content :: post) (pre ++ [.save k content])
      (x.step path (.save k content)) (ops ++ [.save k content])
      (Op.apply path y (.save k content)) := by
  cases h with
  | fresh h => exact .fresh (h.save k content)
  | closing h => exact .closing (h.save k content)
  | busy base? h meets =>
    have hno (i : Nat) (s : Synchronizer) : x.stage i ≠ .holding s := by
      intro hs
      obtain ⟨i, j, s, hs, hj, hoverlap⟩ := meets ⟨i, s, hs⟩
      obtain ⟨htake, hno⟩ := (hfits i).of_holding hs
      exact hsame j i k content hoverlap.symm
        (hpre.save_between hj (List.mem_append_left _ htake) hno)
    refine .closing ⟨h.kept.save k content, ?_, hno, fun i j hi hj hbefore => ?_⟩
    · rw [Shared.step, Op.apply, h.tree hno]
    · -- a request that began now would look after the save
      have hj : .take j ∉ pre := by simpa using hj
      have hlook : .look i ∈ pre := by
        cases hs : x.stage i with
        | outside => exact absurd hs hi
        | holding s => exact absurd hs (hno i s)
        | seen result s => exact ((hfits i).of_seen hs).1
      have hoverlap := hpre.overlap_later ((hfits i).mem hpre hi).1 hj hbefore
      exact hsame i j k content hoverlap (hpre.save_between hlook (hbefore.subset (by simp))
        fun hm => hj (hpre.take_mem hm))

theorem look {id : Nat} (hpre : Interleaving (pre ++ .look id :: post))
    (h : Phase path (pre ++ .look id :: post) pre x ops y) (hfile : x.tree.isFile path)
    (htext : ∀ j, Overlap (pre ++ .look id :: post) id j →
      ∃ text, x.tree.document path = .ok ⟨path, text⟩) :
    ∃ new, (∀ op ∈ new, op ∉ ops ∧ ∃ i, op = .request i ∧ x.stage i ≠ .outside) ∧ new.Nodup ∧
      Phase path (pre ++ .look id :: post) (pre ++ [.look id]) (x.step path (.look id)) (ops ++ new)
        (Op.applyAll path y new) := by
  obtain ⟨s, hs⟩ := (hfits id).eq_holding hpre
  have hactive : x.stage id ≠ .outside := by simp [hs]
  have hoverlap {i : Nat} (hi : i ≠ id) (hout : x.stage i ≠ .outside) :
      Overlap (pre ++ .look id :: post) id i :=
    hpre.overlap hi.symm (hfits id) (hfits i) hactive hout
  have meets : (∃ i t, (x.step path (.look id)).stage i = .holding t) →
      ∃ i j t, (x.step path (.look id)).stage i = .holding t ∧ .look j ∈ pre ++ [.look id] ∧
        Overlap (pre ++ .look id :: post) i j := by
    rintro ⟨i, t, ht⟩
    refine ⟨i, id, t, ht, List.mem_concat_self, ?_⟩
    obtain ⟨hi, ht⟩ := (Shared.stage_look_eq_holding hs).1 ht
    exact (hoverlap hi (by simp [ht])).symm
  have hone (hno : .request id ∉ ops) : ∀ op ∈ [Op.request id],
      op ∉ ops ∧ ∃ i, op = .request i ∧ x.stage i ≠ .outside := by
    simpa using ⟨hno, hactive⟩
  cases h with
  | closing h => exact absurd hs (h.stages id s)
  | fresh h =>
    have hno {i : Nat} (hi : x.stage i ≠ .outside) : .request i ∉ ops := by
      rcases h.stages i with hout | ⟨t, -, hno⟩
      · exact absurd hout hi
      · exact hno
    rcases h.stored with ⟨hout, -⟩ | ⟨owner, s₀, ho⟩
    · exact absurd (hout id) hactive
    by_cases hoverlaps : ∃ j, Overlap (pre ++ .look id :: post) id j
    · obtain ⟨j, hj⟩ := hoverlaps
      obtain ⟨text, hfound⟩ := htext j hj
      obtain ⟨base?, hreads⟩ : ∃ base?, Reads path base? x.tree := ⟨_, text, hfound, rfl⟩
      by_cases howner : id = owner
      · subst howner
        exact ⟨[.request id], hone (hno hactive), List.nodup_singleton _,
          .busy base? (h.look_first ho hfile hreads) meets⟩
      · have howner' : x.stage owner ≠ .outside := by simp [ho.holds]
        obtain ⟨hlater, hidle⟩ := h.others_idle ho howner hs
        refine ⟨[.request owner, .request id], ?_, by simp [Ne.symm howner], .busy base? ?_ meets⟩
        · simpa using ⟨⟨hno howner', howner'⟩, hno hactive, hactive⟩
        · have hbusy := h.busy ho hfile howner hs hreads
          simpa [Op.applyAll] using hbusy.look_idle hs hlater (hidle base?)
    · obtain rfl : id = owner := by
        by_contra howner
        exact hoverlaps ⟨owner, hoverlap (Ne.symm howner) (by simp [ho.holds])⟩
      exact ⟨[.request id], hone (hno hactive), List.nodup_singleton _,
        .closing (h.look_solo ho hfile hpre hfits (not_exists.1 hoverlaps))⟩
  | busy base? h _ =>
    rcases h.ahead with ⟨-, hothers⟩ | ⟨owner, s₀, result, s', hs₀, hdone, hsync, hk, hothers⟩
    · obtain ⟨hno, hidle⟩ := hothers id s hs
      exact ⟨[.request id], hone hno, List.nodup_singleton _,
        .busy base? (h.look_idle hs hno hidle) meets⟩
    · by_cases howner : id = owner
      · subst howner
        refine ⟨[], by simp, List.nodup_nil, .busy base? ?_ meets⟩
        simpa [Op.applyAll] using h.look_owner hs₀ hdone hsync hk hothers
      · obtain ⟨hno, hidle⟩ := hothers id s howner hs
        exact ⟨[.request id], hone hno, List.nodup_singleton _,
          .busy base? (h.look_idle hs hno hidle) meets⟩

end Phase
end
end Javadoc.ToolServer
