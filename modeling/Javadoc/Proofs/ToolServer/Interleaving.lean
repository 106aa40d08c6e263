import Javadoc.Proofs.Sync.Registry
import Javadoc.ToolServer
import Mathlib.Data.List.Nodup
import Mathlib.Logic.Function.Basic

/-! Requests about one file that run side by side. A request takes the synchronizer of the path from
the registry, looks at the file, and puts the synchronizer back; in between other requests take
their steps, and the user saves the file. A trace is serialized by requests and saves that are done
one after the other, each within its time. -/
namespace Javadoc.ToolServer

inductive Stage where
  | outside
  | holding (s : Synchronizer)
  | seen (result : Except Error Nat) (s : Synchronizer)

/-- What the requests share, and how far each of them has come. -/
structure Shared where
  registry : Registry
  tree : FileTree
  stage : Nat → Stage := fun _ => .outside

/-- A step of a request, or the user saves the file. Numbers tell requests from each other, and saves
as well. -/
inductive Event where
  | take (id : Nat)
  | look (id : Nat)
  | putBack (id : Nat)
  | save (id : Nat) (content : Content)
  deriving DecidableEq

def Event.request? : Event → Option Nat
  | .take id | .look id | .putBack id => some id
  | .save _ _ => none

namespace Shared

/-- One step at a path where there is a file. A request that finds no synchronizer goes on with a new
one, and it puts none back if the file has no type. -/
def step (path : Text) (x : Shared) : Event → Shared
  | .take id =>
    { x with
      registry := x.registry.forget path
      stage := Function.update x.stage id (.holding ((x.registry.at? path).getD {})) }
  | .look id =>
    match x.stage id with
    | .holding s =>
      match s.synchronize path x.tree with
      | (result, s, tree) => { x with tree, stage := Function.update x.stage id (.seen result s) }
    | _ => x
  | .putBack id =>
    match x.stage id with
    | .seen result s =>
      { x with
        registry := if Registry.keeps result then x.registry.store path s else x.registry
        stage := Function.update x.stage id .outside }
    | _ => x
  | .save _ content => { x with tree := x.tree.overwrite path content }

/-- The steps of a trace. -/
def run (path : Text) (x : Shared) (trace : List Event) : Shared := trace.foldl (step path) x

theorem run_concat (path : Text) (x : Shared) (trace : List Event) (e : Event) :
    run path x (trace ++ [e]) = step path (run path x trace) e := by
  rw [run, List.foldl_concat, run]

section

variable {path : Text} {x : Shared} {id i : Nat} {s t : Synchronizer}
  {result result' : Except Error Nat}

/-- A step of one request does not take others further. -/
theorem stage_step {e : Event} (h : e.request? ≠ some i) : (x.step path e).stage i = x.stage i := by
  have hne {id : Nat} (hid : some id ≠ some i) : i ≠ id := fun heq => hid (heq ▸ rfl)
  cases e with
  | take id => exact Function.update_of_ne (hne h) _ _
  | look id =>
    rw [step]
    split
    · exact Function.update_of_ne (hne h) _ _
    · rfl
  | putBack id =>
    rw [step]
    split
    · exact Function.update_of_ne (hne h) _ _
    · rfl
  | save k content => rfl

theorem stage_of_ne {e : Event} (he : e.request? = some id) (hi : i ≠ id) :
    (x.step path e).stage i = x.stage i :=
  stage_step fun h => hi (Option.some.inj (h.symm.trans he))

theorem stage_take_self :
    (x.step path (.take id)).stage id = .holding ((x.registry.at? path).getD {}) :=
  Function.update_self ..

theorem at?_take : (x.step path (.take id)).registry.at? path = none :=
  Registry.at?_forget_self x.registry path

theorem step_look {s' : Synchronizer} {tree : FileTree} (h : x.stage id = .holding s)
    (hs : s.synchronize path x.tree = (result, s', tree)) :
    x.step path (.look id) = ⟨x.registry, tree, Function.update x.stage id (.seen result s')⟩ := by
  simp only [step, h, hs]

theorem stage_look_self {s' : Synchronizer} {tree : FileTree} (h : x.stage id = .holding s)
    (hs : s.synchronize path x.tree = (result, s', tree)) :
    (x.step path (.look id)).stage id = .seen result s' := by
  rw [step_look h hs]
  exact Function.update_self ..

theorem stage_look_eq_holding (h : x.stage id = .holding s) :
    (x.step path (.look id)).stage i = .holding t ↔ i ≠ id ∧ x.stage i = .holding t := by
  by_cases hi : i = id
  · simp [hi, stage_look_self h rfl]
  · rw [stage_of_ne rfl hi]
    simp [hi]

theorem step_putBack (h : x.stage id = .seen result s) :
    x.step path (.putBack id) =
      ⟨if Registry.keeps result then x.registry.store path s else x.registry, x.tree,
        Function.update x.stage id .outside⟩ := by
  simp only [step, h]

theorem stage_putBack_eq (h : x.stage id = .seen result s) {stage : Stage}
    (hstage : stage ≠ .outside) :
    (x.step path (.putBack id)).stage i = stage ↔ i ≠ id ∧ x.stage i = stage := by
  by_cases hi : i = id
  · simp [hi, step_putBack h, hstage.symm]
  · rw [stage_of_ne rfl hi]
    simp [hi]

theorem stage_putBack_eq_holding (h : x.stage id = .seen result s) :
    (x.step path (.putBack id)).stage i = .holding t ↔ x.stage i = .holding t := by
  rw [stage_putBack_eq h (by simp), and_iff_right_iff_imp]
  rintro ht rfl
  cases h.symm.trans ht

end

/-- Where there is a file it stays. -/
theorem isFile_step {path : Text} {x : Shared} (h : x.tree.isFile path) (e : Event) :
    (x.step path e).tree.isFile path := by
  cases e with
  | take id => exact h
  | look id =>
    cases hs : x.stage id with
    | holding s =>
      rcases hsync : s.synchronize path x.tree with ⟨result, s', tree⟩
      rw [step_look hs hsync]
      exact Synchronizer.isFile_synchronize h hsync
    | _ => simpa only [step, hs] using h
  | putBack id =>
    cases hs : x.stage id with
    | seen result s =>
      rw [step_putBack hs]
      exact h
    | _ => simpa only [step, hs] using h
  | save k content => exact FileTree.isFile_overwrite h content

theorem isFile_run {path : Text} {x : Shared} (h : x.tree.isFile path) (trace : List Event) :
    (x.run path trace).tree.isFile path := by
  induction trace generalizing x with
  | nil => exact h
  | cons e trace ih => exact ih (isFile_step h e)

/-- A request whose steps follow each other is answered as if it were the only one. -/
theorem run_request {path : Text} {r : Registry} {tree : FileTree} (h : tree.isFile path)
    (stage : Nat → Stage) (id : Nat) :
    let x := run path ⟨r, tree, stage⟩ [.take id, .look id, .putBack id]
    (x.registry, x.tree) = (documentChanged path r tree).2 := by
  rcases hsync : ((r.at? path).getD {}).synchronize path tree with ⟨result, s, tree'⟩
  have hforget : (r.forget path).forget path = r.forget path :=
    OrderedMap.ext_get? fun key => by
      by_cases hkey : key = Path.components path
      · rw [hkey]
        exact (Registry.at?_forget_self _ _).trans (Registry.at?_forget_self _ _).symm
      · rw [Registry.forget, OrderedMap.get?_erase_of_ne hkey]
  simp [run, step, documentChanged, h, hsync, Registry.settle_eq, hforget]

end Shared

/-- A trace in which every request that takes a step takes all three, in their order. -/
structure Interleaving (trace : List Event) : Prop where
  nodup : trace.Nodup
  steps : ∀ id ∈ trace.filterMap Event.request?,
    [.take id, .look id, .putBack id].Sublist trace

instance (trace : List Event) : Decidable (Interleaving trace) :=
  decidable_of_iff (trace.Nodup ∧ ∀ id ∈ trace.filterMap Event.request?,
    [.take id, .look id, .putBack id].Sublist trace) ⟨fun h => ⟨h.1, h.2⟩, fun h => ⟨h.1, h.2⟩⟩

private theorem Interleaving.sublist {trace : List Event} (h : Interleaving trace) {e : Event}
    {id : Nat}
    (he : e ∈ trace) (hid : e.request? = some id) :
    [.take id, .look id, .putBack id].Sublist trace :=
  h.steps id (List.mem_filterMap.2 ⟨e, he, hid⟩)

/-- A request that is answered at once, or a save. -/
inductive Op where
  | request (id : Nat)
  | save (id : Nat) (content : Content)
  deriving DecidableEq

namespace Op

def apply (path : Text) : Registry × FileTree → Op → Registry × FileTree
  | (r, tree), .request _ => (documentChanged path r tree).2
  | (r, tree), .save _ content => (r, tree.overwrite path content)

/-- What is done to the registry and to the files, one after the other. -/
def applyAll (path : Text) (y : Registry × FileTree) (ops : List Op) : Registry × FileTree :=
  ops.foldl (apply path) y

theorem applyAll_append (path : Text) (y : Registry × FileTree) (ops ops' : List Op) :
    applyAll path y (ops ++ ops') = applyAll path (applyAll path y ops) ops' :=
  List.foldl_append

theorem apply_request {path : Text} {y : Registry × FileTree} (h : y.2.isFile path)
    {result : Except Error Nat} {s : Synchronizer} {tree : FileTree}
    (hs : ((y.1.at? path).getD {}).synchronize path y.2 = (result, s, tree)) (id : Nat) :
    (apply path y (.request id)).2 = tree ∧
      (apply path y (.request id)).1.at? path = if Registry.keeps result then some s else none := by
  simp [apply, documentChanged, h, hs, Registry.at?_settle_self]

theorem isFile_applyAll {path : Text} {y : Registry × FileTree} (h : y.2.isFile path)
    (ops : List Op) : (applyAll path y ops).2.isFile path := by
  induction ops generalizing y with
  | nil => exact h
  | cons op ops ih =>
    refine ih ?_
    cases op with
    | save k content => exact FileTree.isFile_overwrite h content
    | request id =>
      rcases hsync : ((y.1.at? path).getD {}).synchronize path y.2 with ⟨result, s, tree⟩
      rw [(apply_request h hsync id).1]
      exact Synchronizer.isFile_synchronize h hsync

end Op

namespace Event

def starts? : Event → Option Op
  | .take id => some (.request id)
  | .save id content => some (.save id content)
  | _ => none

def ends? : Event → Option Op
  | .putBack id => some (.request id)
  | .save id content => some (.save id content)
  | _ => none

private theorem starts?_inj {e f : Event} {op : Op} (he : e.starts? = some op)
    (hf : f.starts? = some op) :
    e = f := by
  cases op <;> cases e <;> cases he <;> cases f <;> cases hf <;> rfl

end Event

/-- The requests and saves of a trace one after the other. What ends before another starts comes
before it. -/
structure Serializes (trace : List Event) (ops : List Op) : Prop where
  nodup : ops.Nodup
  mem_iff : ∀ op, op ∈ ops ↔ ∃ e ∈ trace, e.starts? = some op
  order : ∀ e f x y, [e, f].Sublist trace → e.ends? = some x → f.starts? = some y →
    [x, y].Sublist ops

/-- The operations of a trace are what its events start. -/
theorem Serializes.perm {trace : List Event} {ops : List Op} (h : Serializes trace ops)
    (hn : trace.Nodup) : ops.Perm (trace.filterMap Event.starts?) := by
  have hn' : (trace.filterMap Event.starts?).Nodup :=
    hn.filterMap fun e f op he hf => Event.starts?_inj he hf
  refine (List.perm_ext_iff_of_nodup h.nodup hn').2 fun op => ?_
  rw [h.mem_iff, List.mem_filterMap]

def Overlap (trace : List Event) (i j : Nat) : Prop :=
  i ≠ j ∧ [.take i, .putBack j].Sublist trace ∧ [.take j, .putBack i].Sublist trace

instance (trace : List Event) (i j : Nat) : Decidable (Overlap trace i j) :=
  inferInstanceAs (Decidable (_ ∧ _))

theorem Overlap.symm {trace : List Event} {i j : Nat} (h : Overlap trace i j) : Overlap trace j i :=
  ⟨h.1.symm, h.2.2, h.2.1⟩

/-- Requests that overlap see the same: no save comes between their looks, and they find a text. -/
structure SeesAlike (path : Text) (x : Shared) (trace : List Event) : Prop where
  same : ∀ i j k content, Overlap trace i j →
    ¬[.look i, .save k content, .look j].Sublist trace
  text : ∀ i j before after, Overlap trace i j → trace = before ++ .look i :: after →
    ∃ text, (x.run path before).tree.document path = .ok ⟨path, text⟩

section

variable {α : Type} {l front back : List α} {a b c : α}

private theorem pair_sublist_iff :
    [a, b].Sublist l ↔ ∃ front back, l = front ++ back ∧ a ∈ front ∧ b ∈ back := by
  rw [List.cons_sublist_iff]
  simp only [List.singleton_sublist]

private theorem pair_sublist_append (ha : a ∈ front) (hb : b ∈ back) :
    [a, b].Sublist (front ++ back) :=
  pair_sublist_iff.2 ⟨front, back, rfl, ha, hb⟩

theorem mem_front_of_pair_sublist (hn : (front ++ back).Nodup) (h : [a, b].Sublist (front ++ back))
    (hb : b ∈ front) : a ∈ front := by
  obtain ⟨front', back', heq, ha, hb'⟩ := pair_sublist_iff.1 h
  rcases List.append_eq_append_iff.1 heq with ⟨m, rfl, rfl⟩ | ⟨m, rfl, rfl⟩
  · have hne := (List.nodup_append.1 hn).2.2 b hb b (List.mem_append_right m hb')
    exact absurd rfl hne
  · exact List.mem_append_left m ha

private theorem pair_sublist_concat (h : [a, b].Sublist (l ++ [c])) :
    [a, b].Sublist l ∨ a ∈ l ∧ b = c := by
  obtain ⟨front, back, heq, ha, hb⟩ := pair_sublist_iff.1 h
  rcases List.eq_nil_or_concat' back with rfl | ⟨back, d, rfl⟩
  · cases hb
  · rw [← List.append_assoc] at heq
    obtain ⟨rfl, hd⟩ := List.append_inj' heq rfl
    obtain rfl := List.singleton_inj.1 hd
    rcases List.mem_append.1 hb with hb | hb
    · exact .inl (pair_sublist_append ha hb)
    · exact .inr ⟨List.mem_append_left _ ha, List.mem_singleton.1 hb⟩

end

namespace Interleaving

variable {pre post : List Event} (h : Interleaving (pre ++ post)) {id : Nat}
include h

theorem take_mem (hm : .look id ∈ pre) : .take id ∈ pre :=
  mem_front_of_pair_sublist h.nodup
    (.trans (by simp) (h.sublist (List.mem_append_left post hm) rfl)) hm

private theorem look_mem (hm : .putBack id ∈ pre) : .look id ∈ pre :=
  mem_front_of_pair_sublist h.nodup
    (.trans (by simp) (h.sublist (List.mem_append_left post hm) rfl)) hm

omit h in
theorem not_mem {e : Event} (h : Interleaving (pre ++ e :: post)) : e ∉ pre :=
  fun hm => (List.nodup_append.1 h.nodup).2.2 e hm e List.mem_cons_self rfl

omit h in
private theorem concat {e : Event} (h : Interleaving (pre ++ e :: post)) :
    Interleaving ((pre ++ [e]) ++ post) := by
  rwa [List.append_assoc]

/-- A request that has begun will be answered. -/
theorem putBack_mem (hm : .take id ∈ pre) (hno : .putBack id ∉ pre) : .putBack id ∈ post := by
  have hmem : Event.putBack id ∈ pre ++ post :=
    (h.sublist (List.mem_append_left post hm) rfl).subset (by simp)
  exact (List.mem_append.1 hmem).resolve_left hno

end Interleaving

def Stage.Fits (pre : List Event) (id : Nat) : Stage → Prop
  | .outside => .take id ∈ pre → .putBack id ∈ pre
  | .holding _ => .take id ∈ pre ∧ .look id ∉ pre
  | .seen _ _ => .look id ∈ pre ∧ .putBack id ∉ pre

namespace Stage.Fits

variable {pre post : List Event} {id : Nat} {stage : Stage} (hf : stage.Fits pre id)
include hf

/-- The steps of other requests say nothing about a request. -/
theorem concat {e : Event} (he : e.request? ≠ some id) : stage.Fits (pre ++ [e]) id := by
  have htake : e ≠ .take id := fun heq => he (heq ▸ rfl)
  have hlook : e ≠ .look id := fun heq => he (heq ▸ rfl)
  have hput : e ≠ .putBack id := fun heq => he (heq ▸ rfl)
  cases stage <;> simpa [Fits, htake.symm, hlook.symm, hput.symm] using hf

theorem of_holding {s : Synchronizer} (hs : stage = .holding s) :
    .take id ∈ pre ∧ .look id ∉ pre := by
  subst hs
  exact hf

theorem of_seen {result : Except Error Nat} {s : Synchronizer} (hs : stage = .seen result s) :
    .look id ∈ pre ∧ .putBack id ∉ pre := by
  subst hs
  exact hf

/-- A request that is on its way has begun, and it will be answered. -/
theorem mem (h : Interleaving (pre ++ post)) (hout : stage ≠ .outside) :
    .take id ∈ pre ∧ .putBack id ∈ post := by
  cases stage with
  | outside => exact absurd rfl hout
  | holding s => exact ⟨hf.1, h.putBack_mem hf.1 fun hm => hf.2 (h.look_mem hm)⟩
  | seen result s => exact ⟨h.take_mem hf.1, h.putBack_mem (h.take_mem hf.1) hf.2⟩

theorem eq_outside (h : Interleaving (pre ++ .take id :: post)) : stage = .outside := by
  have hnew := h.not_mem
  cases stage with
  | outside => rfl
  | holding s => exact absurd hf.1 hnew
  | seen result s => exact absurd (h.take_mem hf.1) hnew

theorem eq_holding (h : Interleaving (pre ++ .look id :: post)) : ∃ s, stage = .holding s := by
  have hnew := h.not_mem
  have htake : .take id ∈ pre := by simpa using h.concat.take_mem List.mem_concat_self
  cases stage with
  | outside => exact absurd (h.look_mem (hf htake)) hnew
  | holding s => exact ⟨s, rfl⟩
  | seen result s => exact absurd hf.1 hnew

theorem eq_seen (h : Interleaving (pre ++ .putBack id :: post)) :
    ∃ result s, stage = .seen result s := by
  have hnew := h.not_mem
  have hlook : .look id ∈ pre := by simpa using h.concat.look_mem List.mem_concat_self
  cases stage with
  | outside => exact absurd (hf (h.take_mem hlook)) hnew
  | holding s => exact absurd hlook hf.2
  | seen result s => exact ⟨result, s, rfl⟩

end Stage.Fits

/-- How far the requests have come is told by the steps that were taken. -/
theorem Interleaving.fits {path : Text} {r : Registry} {tree : FileTree} {pre post : List Event}
    (h : Interleaving (pre ++ post)) (id : Nat) :
    ((Shared.run path ⟨r, tree, fun _ => .outside⟩ pre).stage id).Fits pre id := by
  induction pre using List.reverseRecOn generalizing post id with
  | nil => exact fun hm => nomatch hm
  | append_singleton pre e ih =>
    have h' : Interleaving (pre ++ e :: post) := by simpa using h
    have hnew := h'.not_mem
    rw [Shared.run_concat]
    have hfits := ih h' id
    generalize Shared.run path ⟨r, tree, fun _ => .outside⟩ pre = x at hfits ⊢
    by_cases he : e.request? = some id
    · cases e with
      | take i =>
        obtain rfl := Option.some.inj he
        rw [Shared.stage_take_self]
        exact ⟨List.mem_concat_self, fun hm => hnew (h'.take_mem (by simpa using hm))⟩
      | look i =>
        obtain rfl := Option.some.inj he
        obtain ⟨s, hs⟩ := hfits.eq_holding h'
        rw [Shared.stage_look_self hs rfl]
        exact ⟨List.mem_concat_self, fun hm => hnew (h'.look_mem (by simpa using hm))⟩
      | putBack i =>
        obtain rfl := Option.some.inj he
        obtain ⟨result, s, hs⟩ := hfits.eq_seen h'
        rw [Shared.step_putBack hs]
        simp [Stage.Fits]
      | save k content => cases he
    · rw [Shared.stage_step he]
      exact hfits.concat he

/-- Requests that are on their way at one time overlap. -/
theorem Interleaving.overlap {pre post : List Event} (h : Interleaving (pre ++ post)) {i j : Nat}
    (hne : i ≠ j) {stage stage' : Stage} (hi : stage.Fits pre i) (hj : stage'.Fits pre j)
    (hout : stage ≠ .outside) (hout' : stage' ≠ .outside) : Overlap (pre ++ post) i j := by
  obtain ⟨htake, hput⟩ := hi.mem h hout
  obtain ⟨htake', hput'⟩ := hj.mem h hout'
  exact ⟨hne, pair_sublist_append htake hput', pair_sublist_append htake' hput⟩

/-- A request that begins before one that is on its way is answered overlaps with it. -/
theorem Interleaving.overlap_later {pre post : List Event} (h : Interleaving (pre ++ post))
    {i j : Nat} (hi : .take i ∈ pre) (hj : .take j ∉ pre)
    (hbefore : [.take j, .putBack i].Sublist (pre ++ post)) : Overlap (pre ++ post) i j := by
  have hput : Event.putBack j ∈ pre ++ post :=
    (h.sublist (e := .take j) (hbefore.subset (by simp)) rfl).subset (by simp)
  have hpost : .putBack j ∈ post :=
    (List.mem_append.1 hput).resolve_left fun hm => hj (h.take_mem (h.look_mem hm))
  exact ⟨fun heq => hj (heq ▸ hi), pair_sublist_append hi hpost, hbefore⟩

/-- A save comes between the looks of a request that has looked and one that has not. -/
theorem Interleaving.save_between {pre post : List Event} {i j k : Nat} {content : Content}
    (h : Interleaving (pre ++ .save k content :: post)) (hi : .look i ∈ pre)
    (hj : .take j ∈ pre ++ .save k content :: post) (hno : .look j ∉ pre) :
    [.look i, .save k content, .look j].Sublist (pre ++ .save k content :: post) := by
  have hlook : .look j ∈ pre ++ Event.save k content :: post :=
    (h.sublist hj rfl).subset (by simp)
  have hpost : .look j ∈ post := by simpa [hno] using hlook
  exact (List.singleton_sublist.2 hi).append ((List.singleton_sublist.2 hpost).cons_cons _)

/-- Operations that serialize the events so far. Of the requests that are on their way some count as
done. -/
structure Progress (pre : List Event) (ops : List Op) : Prop where
  nodup : ops.Nodup
  begun : ∀ op ∈ ops, ∃ e ∈ pre, e.starts? = some op
  ended : ∀ e ∈ pre, ∀ op, e.ends? = some op → op ∈ ops
  order : ∀ e f x y, [e, f].Sublist pre → e.ends? = some x → f.starts? = some y → y ∈ ops →
    [x, y].Sublist ops

namespace Progress

variable {pre post : List Event} {ops new : List Op} {e : Event}

/-- What an event starts is not done before. -/
theorem not_mem_of_starts (h : Progress pre ops) (hpre : Interleaving (pre ++ e :: post)) {op : Op}
    (hop : e.starts? = some op) : op ∉ ops := by
  intro hmem
  obtain ⟨f, hf, hs⟩ := h.begun op hmem
  rw [Event.starts?_inj hs hop] at hf
  exact hpre.not_mem hf

/-- An event happens, and operations are done that have begun. What the event ends must be done. -/
theorem extend (h : Progress pre ops) (hpre : Interleaving (pre ++ e :: post))
    (hn : (ops ++ new).Nodup) (hbegun : ∀ op ∈ new, ∃ f ∈ pre ++ [e], f.starts? = some op)
    (hended : ∀ op, e.ends? = some op → op ∈ ops ++ new) :
    Progress (pre ++ [e]) (ops ++ new) where
  nodup := hn
  begun op hop := by
    rcases List.mem_append.1 hop with hop | hop
    · obtain ⟨f, hf, hs⟩ := h.begun op hop
      exact ⟨f, List.mem_append_left _ hf, hs⟩
    · exact hbegun op hop
  ended f hf op hop := by
    rcases List.mem_append.1 hf with hf | hf
    · exact List.mem_append_left _ (h.ended f hf op hop)
    · obtain rfl := List.mem_singleton.1 hf
      exact hended op hop
  order f g x y hfg hx hy hmem := by
    rcases List.mem_append.1 hmem with hmem | hmem
    · rcases pair_sublist_concat hfg with hfg | ⟨hf, rfl⟩
      · exact (h.order f g x y hfg hx hy hmem).trans (List.sublist_append_left _ _)
      · exact absurd hmem (h.not_mem_of_starts hpre hy)
    · have hf : f ∈ pre := by
        rcases pair_sublist_concat hfg with hfg | ⟨hf, -⟩
        · exact hfg.subset List.mem_cons_self
        · exact hf
      exact pair_sublist_append (h.ended f hf x hx) hmem

/-- An event happens, and nothing is done. -/
theorem pass (h : Progress pre ops) (hpre : Interleaving (pre ++ e :: post))
    (hended : ∀ op, e.ends? = some op → op ∈ ops) : Progress (pre ++ [e]) ops := by
  rw [← List.append_nil ops]
  exact h.extend hpre (by simpa using h.nodup) (by simp) (by simpa using hended)

/-- Once all requests are answered, whatever has started is done. -/
theorem mem_of_starts {trace : List Event} (h : Progress trace ops) (htrace : Interleaving trace)
    {op : Op} (he : e ∈ trace) (hop : e.starts? = some op) : op ∈ ops := by
  cases e with
  | take id =>
    cases hop
    exact h.ended (.putBack id) ((htrace.sublist he rfl).subset (by simp)) _ rfl
  | look id => cases hop
  | putBack id => cases hop
  | save k content =>
    cases hop
    exact h.ended _ he _ rfl

theorem serializes {trace : List Event} (h : Progress trace ops) (htrace : Interleaving trace) :
    Serializes trace ops where
  nodup := h.nodup
  mem_iff op := ⟨h.begun op, fun ⟨_, he, hop⟩ => h.mem_of_starts htrace he hop⟩
  order e f x y hef hx hy :=
    h.order e f x y hef hx hy (h.mem_of_starts htrace (hef.subset (by simp)) hy)

end Progress
end Javadoc.ToolServer
