import Javadoc.Proofs.Sync.Registry
import Javadoc.Watcher

/-! What a watcher keeps of the files that it looks at. Whatever it is told and whatever happens to
the files, every synchronizer in its registry follows the type of the content that was observed last
with success at its path, and holds the descriptions of it; or it follows nothing, because the last
look at its path found no file that could be read. -/
namespace Javadoc.Watcher

structure Look where
  path : Text
  found : Except Error Document
  result : Except Error Nat

namespace Look

def isAt (look : Look) (key : List Text) : Bool := Path.components look.path == key

def succeeds (look : Look) : Bool := look.result.toBool

end Look

def look (w : Watcher) (path : Text) (tree : FileTree) : Look :=
  ⟨path, tree.document path, (w.change path tree).1⟩

def looksAll (w : Watcher) (tree : FileTree) (looks : List Look) : List Text → List Look
  | [] => looks
  | path :: paths =>
    match w.change path tree with
    | (_, w', tree') => looksAll w' tree' (w.look path tree :: looks) paths

def looksOf (kind : EventKind) (w : Watcher) (tree : FileTree) (looks : List Look) :
    List Text → List Look
  | [] => looks
  | path :: paths =>
    let looks :=
      if Path.isJava path ∧ tree.isFile path ∧ kind ≠ .removed then w.look path tree :: looks
      else looks
    match handlePath kind path w tree with
    | (w, tree) => looksOf kind w tree looks paths

/-- What happens to a watcher and to the files that it watches. -/
inductive Action where
  /-- The files are changed, and nobody tells the watcher. -/
  | files (tree : FileTree)
  | prime
  | change (path : Text)
  | event (event : Event)

/-- A watcher and the files, with the looks taken so far, the last one first. -/
structure Watch where
  watcher : Watcher
  tree : FileTree
  looks : List Look := []

namespace Watch

def next : Watch → Action → Watch
  | ⟨w, _, looks⟩, .files tree => ⟨w, tree, looks⟩
  | ⟨w, tree, looks⟩, .prime =>
    match w.prime tree with
    | (w', tree') => ⟨w', tree', w.looksAll tree looks (tree.javaSources w.root)⟩
  | ⟨w, tree, looks⟩, .change path =>
    match w.change path tree with
    | (_, w', tree') => ⟨w', tree', w.look path tree :: looks⟩
  | ⟨w, tree, looks⟩, .event event =>
    match w.handle event tree with
    | (w', tree') =>
      ⟨w', tree', if event.kind = .other then looks else looksOf event.kind w tree looks event.paths⟩

/-- A new watcher of a directory, after some things have happened. -/
def after (root : Text) (tree : FileTree) (actions : List Action) : Watch :=
  actions.foldl next ⟨{ root }, tree, []⟩

end Watch

/-- The synchronizer of a path follows the type of the content that was observed last with success
there, and holds the descriptions of it. -/
def Recorded (looks : List Look) (key : List Text) (s : Synchronizer) : Prop :=
  ∃ look text c, looks.find? (fun look => look.isAt key && look.succeeds) = some look ∧
    look.found = .ok ⟨look.path, text⟩ ∧
    (SourceFile.read look.path text).primary? = some c ∧
    s.tracked?.any (Container.same ⟨look.path, c.own.name⟩) ∧ s.snapshot = Snapshot.ofClass c

/-- The last look at a path found no file that could be read. -/
def Unread (looks : List Look) (key : List Text) : Prop :=
  ∃ look e, looks.find? (fun look => look.isAt key) = some look ∧ look.found = .error e

def Accounts (r : Registry) (looks : List Look) : Prop :=
  ∀ key s, r.get? key = some s → Recorded looks key s ∨ s = {} ∧ Unread looks key

section

variable {r : Registry} {looks : List Look} (h : Accounts r looks)
include h

private theorem Accounts.forget (path : Text) : Accounts (r.forget path) looks := by
  intro key s hs
  by_cases hkey : key = Path.components path
  · subst hkey
    rw [show (r.forget path).get? _ = none from Registry.at?_forget_self r path] at hs
    cases hs
  · rw [Registry.forget, OrderedMap.get?_erase_of_ne hkey] at hs
    exact h key s hs

/-- A look is about the synchronizer of its path alone. -/
theorem Accounts.cons {look : Look} {r' : Registry}
    (hother : ∀ key, key ≠ Path.components look.path → r'.get? key = r.get? key)
    (hself : ∀ s, r'.at? look.path = some s →
      Recorded (look :: looks) (Path.components look.path) s ∨
        s = {} ∧ Unread (look :: looks) (Path.components look.path)) :
    Accounts r' (look :: looks) := by
  intro key s hs
  by_cases hkey : key = Path.components look.path
  · subst hkey
    exact hself s hs
  · rw [hother key hkey] at hs
    have hno : look.isAt key = false := by simpa [Look.isAt] using fun heq => hkey heq.symm
    simpa [Recorded, Unread, hno] using h key s hs

end

/-- A look that fails says nothing new about what is recorded. -/
theorem Recorded.cons {looks : List Look} {key : List Text} {s : Synchronizer} {look : Look}
    (h : Recorded looks key s) (hfails : look.succeeds = false) :
    Recorded (look :: looks) key s := by
  simpa [Recorded, hfails] using h

theorem change_eq (w : Watcher) (path : Text) (tree : FileTree) {result : Except Error Nat}
    {s : Synchronizer} {tree' : FileTree}
    (h : ((w.registry.at? path).getD {}).synchronize path tree = (result, s, tree')) :
    w.change path tree =
      (result, { w with registry := w.registry.settle path result s }, tree') := by
  rw [change]
  simp only [h]

/-- A look at a changed file. -/
theorem Accounts.change {w : Watcher} {looks : List Look} (h : Accounts w.registry looks)
    (path : Text) (tree : FileTree) :
    Accounts (w.change path tree).2.1.registry (w.look path tree :: looks) := by
  have hat : (w.look path tree).isAt (Path.components path) := by simp [Look.isAt, look]
  have hresult : (w.look path tree).result = (w.change path tree).1 := rfl
  refine h.cons (fun key hkey => Registry.get?_settle_of_ne hkey _ _ _) fun s hs => ?_
  rw [show (w.look path tree).path = path from rfl] at hs ⊢
  rcases Synchronizer.synchronize_cases ((w.registry.at? path).getD {}) path tree with
    ⟨e, hfound, hsync⟩ | ⟨text, hfound, -, hsync⟩ |
    ⟨text, edits, s', text', hfound, hobserve, -, hsync⟩
  all_goals
    rw [change_eq w path tree hsync] at hs hresult
    rw [Registry.at?_settle_self] at hs
  · -- the file cannot be read: what was recorded stays, and a new synchronizer is empty
    have hs : (w.registry.at? path).getD {} = s := by
      rw [FileTree.document_error hfound] at hs
      exact Option.some.inj hs
    have hunread : Unread (w.look path tree :: looks) (Path.components path) :=
      ⟨_, e, List.find?_cons_of_pos hat, hfound⟩
    cases hr : w.registry.at? path with
    | none => exact .inr ⟨by rw [← hs, hr]; rfl, hunread⟩
    | some s₀ =>
      obtain rfl : s₀ = s := by rw [← hs, hr]; rfl
      rcases h _ _ hr with hrecorded | ⟨hempty, -⟩
      · exact .inl (hrecorded.cons (by rw [Look.succeeds, hresult]; rfl))
      · exact .inr ⟨hempty, hunread⟩
  · cases hs
  · obtain rfl : s' = s := Option.some.inj hs
    obtain ⟨c, hc, htracked, hsnapshot, -⟩ := Synchronizer.observe_ok hobserve
    refine .inl ⟨_, text, c, List.find?_cons_of_pos ?_, hfound, hc, htracked, hsnapshot⟩
    rw [hat, Look.succeeds, hresult]
    rfl

private theorem Accounts.changeAll {w : Watcher} {looks : List Look} (h : Accounts w.registry looks)
    (tree : FileTree) (paths : List Text) :
    Accounts (w.changeAll tree paths).1.registry (w.looksAll tree looks paths) := by
  induction paths generalizing w tree looks with
  | nil => exact h
  | cons path paths ih =>
    rw [Watcher.changeAll, looksAll]
    exact ih (h.change path tree) _

private theorem Accounts.handlePath {w : Watcher} {looks : List Look}
    (h : Accounts w.registry looks)
    (kind : EventKind) (path : Text) (tree : FileTree) :
    Accounts (Watcher.handlePath kind path w tree).1.registry
      (if Path.isJava path ∧ tree.isFile path ∧ kind ≠ .removed then w.look path tree :: looks
        else looks) := by
  rw [Watcher.handlePath]
  by_cases hjava : Path.isJava path
  · by_cases hfile : tree.isFile path
    · by_cases hkind : kind = .removed
      · simpa [hjava, hfile, hkind] using h
      · simpa [hjava, hfile, hkind] using h.change path tree
    · simpa [hjava, hfile] using h.forget path
  · simpa [hjava] using h

private theorem Accounts.handle {w : Watcher} {looks : List Look} (h : Accounts w.registry looks)
    (kind : EventKind) (tree : FileTree) (paths : List Text) :
    Accounts (paths.foldl (fun (w, tree) path => Watcher.handlePath kind path w tree)
      (w, tree)).1.registry (w.looksOf kind tree looks paths) := by
  induction paths generalizing w tree looks with
  | nil => exact h
  | cons path paths ih => exact ih (h.handlePath kind path tree) _

private theorem Accounts.next {x : Watch} (h : Accounts x.watcher.registry x.looks)
    (action : Action) :
    Accounts (x.next action).watcher.registry (x.next action).looks := by
  obtain ⟨w, tree, looks⟩ := x
  cases action with
  | files tree' => exact h
  | prime => exact h.changeAll tree _
  | change path => exact h.change path tree
  | event event =>
    by_cases hkind : event.kind = .other
    · simpa [Watch.next, Watcher.handle, hkind] using h
    · simpa [Watch.next, Watcher.handle, hkind] using h.handle event.kind tree event.paths

private theorem accounts_after (root : Text) (tree : FileTree) (actions : List Action) :
    Accounts (Watch.after root tree actions).watcher.registry
      (Watch.after root tree actions).looks := by
  suffices h : ∀ x : Watch, Accounts x.watcher.registry x.looks →
      Accounts (actions.foldl Watch.next x).watcher.registry (actions.foldl Watch.next x).looks from
    h _ fun key s hs => nomatch hs
  induction actions with
  | nil => exact fun x h => h
  | cons action actions ih => exact fun x h => ih _ (h.next action)

private theorem Recorded.tracked {looks : List Look} {key : List Text} {s : Synchronizer}
    (h : Recorded looks key s) : s.tracked?.isSome := by
  obtain ⟨look, text, c, -, -, -, htracked, -⟩ := h
  exact Option.isSome_of_any htracked

/-- Whatever happens, a synchronizer in the registry of a watcher follows what was observed last
with success at its path and holds the descriptions of that, or it follows nothing and the last
look at its path found no file that could be read. The watcher counts both. -/
theorem entries_after (root : Text) (tree : FileTree) (actions : List Action) :
    let x := Watch.after root tree actions
    (∀ e ∈ x.watcher.registry.entries, Recorded x.looks e.1 e.2 ∨ e.2 = {} ∧ Unread x.looks e.1) ∧
    x.watcher.tracked = x.watcher.registry.entries.countP (fun e => e.2.tracked?.isSome) +
      x.watcher.registry.entries.countP fun e => e.2 = {} := by
  intro x
  have haccounts : ∀ e ∈ x.watcher.registry.entries,
      Recorded x.looks e.1 e.2 ∨ e.2 = {} ∧ Unread x.looks e.1 :=
    fun e he => accounts_after root tree actions _ _ (OrderedMap.get?_of_mem he)
  refine ⟨haccounts, ?_⟩
  rw [tracked, OrderedMap.size, List.length_eq_countP_add_countP fun e => e.2.tracked?.isSome]
  congr 1
  refine List.countP_congr fun e he => ?_
  rcases haccounts e he with hrecorded | ⟨hempty, -⟩
  · have htracked := hrecorded.tracked
    have hne : e.2 ≠ {} := fun hempty => by simp [hempty] at htracked
    simp [htracked, hne]
  · simp [hempty]

/-- A file that is no text is counted, although nothing is recorded of it. -/
theorem entries_after_bytes :
    let x := Watch.after ".".toList (FileTree.put {} ["A.java".toList] (.file .bytes)) [.prime]
    x.watcher.tracked = 1 ∧
      ∀ e ∈ x.watcher.registry.entries, e.2 = {} ∧ Unread x.looks e.1 := by
  intro x
  obtain ⟨haccounts, htracked⟩ := entries_after ".".toList
    (FileTree.put {} ["A.java".toList] (.file .bytes)) [.prime]
  have hevaluated : x.watcher.tracked = 1 ∧
      x.watcher.registry.entries.all fun e => e.2.tracked?.isNone := by
    decide +kernel
  refine ⟨hevaluated.1, fun e he => (haccounts e he).resolve_left fun hrecorded => ?_⟩
  have hnone := List.all_eq_true.1 hevaluated.2 e he
  have hsome := hrecorded.tracked
  rw [Option.isNone_iff_eq_none] at hnone
  simp [hnone] at hsome

end Javadoc.Watcher
