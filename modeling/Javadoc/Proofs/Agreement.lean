import Javadoc.CommandLine.Outcome
import Javadoc.Proofs.Watcher
import Javadoc.ToolServer

/-! A watcher and the server that are notified of the same changes of a file leave the same file and
tell the same. The command that is given an earlier version of a file leaves what they leave that
were notified of both versions. -/
namespace Javadoc

/-- What a watcher makes of notifications about a file. Before each of them the files are changed. -/
def Watcher.notified (path : Text) (w : Watcher) (tree : FileTree) :
    List (FileTree → FileTree) → List (Except Error Nat × FileTree)
  | [] => []
  | change :: changes =>
    match w.change path (change tree) with
    | (result, w, tree) => (result, tree) :: notified path w tree changes

namespace ToolServer

/-- What the server makes of notifications about a file. Before each of them the files are
changed. -/
def notified (path : Text) (r : Registry) (tree : FileTree) :
    List (FileTree → FileTree) → List (Except Fault Text × FileTree)
  | [] => []
  | change :: changes =>
    match documentChanged path r (change tree) with
    | (answer, r, tree) => (answer, tree) :: notified path r tree changes

/-- What an answer of the server says to have come of a look at a file. -/
inductive Tells (path : Text) : Except Error Nat → Except Fault Text → Prop where
  | rewrote (count : Nat) : Tells path (.ok count)
    (.ok ("Rewrote ".toList ++ Text.ofNat count ++ " comments in ".toList ++ path))
  | tracking (size : Nat) : Tells path (.ok 0)
    (.ok ("Tracking ".toList ++ path ++ " (".toList ++ Text.ofNat size ++
      " field comments)".toList))
  | missing : Tells path (.error (.fileNotFound path)) (.error (.noSuchFile path))
  | typeless (p : Text) : Tells path (.error (.noContainer p)) (.error (.noContainer p))
  | failed (e : Error) : Tells path (.error e) (.error (.syncFailed path e))

end ToolServer

/-- A synchronizer that follows nothing has nothing to write. -/
theorem Synchronizer.count_eq_zero {path : Text} {tree tree' : FileTree} {count : Nat}
    {s : Synchronizer} (h : synchronize {} path tree = (.ok count, s, tree')) : count = 0 := by
  rcases synchronize_cases {} path tree with
    ⟨e, -, hsync⟩ | ⟨text, -, -, hsync⟩ | ⟨text, edits, s', text', -, hobserve, -, hsync⟩ <;>
  cases hsync.symm.trans h
  rw [List.length_eq_zero_iff]
  by_contra hne
  obtain ⟨c, -, -, -, hedits⟩ := observe_ok hobserve
  cases (hedits hne).1

namespace ToolServer

private theorem documentChanged_eq {path : Text} {r : Registry} {tree tree' : FileTree}
    (hfile : tree.isFile path) {result : Except Error Nat} {s : Synchronizer}
    (h : ((r.at? path).getD {}).synchronize path tree = (result, s, tree')) :
    documentChanged path r tree =
      (changeAnswer path (r.at? path).isSome s.snapshot.size result,
        (r.forget path).settle path result s, tree') := by
  simp only [documentChanged, hfile, Bool.not_true, Bool.false_eq_true, if_false, h]

private theorem tells_changeAnswer {path : Text} {tree tree' : FileTree}
    {taken? : Option Synchronizer}
    {result : Except Error Nat} {s : Synchronizer}
    (h : (taken?.getD {}).synchronize path tree = (result, s, tree')) (size : Nat) :
    Tells path result (changeAnswer path taken?.isSome size result) := by
  cases result with
  | ok count =>
    cases taken? with
    | some taken => exact .rewrote count
    | none =>
      obtain rfl := Synchronizer.count_eq_zero h
      exact .tracking size
  | error e =>
    cases e with
    | noContainer p => exact .typeless p
    | _ => exact .failed _

/-- One notification of a watcher and of the server. Where they follow the same, a synchronizer that
follows nothing counting as none, they do the same, and then they follow the same. -/
theorem documentChanged_agrees {path : Text} {w : Watcher} {r : Registry}
    (h : (w.registry.at? path).getD {} = (r.at? path).getD {}) (tree : FileTree) :
    let x := w.change path tree
    let y := documentChanged path r tree
    Tells path x.1 y.1 ∧ x.2.2 = y.2.2 ∧
      (x.2.1.registry.at? path).getD {} = (y.2.1.at? path).getD {} := by
  dsimp only
  rcases hsync : ((r.at? path).getD {}).synchronize path tree with ⟨result, s, tree'⟩
  rw [Watcher.change_eq w path tree (h ▸ hsync), Registry.at?_settle_self]
  by_cases hfile : tree.isFile path
  · rw [documentChanged_eq hfile hsync, Registry.at?_settle_self]
    exact ⟨tells_changeAnswer hsync _, rfl, rfl⟩
  · have hfound : tree.document path = .error (.fileNotFound path) := by
      rw [FileTree.document, if_neg hfile]
    cases (Synchronizer.synchronize_unreadable hfound).symm.trans hsync
    simpa [documentChanged, hfile, Registry.keeps] using Tells.missing

private theorem notified_agrees {path : Text} {w : Watcher} {r : Registry}
    (h : (w.registry.at? path).getD {} = (r.at? path).getD {}) (tree : FileTree)
    (changes : List (FileTree → FileTree)) :
    List.Forall₂ (fun x y => Tells path x.1 y.1 ∧ x.2 = y.2) (w.notified path tree changes)
      (notified path r tree changes) := by
  induction changes generalizing w r tree with
  | nil => exact .nil
  | cons change changes ih =>
    have hagrees := documentChanged_agrees h (change tree)
    rcases hw : w.change path (change tree) with ⟨result, w', tree₁⟩
    rcases hr : documentChanged path r (change tree) with ⟨answer, r', tree₂⟩
    rw [hw, hr] at hagrees
    obtain ⟨htells, rfl, hstored⟩ := hagrees
    rw [Watcher.notified, notified, hw, hr]
    exact .cons ⟨htells, rfl⟩ (ih hstored _)

end ToolServer

namespace CommandLine

section

variable {file baseline before current : Text} {tree : FileTree}

/-- What the command does if the current version is observed with success after the earlier one. -/
theorem sync_ok {s s' : Synchronizer} {edits edits' : List Edit} {text : Text}
    (hbaseline : tree.read baseline = .ok before)
    (hbefore : Synchronizer.observe {} (SourceFile.read file before) = (.ok edits, s))
    (hcurrent : tree.document file = .ok ⟨file, current⟩)
    (hobserve : s.observe (SourceFile.read file current) = (.ok edits', s'))
    (happly : Edit.applyAll current edits' = .ok text) (dryRun : Bool) :
    sync file baseline dryRun tree =
      ({ output := if dryRun then text else []
         errors := "Rewrote ".toList ++ Text.ofNat edits'.length ++ " comments in ".toList ++ file ++
           ['\n'] }, if dryRun then tree else tree.save ⟨file, text⟩) := by
  have hsynchronized : synchronized file before tree = .ok (edits'.length, ⟨file, text⟩) := by
    simp only [synchronized, hbefore, hcurrent, hobserve, Document.commit, happly]
  rw [sync, hbaseline]
  simp only [hsynchronized]
  cases edits' with
  | nil =>
    rw [Edit.applyAll_nil, Except.ok.injEq] at happly
    rw [← happly, FileTree.save_self hcurrent]
    simp
  | cons e edits' => simp

private theorem sync_error {s s' : Synchronizer} {edits : List Edit} {e : Error}
    (hbaseline : tree.read baseline = .ok before)
    (hbefore : Synchronizer.observe {} (SourceFile.read file before) = (.ok edits, s))
    (hcurrent : tree.document file = .ok ⟨file, current⟩)
    (hobserve : s.observe (SourceFile.read file current) = (.error e, s')) (dryRun : Bool) :
    sync file baseline dryRun tree = (.ofError e, tree) := by
  rw [sync, hbaseline]
  simp only [synchronized, hbefore, hcurrent, hobserve]

end

end CommandLine

/-- A watcher and the server that are notified of the same changes of a file leave the same files
and tell the same, whatever the changes are. If the file gets a type and then another version of it,
the command leaves what they leave, and its dry run prints that; or they fail because the updates
leave no type, and then the command fails as well. -/
theorem notifications_agree (root file : Text) (tree : FileTree) :
    (∀ changes, List.Forall₂ (fun x y => ToolServer.Tells file x.1 y.1 ∧ x.2 = y.2)
      (Watcher.notified file { root } tree changes)
      (ToolServer.notified file .empty tree changes)) ∧
    ∀ (baseline before current : Text) (tree' : FileTree),
      tree.document file = .ok ⟨file, before⟩ → tree'.document file = .ok ⟨file, current⟩ →
      tree'.read baseline = .ok before → (SourceFile.read file before).primary?.isSome →
      ∃ text result answer,
        Watcher.notified file { root } tree [id, fun _ => tree'] =
          [(.ok 0, tree), (result, tree'.save ⟨file, text⟩)] ∧
        (ToolServer.notified file .empty tree [id, fun _ => tree']).getLast? =
          some (answer, tree'.save ⟨file, text⟩) ∧
        match result with
        | .ok count => ∀ dryRun, CommandLine.sync file baseline dryRun tree' =
          ({ output := if dryRun then text else []
             errors := "Rewrote ".toList ++ Text.ofNat count ++ " comments in ".toList ++ file ++
               ['\n'] }, if dryRun then tree' else tree'.save ⟨file, text⟩)
        | .error e => e = .noContainer file ∧ text = current ∧
          ∀ dryRun, CommandLine.sync file baseline dryRun tree' = (.ofError e, tree') := by
  have hagree (changes : List (FileTree → FileTree)) :
      List.Forall₂ (fun x y => ToolServer.Tells file x.1 y.1 ∧ x.2 = y.2)
        (Watcher.notified file { root } tree changes)
        (ToolServer.notified file .empty tree changes) :=
    ToolServer.notified_agrees rfl tree changes
  refine ⟨hagree, fun baseline before current tree' hbefore hcurrent hbaseline hsome => ?_⟩
  obtain ⟨c, hc⟩ := Option.isSome_iff_exists.1 hsome
  obtain ⟨s, hfirst⟩ : ∃ s, Synchronizer.observe {} (SourceFile.read file before) = (.ok [], s) :=
    ⟨_, by rw [Synchronizer.observe, hc]; rfl⟩
  have hlook : Synchronizer.synchronize {} file tree = (.ok 0, s, tree) := by
    obtain ⟨text, happly, hsync⟩ := Synchronizer.synchronize_ok hbefore hfirst
    rw [Edit.applyAll_nil, Except.ok.injEq] at happly
    rw [hsync, ← happly, FileTree.save_self hbefore]
    rfl
  have hnotified {result : Except Error Nat} {s' : Synchronizer} {tree'' : FileTree}
      (hsync : s.synchronize file tree' = (result, s', tree'')) :
      Watcher.notified file { root } tree [id, fun _ => tree'] =
        [(.ok 0, tree), (result, tree'')] ∧
      ∃ answer, (ToolServer.notified file .empty tree [id, fun _ => tree']).getLast? =
        some (answer, tree'') := by
    have hwatcher : Watcher.notified file { root } tree [id, fun _ => tree'] =
        [(.ok 0, tree), (result, tree'')] := by
      have hfollows : ((Registry.settle .empty file (.ok 0) s).at? file).getD {} = s := by
        rw [Registry.at?_settle_self]
        rfl
      simp only [Watcher.notified, id, Watcher.change_eq { root } file tree hlook]
      rw [Watcher.change_eq _ file tree' (hfollows ▸ hsync)]
    have hserver := hagree [id, fun _ => tree']
    rw [hwatcher] at hserver
    obtain ⟨y, ys, -, hys, heq⟩ := List.forall₂_cons_left_iff.1 hserver
    obtain ⟨⟨answer, tree₂⟩, ys, ⟨-, rfl⟩, hnil, rfl⟩ := List.forall₂_cons_left_iff.1 hys
    obtain rfl := List.forall₂_nil_left_iff.1 hnil
    exact ⟨hwatcher, answer, by rw [heq]; rfl⟩
  rcases hobserve : s.observe (SourceFile.read file current) with ⟨e | edits, s'⟩
  · obtain rfl := Synchronizer.observe_read_error hobserve
    obtain ⟨hwatcher, answer, hserver⟩ :=
      hnotified (Synchronizer.synchronize_error hcurrent hobserve)
    refine ⟨current, .error (.noContainer file), answer, ?_, ?_, rfl, rfl, fun dryRun => ?_⟩
    · rw [hwatcher, FileTree.save_self hcurrent]
    · rw [hserver, FileTree.save_self hcurrent]
    · exact CommandLine.sync_error hbaseline hfirst hcurrent hobserve dryRun
  · obtain ⟨text, happly, hsync⟩ := Synchronizer.synchronize_ok hcurrent hobserve
    obtain ⟨hwatcher, answer, hserver⟩ := hnotified hsync
    exact ⟨text, .ok edits.length, answer, hwatcher, hserver,
      CommandLine.sync_ok hbaseline hfirst hcurrent hobserve happly⟩

def versions (before current : Text) : FileTree :=
  FileTree.put (FileTree.put {} ["A.java".toList] (.file (.text current))) ["Old.java".toList]
    (.file (.text before))

open Synchronizer in
theorem notifications_agree_described :
    let before := FileTree.put {} ["A.java".toList] (.file (.text (described ['x'])))
    let current := versions (described ['x']) (described ['y'])
    ∃ text answer,
      Watcher.notified "A.java".toList { root := [] } before [id, fun _ => current] =
        [(.ok 0, before), (.ok 1, current.save ⟨"A.java".toList, text⟩)] ∧
      (ToolServer.notified "A.java".toList .empty before [id, fun _ => current]).getLast? =
        some (answer, current.save ⟨"A.java".toList, text⟩) ∧
      CommandLine.sync "A.java".toList "Old.java".toList true current =
        ({ output := text
           errors := "Rewrote 1 comments in A.java\n".toList }, current) := by
  intro before current
  have hbefore : before.document "A.java".toList = .ok ⟨"A.java".toList, described ['x']⟩ :=
    FileTree.document_eq_ok_iff.2 ⟨rfl, by decide +kernel⟩
  have hcurrent : current.document "A.java".toList = .ok ⟨"A.java".toList, described ['y']⟩ :=
    FileTree.document_eq_ok_iff.2 ⟨rfl, by decide +kernel⟩
  obtain ⟨text, result, answer, hwatcher, hserver, hcommand⟩ :=
    (notifications_agree [] "A.java".toList before).2 "Old.java".toList _ _ current hbefore hcurrent
      rfl (by decide +kernel)
  have hevaluated : ((Watcher.notified "A.java".toList { root := [] } before
      [id, fun _ => current]).map fun x => x.1.toOption) = [some 0, some 1] := by
    decide +kernel
  rw [hwatcher] at hevaluated
  cases result with
  | error e => cases hevaluated
  | ok count =>
    obtain rfl : count = 1 := by simpa [Except.toOption] using hevaluated
    exact ⟨text, answer, hwatcher, hserver, hcommand true⟩

/-- A type with a line in its head that reads like an entry, with the given description of its
field. -/
def annotated (description : Text) : Text :=
  Text.joinLines ["@Doc(\"\"\"".toList, "@param a: x".toList,
    "\"\"\") class A \x7b /** ".toList ++ description ++ " */ int a; \x7d".toList]

def breaking : Text := "\"\"\") int q; \x7b /*".toList

/-- Both versions have a type, but the updates leave none. The file is left as it is, and the dry run
of the command prints nothing. -/
theorem exists_output_ne :
    let before := FileTree.put {} ["A.java".toList] (.file (.text (annotated ['x'])))
    let current := versions (annotated ['x']) (annotated breaking)
    (SourceFile.read "A.java".toList (annotated ['x'])).primary?.isSome ∧
      (SourceFile.read "A.java".toList (annotated breaking)).primary?.isSome ∧
      (Watcher.notified "A.java".toList { root := [] } before [id, fun _ => current]).getLast?.map
        Prod.snd = some current ∧
      current.find? "A.java".toList = some (.file (.text (annotated breaking))) ∧
      (CommandLine.sync "A.java".toList "Old.java".toList true current).1.output ≠
        annotated breaking := by
  decide +kernel

end Javadoc
