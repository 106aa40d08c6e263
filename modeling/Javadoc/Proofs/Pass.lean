import Javadoc.Pass
import Javadoc.Proofs.Batch
import Javadoc.Proofs.Files.Listing
import Javadoc.Proofs.Plan.Completion

/-! Documentation passes over files. Whether it writes or not, a pass says the same. What it writes
are the comments for the files that get some, of those that come before the first unreadable one. -/
namespace Javadoc

/-- The plan puts something in. -/
theorem Plan.exists_insert_ne_nil {t : Templates} {path source : Text} {e : Edit}
    (h : e ∈ Plan.edits t (SourceFile.read path source)) :
    ∃ n text, e = .insert n text ∧ text ≠ [] := by
  obtain ⟨n, text, rfl⟩ := Plan.exists_insert_of_mem_edits h
  obtain ⟨s, comment, -, -, -, rfl⟩ := Plan.insert_mem_edits_iff.1 h
  refine ⟨n, _, rfl, ?_⟩
  rw [Plan.layOut, Plan.newlineOf]
  split <;> simp

private theorem Plan.applyAll_edits_ne {t : Templates} {path source text : Text}
    (hne : Plan.edits t (SourceFile.read path source) ≠ [])
    (h : Edit.applyAll source (Plan.edits t (SourceFile.read path source)) = .ok text) :
    text ≠ source := by
  have hmem {e : Edit} (hm : e ∈ Edit.ordered (Plan.edits t (SourceFile.read path source))) :
      ∃ n text, e = .insert n text ∧ text ≠ [] :=
    Plan.exists_insert_ne_nil ((Edit.stablySorted_ordered _).stable.mem_iff.1 hm)
  have hsize := (Edit.spliced_of_applyAll h).1.size_add fun e he => by
    obtain ⟨n, text, rfl, -⟩ := hmem he
    exact Nat.le_refl n
  have hkept : ((Edit.ordered (Plan.edits t (SourceFile.read path source))).map
      fun e => e.stop - e.start).sum = 0 := by
    rw [List.sum_eq_zero_iff_forall_eq_nat]
    intro n hn
    obtain ⟨e, he, rfl⟩ := List.mem_map.1 hn
    obtain ⟨n, text, rfl, -⟩ := hmem he
    exact Nat.sub_self n
  have hput : 0 < ((Edit.ordered (Plan.edits t (SourceFile.read path source))).map
      fun e => Text.size e.text).sum := by
    obtain ⟨e, he⟩ := List.exists_mem_of_ne_nil _ hne
    have he := (Edit.stablySorted_ordered _).stable.mem_iff.2 he
    refine List.sum_pos_iff_exists_pos_nat.2 ⟨_, List.mem_map_of_mem he, ?_⟩
    obtain ⟨n, text, rfl, htext⟩ := hmem he
    obtain ⟨c, cs, rfl⟩ := List.exists_cons_of_ne_nil htext
    have hpos : 0 < c.utf8Size := Char.utf8Size_pos c
    simp only [Edit.text, Text.size]
    omega
  rintro rfl
  omega

namespace Pass

def inserted (t : Templates) (tree : FileTree) (path : Text) : Nat :=
  match tree.document path with
  | .ok d => (Plan.edits t (SourceFile.read d.path d.text)).length
  | .error _ => 0

/-- Whether a file gets comments. -/
def isOpen (t : Templates) (tree : FileTree) (path : Text) : Bool := inserted t tree path != 0

/-- What a pass has made of the files: those of the given paths have their comments, and the others
are as they were. -/
structure Documented (t : Templates) (tree after : FileTree) (paths : List Text) : Prop where
  document : ∀ p ∈ paths, ∃ d d', tree.document p = .ok d ∧
    d.complete t = .ok (inserted t tree p, d') ∧ after.document p = .ok d'
  item : ∀ at_, after.item? at_ ≠ tree.item? at_ ↔ ∃ p ∈ paths, tree.locate p = .ok at_

/-- Documenting an opened file does not fail. -/
theorem exists_complete {t : Templates} {tree : FileTree} {path : Text} {d : Document}
    (h : tree.document path = .ok d) :
    ∃ text, d.complete t = .ok (inserted t tree path, { d with text }) ∧
      (isOpen t tree path → text ≠ d.text) := by
  obtain ⟨text, happly, -⟩ := Plan.exists_applyAll_edits t d.path d.text
  refine ⟨text, ?_, fun hopen => ?_⟩
  · rw [Document.complete, Document.commit, happly, inserted, h]
  · refine Plan.applyAll_edits_ne (fun hnil => ?_) happly
    simp [isOpen, inserted, h, hnil] at hopen

section

variable {t : Templates} {tree tree' : FileTree}

private theorem documentFile_error {path : Text} {e : Error} (h : tree.document path = .error e)
    (mode : Mode) : documentFile t mode path tree = (.error e, tree) := by
  rw [documentFile, h]

private theorem documentFile_ok {path : Text} {d d' : Document} {count : Nat}
    (h : tree.document path = .ok d) (hc : d.complete t = .ok (count, d')) (mode : Mode) :
    documentFile t mode path tree =
      (.ok count, if count ≠ 0 ∧ mode = .write then tree.save d' else tree) := by
  rw [documentFile, h]
  simp only [hc]

private theorem documentFile_dryRun {path : Text} {d : Document} (h : tree.document path = .ok d) :
    documentFile t .dryRun path tree = (.ok (inserted t tree path), tree) := by
  obtain ⟨text, hc, -⟩ := exists_complete (t := t) h
  rw [documentFile_ok h hc, if_neg (by simp)]

/-- A file that is found as it was before gets the comments that it would have got then. Nothing
else is written. -/
theorem documentFile_write {path : Text} {d : Document} (h : tree.document path = .ok d)
    (hlike : tree'.AlikeAt (tree.place path) tree) :
    ∃ next, documentFile t .write path tree' = (.ok (inserted t tree path), next) ∧
      next.home = tree'.home ∧
      (∀ f, (isOpen t tree path → tree.place path ≠ f) → next.AlikeAt f tree') ∧
      (isOpen t tree path → ∃ d', d.complete t = .ok (inserted t tree path, d') ∧
        d'.text ≠ d.text ∧ next.document path = .ok d') := by
  obtain ⟨text, hc, hne⟩ := exists_complete (t := t) h
  have hplace : tree'.place path = tree.place path := hlike.place_eq path
  have h' : tree'.document path = .ok d := (hlike.document_eq hplace).trans h
  obtain ⟨rfl, hfind⟩ := FileTree.document_eq_ok_iff.1 h'
  have hfile : tree'.isFile d.path := FileTree.isFile_of_find? hfind
  have hrun := documentFile_ok h' hc .write
  by_cases hopen : inserted t tree d.path = 0
  · rw [if_neg (by simp [hopen])] at hrun
    have hno : ¬ isOpen t tree d.path := by simp [isOpen, hopen]
    exact ⟨tree', hrun, rfl, fun f _ => .refl f tree', fun hyes => absurd hyes hno⟩
  · rw [if_pos ⟨hopen, rfl⟩] at hrun
    have hyes : isOpen t tree d.path := by simp [isOpen, hopen]
    have hsave := FileTree.save_eq_exchange (d := { d with text }) hfile
    refine ⟨_, hrun, ?_, fun f hf => ?_, fun _ =>
      ⟨_, hc, hne hyes, FileTree.document_save (d := { d with text }) hfile⟩⟩
    · rw [hsave, FileTree.home_exchange]
    · rw [hsave]
      exact FileTree.alikeAt_exchange _ _ _ fun heq => hf hyes (hplace.symm.trans heq.symm)

def tally (t : Templates) (tree : FileTree) (report : Report) (paths : List Text) : Report :=
  paths.foldl (fun report path => report.record path (inserted t tree path)) report

private theorem tally_eq (t : Templates) (tree : FileTree) (report : Report) (paths : List Text) :
    tally t tree report paths =
      { scanned := report.scanned + paths.length
        added := report.added + ((paths.filter (isOpen t tree)).map (inserted t tree)).sum
        changed := report.changed ++ paths.filter (isOpen t tree) } := by
  induction paths generalizing report with
  | nil => simp [tally]
  | cons path paths ih =>
    rw [tally, List.foldl_cons, ← tally, ih]
    by_cases hopen : inserted t tree path = 0
    · have hno : isOpen t tree path = false := by simp [isOpen, hopen]
      simp [Report.record, hopen, hno, Nat.add_assoc, Nat.add_comm 1]
    · have hyes : isOpen t tree path = true := by simp [isOpen, hopen]
      simp [Report.record, hopen, hyes, Nat.add_assoc, Nat.add_comm 1]

/-- A dry run over files that all can be read, and what follows them. -/
theorem documentFiles_dryRun {paths : List Text}
    (hread : ∀ p ∈ paths, ∃ d, tree.document p = .ok d) (report : Report) (rest : List Text) :
    documentFiles t .dryRun report tree (paths ++ rest) =
      documentFiles t .dryRun (tally t tree report paths) tree rest := by
  induction paths generalizing report with
  | nil => rfl
  | cons path paths ih =>
    obtain ⟨⟨d, hd⟩, hrest⟩ := List.forall_mem_cons.1 hread
    rw [List.cons_append, documentFiles, documentFile_dryRun hd]
    exact ih hrest _

/-- The same pass when it writes. Each file is found as it was, as no other path names it. -/
theorem documentFiles_write {paths : List Text}
    (hread : ∀ p ∈ paths, ∃ d, tree.document p = .ok d)
    (hplaces : paths.Pairwise fun p q => tree.place p ≠ tree.place q)
    (hlike : ∀ p ∈ paths, tree'.AlikeAt (tree.place p) tree) (report : Report) (rest : List Text) :
    ∃ after, documentFiles t .write report tree' (paths ++ rest) =
        documentFiles t .write (tally t tree report paths) after rest ∧
      after.home = tree'.home ∧
      (∀ f, (∀ p ∈ paths, isOpen t tree p → tree.place p ≠ f) → after.AlikeAt f tree') ∧
      ∀ p ∈ paths, isOpen t tree p → ∃ d d', tree.document p = .ok d ∧
        d.complete t = .ok (inserted t tree p, d') ∧ d'.text ≠ d.text ∧
        after.document p = .ok d' := by
  induction paths generalizing tree' report with
  | nil => exact ⟨tree', rfl, rfl, fun f _ => .refl f tree', nofun⟩
  | cons path paths ih =>
    obtain ⟨⟨d, hd⟩, hread'⟩ := List.forall_mem_cons.1 hread
    obtain ⟨hpath, hplaces'⟩ := List.pairwise_cons.1 hplaces
    obtain ⟨hself, hlike'⟩ := List.forall_mem_cons.1 hlike
    obtain ⟨next, hfile, hhome, hframe, hwritten⟩ := documentFile_write (t := t) hd hself
    have hnext : ∀ q ∈ paths, next.AlikeAt (tree.place q) tree := fun q hq =>
      (hframe _ fun _ => hpath q hq).trans (hlike' q hq)
    obtain ⟨after, hrun, hhome', hframe', hwritten'⟩ := ih hread' hplaces' hnext
      (report.record path (inserted t tree path))
    refine ⟨after, ?_, hhome'.trans hhome, fun f hf => ?_,
      List.forall_mem_cons.2 ⟨fun hopen => ?_, hwritten'⟩⟩
    · rw [List.cons_append, documentFiles, hfile]
      exact hrun
    · obtain ⟨hf, hfs⟩ := List.forall_mem_cons.1 hf
      exact (hframe' f hfs).trans (hframe f hf)
    · -- the rest of the pass writes to other places
      obtain ⟨d', hc, hne, hnext'⟩ := hwritten hopen
      have hlast : after.AlikeAt (tree.place path) next :=
        hframe' _ fun q hq _ => (hpath q hq).symm
      have hplace : after.place path = tree.place path := by
        rw [FileTree.place, hhome', hhome, hself.home]
        rfl
      exact ⟨d, d', hd, hc, hne, (hlast.document_eq hplace).trans hnext'⟩

/-- What files that all can be read are after a pass has written to them. -/
theorem documented_of_write {after : FileTree} {paths : List Text}
    (hread : ∀ p ∈ paths, ∃ d, tree.document p = .ok d) (hhome : after.home = tree.home)
    (hframe : ∀ f, (∀ p ∈ paths, isOpen t tree p → tree.place p ≠ f) → after.AlikeAt f tree)
    (hwritten : ∀ p ∈ paths, isOpen t tree p → ∃ d d', tree.document p = .ok d ∧
      d.complete t = .ok (inserted t tree p, d') ∧ d'.text ≠ d.text ∧
      after.document p = .ok d') :
    Documented t tree after (paths.filter (isOpen t tree)) := by
  refine ⟨fun p hp => ?_, fun at_ => ⟨fun hne => ?_, ?_⟩⟩
  · obtain ⟨hp, hopen⟩ := List.mem_filter.1 hp
    obtain ⟨d, d', hd, hc, -, hafter⟩ := hwritten p hp hopen
    exact ⟨d, d', hd, hc, hafter⟩
  · by_contra hno
    refine hne (hframe at_ fun p hp hopen hat => ?_).item?_eq
    obtain ⟨d, hd⟩ := hread p hp
    exact hno ⟨p, List.mem_filter.2 ⟨hp, hopen⟩, hat ▸ (FileTree.locate_of_document hd).1⟩
  · rintro ⟨p, hp, hat⟩ hsame
    obtain ⟨hp, hopen⟩ := List.mem_filter.1 hp
    obtain ⟨d, d', hd, -, hne, hafter⟩ := hwritten p hp hopen
    have hplace : after.place p = tree.place p := by
      rw [FileTree.place, FileTree.place, hhome]
    have hbefore := (FileTree.locate_of_document hd).2
    have hnow := (FileTree.locate_of_document hafter).2
    rw [FileTree.place_of_locate hat] at hbefore
    rw [hplace, FileTree.place_of_locate hat, hsame, hbefore] at hnow
    simp only [Option.some.injEq, Item.file.injEq, Content.text.injEq] at hnow
    exact hne hnow.symm

private theorem readable_or_exists (tree : FileTree) (paths : List Text) :
    (∀ p ∈ paths, ∃ d, tree.document p = .ok d) ∨
      ∃ before path rest e, paths = before ++ path :: rest ∧
        (∀ p ∈ before, ∃ d, tree.document p = .ok d) ∧ tree.document path = .error e := by
  induction paths with
  | nil => exact .inl nofun
  | cons path paths ih =>
    cases hd : tree.document path with
    | error e => exact .inr ⟨[], path, paths, e, rfl, nofun, hd⟩
    | ok d =>
      rcases ih with hread | ⟨before, path', rest, e, rfl, hread, he⟩
      · exact .inl (List.forall_mem_cons.2 ⟨⟨d, hd⟩, hread⟩)
      · exact .inr ⟨path :: before, path', rest, e, rfl,
          List.forall_mem_cons.2 ⟨⟨d, hd⟩, hread⟩, he⟩

/-- A pass over files that all can be read, and what follows them, in both modes. -/
theorem exists_documented {paths : List Text}
    (hread : ∀ p ∈ paths, ∃ d, tree.document p = .ok d) (rest : List Text)
    (hplaces : (paths ++ rest).Pairwise fun p q => tree.place p ≠ tree.place q) :
    ∃ after, Documented t tree after (paths.filter (isOpen t tree)) ∧
      (∀ p ∈ rest, after.document p = tree.document p) ∧
      documentFiles t .write {} tree (paths ++ rest) =
        documentFiles t .write (tally t tree {} paths) after rest ∧
      documentFiles t .dryRun {} tree (paths ++ rest) =
        documentFiles t .dryRun (tally t tree {} paths) tree rest := by
  obtain ⟨hpaths, -, hapart⟩ := List.pairwise_append.1 hplaces
  obtain ⟨after, hrun, hhome, hframe, hwritten⟩ := documentFiles_write (t := t) hread hpaths
    (fun p _ => .refl (tree.place p) tree) {} rest
  refine ⟨after, documented_of_write hread hhome hframe hwritten, fun p hp => ?_, hrun,
    documentFiles_dryRun hread {} rest⟩
  have hlike : after.AlikeAt (tree.place p) tree := hframe _ fun q hq _ => hapart q hq p hp
  exact hlike.document_eq (hlike.place_eq p)

end

/-- The files of a pass come in the order of their paths, each once. -/
theorem pairwise_sources {tree : FileTree} (h : tree.Proper) {root : Text} {paths : List Text}
    (hs : sources tree root = .ok paths) :
    paths.Pairwise fun p q => compare (Path.components p) (Path.components q) = .lt ∧
      tree.place p ≠ tree.place q := by
  rw [sources] at hs
  split at hs
  · cases hs
  · split at hs
    · split at hs
      · obtain rfl := Except.ok.inj hs
        exact List.pairwise_singleton _ _
      · cases hs
    · obtain rfl := Except.ok.inj hs
      rw [FileTree.javaSources]
      split
      · next dir hdir => exact FileTree.pairwise_listed h hdir
      · exact List.Pairwise.nil

/-- A dry run says what a pass that writes would say, and writes nothing. A pass that succeeds has
written the files of its report, and counted the comments in them; one that fails has written, of
the files that come before the unreadable one, those that get comments. -/
theorem run_faithful (t : Templates) (root : Text) {tree : FileTree} (h : tree.Proper) :
    run t .dryRun root tree = ((run t .write root tree).1, tree) ∧
    (∀ paths, sources tree root = .ok paths →
      paths.Pairwise fun p q => compare (Path.components p) (Path.components q) = .lt) ∧
    (∀ report after, run t .write root tree = (.ok report, after) →
      ∃ paths, sources tree root = .ok paths ∧
        report.changed = paths.filter (isOpen t tree) ∧ report.scanned = paths.length ∧
        report.added = (report.changed.map (inserted t tree)).sum ∧
        Documented t tree after report.changed) ∧
    ∀ e after, run t .write root tree = (.error e, after) →
      (sources tree root = .error e ∧ after = tree) ∨
      ∃ before path rest, sources tree root = .ok (before ++ path :: rest) ∧
        (∀ p ∈ before, ∃ d, tree.document p = .ok d) ∧ tree.document path = .error e ∧
        Documented t tree after (before.filter (isOpen t tree)) := by
  cases hs : sources tree root with
  | error fault =>
    have hrun (mode : Mode) : run t mode root tree = (.error fault, tree) := by rw [run, hs]
    rw [hrun, hrun]
    refine ⟨rfl, nofun, nofun, fun e after hw => ?_⟩
    obtain ⟨he, rfl⟩ := Prod.mk.inj hw
    exact .inl ⟨congrArg _ (Except.error.inj he), rfl⟩
  | ok paths =>
    have hrun (mode : Mode) : run t mode root tree = documentFiles t mode {} tree paths := by
      rw [run, hs]
    have hpairwise := pairwise_sources h hs
    have hsorted : ∀ paths', sources tree root = .ok paths' →
        paths'.Pairwise fun p q => compare (Path.components p) (Path.components q) = .lt :=
      fun paths' hs' => (pairwise_sources h hs').imp And.left
    rw [hs] at hsorted
    rw [hrun, hrun]
    rcases readable_or_exists tree paths with hread | ⟨before, path, rest, fault, rfl, hread, hfault⟩
    · obtain ⟨after, hdocumented, -, hwrite, hdry⟩ := exists_documented (t := t) hread []
        (by simpa using hpairwise.imp And.right)
      rw [List.append_nil] at hwrite hdry
      rw [hwrite, hdry, documentFiles, documentFiles]
      refine ⟨rfl, hsorted, fun report after' hw => ?_, nofun⟩
      obtain ⟨hreport, rfl⟩ := Prod.mk.inj hw
      obtain rfl := Except.ok.inj hreport
      refine ⟨paths, rfl, ?_⟩
      rw [tally_eq]
      simpa using hdocumented
    · obtain ⟨after, hdocumented, hrest, hwrite, hdry⟩ := exists_documented (t := t) hread _
        (hpairwise.imp And.right)
      have hfault' : after.document path = .error fault :=
        (hrest path List.mem_cons_self).trans hfault
      rw [hwrite, hdry, documentFiles, documentFiles, documentFile_error hfault,
        documentFile_error hfault']
      refine ⟨rfl, hsorted, nofun, fun e after' hw => .inr ?_⟩
      obtain ⟨he, rfl⟩ := Prod.mk.inj hw
      obtain rfl := Except.error.inj he
      exact ⟨before, path, rest, rfl, hread, hfault, hdocumented⟩

def interrupted : FileTree :=
  (((FileTree.put {} ["src".toList, "A.java".toList] (.file (.text "class A \x7b\x7d".toList))).put
    ["src".toList, "B.java".toList] (.file .bytes)).put
      ["src".toList, "C.java".toList] (.file (.text "class C \x7b\x7d".toList)))

theorem run_faithful_interrupted : interrupted.Proper ∧
    run .standard .dryRun "src".toList interrupted =
      (.error (.unreadable .notUnicode), interrupted) ∧
    ∃ before path rest, sources interrupted "src".toList = .ok (before ++ path :: rest) ∧
      interrupted.document path = .error (.unreadable .notUnicode) ∧
      Documented .standard interrupted (run .standard .write "src".toList interrupted).2
        (before.filter (isOpen .standard interrupted)) ∧
      before.filter (isOpen .standard interrupted) = ["src/A.java".toList] := by
  have hproper : interrupted.Proper := by
    have hall : ∀ e ∈ interrupted.items.entries, ∀ name ∈ e.1,
        name ≠ [] ∧ '/' ∉ name ∧ name ≠ Path.here ∧ name ≠ Path.above := by decide +kernel
    intro e he name hname
    obtain ⟨hne, hslash, hhere, habove⟩ := hall e he name hname
    exact ⟨hne, hslash, hhere, habove⟩
  have hsources : sources interrupted "src".toList =
      .ok ["src/A.java".toList, "src/B.java".toList, "src/C.java".toList] := by decide +kernel
  have hresult : (run .standard .write "src".toList interrupted).1 =
      .error (.unreadable .notUnicode) := by decide +kernel
  have hread : interrupted.document "src/A.java".toList ≠ .error (.unreadable .notUnicode) ∧
      interrupted.document "src/C.java".toList ≠ .error (.unreadable .notUnicode) := by
    decide +kernel
  obtain ⟨hdry, -, -, hfailed⟩ := run_faithful .standard "src".toList hproper
  rcases hfailed _ _ (Prod.ext hresult rfl) with
    ⟨hs, -⟩ | ⟨before, path, rest, hs, -, hfault, hdocumented⟩
  · rw [hsources] at hs
    cases hs
  · refine ⟨hproper, by rw [hdry, hresult], before, path, rest, hs, hfault, hdocumented, ?_⟩
    rw [hsources] at hs
    rcases before with _ | ⟨a, _ | ⟨b, _ | ⟨c, before⟩⟩⟩
    · cases hs
      exact absurd hfault hread.1
    · cases hs
      decide +kernel
    · cases hs
      exact absurd hfault hread.2
    · simp at hs

end Pass
end Javadoc
