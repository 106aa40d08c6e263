import Javadoc.Proofs.Files.Place
import Javadoc.Proofs.Sync.Registry
import Javadoc.Watcher

/-! Files do not disturb each other. What a watcher does about one file depends on that file and on
its synchronizer, and changes nothing else, so that in any sequence of notifications each file comes
to what those about it alone would make of it. -/
namespace Javadoc

/-- A look at a file depends on what is read there, and writes nothing but the file. -/
theorem Synchronizer.exists_synchronize (s : Synchronizer) (path : Text) (tree : FileTree) :
    ∃ result s' text?, ∀ tree' : FileTree, tree'.document path = tree.document path →
      s.synchronize path tree' = (result, s',
        Option.elim text? tree' fun text =>
          tree'.exchange (tree'.place path) (some (.text text))) := by
  rcases synchronize_cases s path tree with ⟨e, hdocument, -⟩ |
    ⟨text, hdocument, hno, -⟩ | ⟨text, edits, s', text', hdocument, hobserve, happly, -⟩
  · exact ⟨_, _, none, fun tree' h => synchronize_unreadable (h.trans hdocument)⟩
  · have hobserve : s.observe (SourceFile.read path text) =
        (.error (.noContainer path), (s.observe (SourceFile.read path text)).2) := by
      rw [← hno]
    exact ⟨_, _, none, fun tree' h => synchronize_error (h.trans hdocument) hobserve⟩
  · refine ⟨.ok edits.length, s', some text', fun tree' h => ?_⟩
    obtain ⟨text₁, happly₁, hsync⟩ := synchronize_ok (h.trans hdocument) hobserve
    obtain rfl : text₁ = text' := Except.ok.inj (happly₁.symm.trans happly)
    have hfile : tree'.isFile path :=
      FileTree.isFile_of_find? (FileTree.document_eq_ok_iff.1 (h.trans hdocument)).2
    rw [hsync, FileTree.save_eq_exchange hfile]
    rfl

/-- A watcher, and the files. -/
abbrev Watched := Watcher × FileTree

namespace Watched

/-- What concerns the file at one place is the same: what is there, the directories, and the
synchronizers of the paths that name it. -/
structure Alike (f : Location) (x y : Watched) : Prop where
  root : x.1.root = y.1.root
  tree : x.2.AlikeAt f y.2
  registry : ∀ key, Path.placeFrom x.2.home key = f → x.1.registry.get? key = y.1.registry.get? key

namespace Alike

variable {f : Location} {x y z : Watched}

private theorem refl (f : Location) (x : Watched) :
    Alike f x x := ⟨rfl, .refl f x.2, fun _ _ => rfl⟩

private theorem symm (h : Alike f x y) : Alike f y x :=
  ⟨h.root.symm, h.tree.symm, fun key hkey => (h.registry key (h.tree.home ▸ hkey)).symm⟩

private theorem trans (h : Alike f x y) (h' : Alike f y z) : Alike f x z :=
  ⟨h.root.trans h'.root, h.tree.trans h'.tree, fun key hkey =>
    (h.registry key hkey).trans (h'.registry key (h.tree.home ▸ hkey))⟩

private theorem exchange (h : Alike f x y) (at_ : Location) (content? : Option Content) :
    Alike f (x.1, x.2.exchange at_ content?) (y.1, y.2.exchange at_ content?) :=
  ⟨h.root, h.tree.exchange at_ content?, fun key hkey =>
    h.registry key (x.2.home_exchange at_ content? ▸ hkey)⟩

/-- A synchronizer that is settled for a path that names the place. -/
theorem settle (h : Alike f x y) (path : Text) (result : Except Error Nat) (s : Synchronizer) :
    Alike f ({ x.1 with registry := x.1.registry.settle path result s }, x.2)
      ({ y.1 with registry := y.1.registry.settle path result s }, y.2) := by
  refine ⟨h.root, h.tree, fun key hkey => ?_⟩
  by_cases hpath : key = Path.components path
  · subst hpath
    exact (Registry.at?_settle_self _ path result s).trans
      (Registry.at?_settle_self _ path result s).symm
  · exact (Registry.get?_settle_of_ne hpath _ result s).trans
      ((h.registry key hkey).trans (Registry.get?_settle_of_ne hpath _ result s).symm)

end Alike

/-- Watchers and files that are alike at every place are the same. -/
theorem ext_alike {x y : Watched} (h : ∀ f, Alike f x y) : x = y := by
  obtain ⟨⟨root, registry⟩, tree⟩ := x
  obtain ⟨⟨root', registry'⟩, tree'⟩ := y
  obtain rfl : root = root' := (h []).root
  obtain rfl : tree = tree' := FileTree.ext_alikeAt fun f => (h f).tree
  obtain rfl : registry = registry' := OrderedMap.ext_get? fun key => (h _).registry key rfl
  rfl

section

variable {f : Location} (x : Watched)

private theorem alike_exchange {at_ : Location} (hf : at_ ≠ f) (content? : Option Content) :
    Alike f (x.1, x.2.exchange at_ content?) x :=
  ⟨rfl, FileTree.alikeAt_exchange _ _ _ hf.symm, fun _ _ => rfl⟩

private theorem alike_settle {path : Text} (hf : x.2.place path ≠ f) (result : Except Error Nat)
    (s : Synchronizer) :
    Alike f ({ x.1 with registry := x.1.registry.settle path result s }, x.2) x := by
  refine ⟨rfl, .refl f x.2, fun key hkey => Registry.get?_settle_of_ne ?_ _ result s⟩
  rintro rfl
  exact hf hkey

end

/-- What a look comes to: its result, the synchronizer for its path, and perhaps a new content. -/
theorem exists_change (x : Watched) (path : Text) :
    ∃ result s text?, ∀ y : Watched, y.1.registry.at? path = x.1.registry.at? path →
      y.2.document path = x.2.document path →
      y.1.change path y.2 = (result, { y.1 with registry := y.1.registry.settle path result s },
        Option.elim text? y.2 fun text => y.2.exchange (y.2.place path) (some (.text text))) := by
  obtain ⟨result, s, text?, h⟩ := ((x.1.registry.at? path).getD {}).exists_synchronize path x.2
  refine ⟨result, s, text?, fun y hat hdocument => ?_⟩
  rw [Watcher.change, hat]
  simp only
  rw [h y.2 hdocument]

/-- What a look at a file gives depends on what concerns it. -/
theorem Alike.change {x y : Watched} {path : Text} (h : Alike (x.2.place path) x y) :
    (x.1.change path x.2).1 = (y.1.change path y.2).1 ∧
      Alike (x.2.place path) (x.1.change path x.2).2 (y.1.change path y.2).2 := by
  have hat : y.1.registry.at? path = x.1.registry.at? path := (h.registry _ rfl).symm
  obtain ⟨result, s, text?, hchange⟩ := exists_change x path
  rw [hchange x rfl rfl, hchange y hat (h.tree.document_eq rfl).symm, ← h.tree.place_eq path]
  refine ⟨rfl, ?_⟩
  cases text? with
  | none => exact h.settle path result s
  | some text => exact (h.settle path result s).exchange _ _

/-- A look at a file is about it alone. -/
theorem alike_change {f : Location} (x : Watched) {path : Text} (hf : x.2.place path ≠ f) :
    Alike f (x.1.change path x.2).2 x := by
  obtain ⟨result, s, text?, hchange⟩ := exists_change x path
  rw [hchange x rfl rfl]
  cases text? with
  | none => exact alike_settle x hf result s
  | some text => exact (alike_exchange _ hf _).trans (alike_settle x hf result s)

private theorem Alike.handlePath {x y : Watched} {path : Text} (h : Alike (x.2.place path) x y)
    (kind : EventKind) :
    Alike (x.2.place path) (Watcher.handlePath kind path x.1 x.2)
      (Watcher.handlePath kind path y.1 y.2) := by
  rw [Watcher.handlePath, Watcher.handlePath, h.tree.isFile_eq rfl]
  split
  · exact h
  · split
    · exact h.settle path (.error (.noContainer path)) {}
    · split
      · exact h
      · exact h.change.2

private theorem alike_handlePath {f : Location} (x : Watched) {path : Text}
    (hf : x.2.place path ≠ f)
    (kind : EventKind) : Alike f (Watcher.handlePath kind path x.1 x.2) x := by
  rw [Watcher.handlePath]
  split
  · exact .refl f x
  · split
    · exact alike_settle x hf (.error (.noContainer path)) {}
    · split
      · exact .refl f x
      · exact alike_change x hf

private theorem home_handlePath (kind : EventKind) (path : Text) (x : Watched) :
    (Watcher.handlePath kind path x.1 x.2).2.home = x.2.home :=
  (alike_handlePath x (f := x.2.place path ++ [[]]) (by simp) kind).tree.home

/-- Something that is noticed about files. -/
inductive Notice where
  /-- Somebody writes the file at a location, or removes it, and nobody tells the watcher. -/
  | saved (at_ : Location) (content? : Option Content)
  | change (path : Text)
  | event (event : Event)

def names (home f : Location) (path : Text) : Bool :=
  Path.placeFrom home (Path.components path) = f

def Notice.about? (home f : Location) : Notice → Option Notice
  | saved at_ content? => if at_ = f then some (saved at_ content?) else none
  | change path => if names home f path then some (change path) else none
  | event ⟨kind, paths⟩ =>
    if paths.any (names home f) then some (event ⟨kind, paths.filter (names home f)⟩) else none

/-- The sequence of a file: what the notices say about it, in their order. -/
def own (home f : Location) (notices : List Notice) : List Notice :=
  notices.filterMap (Notice.about? home f)

def next (x : Watched) : Notice → Watched
  | .saved at_ content? => (x.1, x.2.exchange at_ content?)
  | .change path => (x.1.change path x.2).2
  | .event event => x.1.handle event x.2

def run (x : Watched) (notices : List Notice) : Watched := notices.foldl next x

private theorem names_home_iff {x : Watched} {f : Location} {path : Text} :
    names x.2.home f path ↔ x.2.place path = f := by
  simp [names, FileTree.place]

private theorem Alike.handlePaths {f home : Location} {x y : Watched} (h : Alike f x y)
    (hhome : x.2.home = home) (kind : EventKind) (paths : List Text) :
    Alike f (paths.foldl (fun (w, tree) path => Watcher.handlePath kind path w tree) x)
      ((paths.filter (names home f)).foldl
        (fun (w, tree) path => Watcher.handlePath kind path w tree) y) := by
  induction paths generalizing x y with
  | nil => exact h
  | cons path paths ih =>
    have hhome' := (home_handlePath kind path x).trans hhome
    have hname : names home f path ↔ x.2.place path = f := hhome ▸ names_home_iff
    by_cases hf : x.2.place path = f
    · rw [List.foldl_cons, List.filter_cons_of_pos (hname.2 hf)]
      subst hf
      exact ih (h.handlePath kind) hhome'
    · rw [List.foldl_cons, List.filter_cons_of_neg (fun h => hf (hname.1 h))]
      exact ih ((alike_handlePath x hf kind).trans h) hhome'

private theorem home_next (x : Watched) (n : Notice) : (next x n).2.home = x.2.home := by
  cases n with
  | saved at_ content? => exact x.2.home_exchange at_ content?
  | change path => exact (alike_change x (f := x.2.place path ++ [[]]) (by simp)).tree.home
  | event event =>
    rw [next, Watcher.handle]
    split
    · rfl
    · induction event.paths generalizing x with
      | nil => rfl
      | cons path paths ih =>
        rw [List.foldl_cons]
        exact (ih _).trans (home_handlePath event.kind path x)

/-- What a notice does to a file is what it says about that file. -/
theorem Alike.next {f : Location} {x y : Watched} (h : Alike f x y) (n : Notice) :
    Alike f (next x n) ((n.about? x.2.home f).elim y (Watched.next y)) := by
  cases n with
  | saved at_ content? =>
    rw [Notice.about?]
    split
    · exact h.exchange at_ content?
    · next hf => exact (alike_exchange x hf content?).trans h
  | change path =>
    rw [Notice.about?]
    split
    · next hname =>
      obtain rfl := names_home_iff.1 hname
      exact h.change.2
    · next hname => exact (alike_change x (hname ∘ names_home_iff.2)).trans h
  | event event =>
    obtain ⟨kind, paths⟩ := event
    have hpaths := h.handlePaths rfl kind paths
    -- a notification of no interest does nothing, whatever paths it names
    by_cases hkind : kind = .other
    · rw [Notice.about?, Watched.next, Watcher.handle, if_pos hkind]
      split
      · rw [Option.elim_some, Watched.next, Watcher.handle, if_pos hkind]
        exact h
      · exact h
    · rw [Notice.about?, Watched.next, Watcher.handle, if_neg hkind]
      by_cases hany : paths.any (names x.2.home f)
      · rw [if_pos hany, Option.elim_some, Watched.next, Watcher.handle, if_neg hkind]
        exact hpaths
      · have hnil : paths.filter (names x.2.home f) = [] := by simpa using hany
        rw [if_neg hany, Option.elim_none]
        rwa [hnil] at hpaths

/-- Each file comes to what its own sequence makes of it. -/
theorem Alike.run {f : Location} {x y : Watched} (h : Alike f x y) (notices : List Notice) :
    Alike f (run x notices) (Watched.run y (own x.2.home f notices)) := by
  induction notices generalizing x y with
  | nil => exact h
  | cons n notices ih =>
    have hrest := ih (h.next n)
    rw [home_next] at hrest
    cases hn : n.about? x.2.home f with
    | none =>
      rw [own, List.filterMap_cons_none hn]
      rwa [hn] at hrest
    | some m =>
      rw [own, List.filterMap_cons_some hn]
      rwa [hn] at hrest

section

variable (x : Watched) {ns ms : List Notice}

/-- Sequences that say the same about a file do the same to it. -/
theorem alike_of_own_eq {f : Location} (h : own x.2.home f ns = own x.2.home f ms) :
    Alike f (run x ns) (run x ms) := by
  have hns := (Alike.refl f x).run ns
  have hms := (Alike.refl f x).run ms
  rw [h] at hns
  exact hns.trans hms.symm

private theorem run_eq_of_own_eq (h : ∀ f, own x.2.home f ns = own x.2.home f ms) :
    run x ns = run x ms :=
  ext_alike fun f => alike_of_own_eq x (h f)

/-- Looks at different files come to the same in both orders. -/
theorem change_comm {p q : Text} (h : x.2.place p ≠ x.2.place q) :
    ∃ rp rq y z both, x.1.change p x.2 = (rp, y) ∧ y.1.change q y.2 = (rq, both) ∧
      x.1.change q x.2 = (rq, z) ∧ z.1.change p z.2 = (rp, both) := by
  have hp := (alike_change x h.symm).symm.change.1
  have hq := (alike_change x h).symm.change.1
  have hboth : run x [.change p, .change q] = run x [.change q, .change p] := by
    refine x.run_eq_of_own_eq fun f => ?_
    by_cases hf : x.2.place p = f
    · have hno : (Notice.change q).about? x.2.home f = none :=
        if_neg fun hname => h (hf.trans (names_home_iff.1 hname).symm)
      simp only [own, List.filterMap_cons, hno]
    · have hno : (Notice.change p).about? x.2.home f = none :=
        if_neg fun hname => hf (names_home_iff.1 hname)
      simp only [own, List.filterMap_cons, hno]
  refine ⟨(x.1.change p x.2).1, (x.1.change q x.2).1, (x.1.change p x.2).2, (x.1.change q x.2).2,
    run x [.change p, .change q], rfl, ?_, rfl, ?_⟩
  · rw [hq]
    rfl
  · rw [hp, hboth]
    rfl

end

/-- Two sequences put together so that each keeps its order. -/
inductive Interleaved : List Notice → List Notice → List Notice → Prop where
  | nil : Interleaved [] [] []
  | left {n : Notice} {ns ms both : List Notice} :
    Interleaved ns ms both → Interleaved (n :: ns) ms (n :: both)
  | right {n : Notice} {ns ms both : List Notice} :
    Interleaved ns ms both → Interleaved ns (n :: ms) (n :: both)

namespace Interleaved

variable {home f : Location} {ns ms both : List Notice}

private theorem symm (h : Interleaved ns ms both) : Interleaved ms ns both := by
  induction h with
  | nil => exact .nil
  | left _ ih => exact .right ih
  | right _ ih => exact .left ih

private theorem own_eq (h : Interleaved ns ms both) (hms : own home f ms = []) :
    own home f both = own home f ns := by
  rw [own, List.filterMap_eq_nil_iff] at hms
  induction h with
  | nil => rfl
  | left _ ih => rw [own, own, List.filterMap_cons, List.filterMap_cons, ← own, ← own, ih hms]
  | right _ ih =>
    obtain ⟨hm, hms⟩ := List.forall_mem_cons.1 hms
    rw [own, List.filterMap_cons_none hm]
    exact ih hms

end Interleaved

/-- Looks at different files come to the same in both orders, with the same results. What a sequence
of notices makes of a file, of its content and of its synchronizers, depends on what the notices say
about this file alone. So sequences about different files can be interleaved in any way. -/
theorem run_independent (x : Watched) :
    (∀ p q, x.2.place p ≠ x.2.place q → ∃ rp rq y z both,
      x.1.change p x.2 = (rp, y) ∧ y.1.change q y.2 = (rq, both) ∧
      x.1.change q x.2 = (rq, z) ∧ z.1.change p z.2 = (rp, both)) ∧
    (∀ f ns ms, own x.2.home f ns = own x.2.home f ms → Alike f (run x ns) (run x ms)) ∧
    (∀ ns ms, (∀ f, own x.2.home f ns = own x.2.home f ms) → run x ns = run x ms) ∧
    ∀ ns ms both, Interleaved ns ms both →
      (∀ f, own x.2.home f ns = [] ∨ own x.2.home f ms = []) →
      (∀ f, own x.2.home f ms = [] → Alike f (run x both) (run x ns)) ∧
      (∀ f, own x.2.home f ns = [] → Alike f (run x both) (run x ms)) ∧
      ∀ both', Interleaved ns ms both' → run x both' = run x both := by
  refine ⟨fun p q => x.change_comm, fun f ns ms => x.alike_of_own_eq,
    fun ns ms => x.run_eq_of_own_eq, fun ns ms both h hapart => ⟨fun f hms => ?_, fun f hns => ?_,
      fun both' h' => x.run_eq_of_own_eq fun f => ?_⟩⟩
  · exact x.alike_of_own_eq (h.own_eq hms)
  · exact x.alike_of_own_eq (h.symm.own_eq hns)
  · rcases hapart f with hns | hms
    · exact (h'.symm.own_eq hns).trans (h.symm.own_eq hns).symm
    · exact (h'.own_eq hms).trans (h.own_eq hms).symm

def twoFiles : Watched :=
  let content := Item.file (.text (Synchronizer.described ['x']))
  ({ root := [] }, ((FileTree.put {} ["A.java".toList] content).put ["B.java".toList] content))

def redescribed (file : Text) : List Notice :=
  [.change file, .saved [file] (some (.text (Synchronizer.described ['y']))),
    .event ⟨.modified, [file]⟩]

def byTurns : List Notice :=
  ((redescribed "A.java".toList).zipWith (fun n m => [n, m])
    (redescribed "B.java".toList)).flatten

theorem run_independent_byTurns :
    Interleaved (redescribed "A.java".toList) (redescribed "B.java".toList) byTurns ∧
    (∀ f, own [] f (redescribed "A.java".toList) = [] ∨
      own [] f (redescribed "B.java".toList) = []) ∧
    Alike ["A.java".toList] (run twoFiles byTurns)
      (run twoFiles (redescribed "A.java".toList)) ∧
    Alike ["B.java".toList] (run twoFiles byTurns)
      (run twoFiles (redescribed "B.java".toList)) ∧
    (run twoFiles byTurns).2.find? "B.java".toList = some (.file (.text (Text.joinLines
      ["class A \x7b /** y */ int a; /**".toList, "* @param a: y".toList,
        "*/ A(int a) \x7b \x7d \x7d".toList]))) := by
  have hboth : Interleaved (redescribed "A.java".toList) (redescribed "B.java".toList) byTurns :=
    .left (.right (.left (.right (.left (.right .nil)))))
  have hnil {file : Text} (hfile : Path.placeFrom [] (Path.components file) = [file])
      {f : Location} (hf : [file] ≠ f) : own [] f (redescribed file) = [] := by
    have hname : names [] f file = false := by simpa [names, hfile] using hf
    simp [own, redescribed, Notice.about?, hname, hf]
  have hA : Path.placeFrom [] (Path.components "A.java".toList) = ["A.java".toList] := by decide
  have hB : Path.placeFrom [] (Path.components "B.java".toList) = ["B.java".toList] := by decide
  have hapart (f : Location) : own [] f (redescribed "A.java".toList) = [] ∨
      own [] f (redescribed "B.java".toList) = [] := by
    by_cases hf : ["A.java".toList] = f
    · exact .inr (hnil hB (hf ▸ by decide))
    · exact .inl (hnil hA hf)
  obtain ⟨-, -, -, hinterleaved⟩ := run_independent twoFiles
  obtain ⟨hleft, hright, -⟩ := hinterleaved _ _ _ hboth hapart
  exact ⟨hboth, hapart, hleft _ (hnil hB (by decide)), hright _ (hnil hA (by decide)),
    by decide +kernel⟩

end Watched
end Javadoc
