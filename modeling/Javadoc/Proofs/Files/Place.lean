import Javadoc.Proofs.Files.Writing

/-! The place that a path names, whether something is there or not. What a path reads depends on the
directories and on what is at its place, and exchanging a file is about its place alone. -/
namespace Javadoc

private theorem Text.not_mem_of_mem_splitOnChar {sep : Char} {t piece : Text}
    (h : piece ∈ Text.splitOnChar sep t) : sep ∉ piece := by
  induction t generalizing piece with
  | nil =>
    obtain rfl : piece = [] := by simpa [Text.splitOnChar] using h
    exact List.not_mem_nil
  | cons c cs ih =>
    rw [Text.splitOnChar] at h
    split at h
    · rcases List.mem_cons.1 h with rfl | h
      · exact List.not_mem_nil
      · exact ih h
    · next hc =>
      split at h
      · obtain rfl : piece = [c] := by simpa using h
        simpa using Ne.symm hc
      · next p ps hsplit =>
        rcases List.mem_cons.1 h with rfl | h
        · have hp : sep ∉ p := ih (hsplit ▸ List.mem_cons_self)
          simpa using ⟨Ne.symm hc, hp⟩
        · exact ih (hsplit ▸ List.mem_cons_of_mem _ h)

namespace Path

def lead (at_ : Location) (component : Text) : Location :=
  if component = root then []
  else if component.isEmpty || component == here then at_
  else if component == above then at_.dropLast
  else at_ ++ [component]

def placeFrom (home : Location) (components : List Text) : Location := components.foldl lead home

private theorem placeFrom_filter {at_ : Location} {pieces : List Text}
    (h : ∀ piece ∈ pieces, '/' ∉ piece) :
    placeFrom at_ (pieces.filter fun p => !p.isEmpty && p != here) = placeFrom at_ pieces := by
  induction pieces generalizing at_ with
  | nil => rfl
  | cons piece pieces ih =>
    obtain ⟨hpiece, hpieces⟩ := List.forall_mem_cons.1 h
    rw [List.filter_cons]
    split
    · exact ih hpieces
    · next hvoid =>
      have hroot : piece ≠ root := by
        rintro rfl
        exact hpiece List.mem_cons_self
      have hstays : lead at_ piece = at_ := by
        rw [lead, if_neg hroot, if_pos]
        simpa [Decidable.or_iff_not_imp_left] using hvoid
      rw [ih hpieces, placeFrom, placeFrom, List.foldl_cons, hstays]

end Path

namespace FileTree

def place (tree : FileTree) (path : Text) : Location :=
  Path.placeFrom tree.home (Path.components path)

private theorem isFile_iff {tree : FileTree} {path : Text} :
    tree.isFile path ↔ ∃ content, tree.find? path = some (.file content) := by
  constructor
  · intro h
    rw [isFile] at h
    split at h
    · next content hfind => exact ⟨content, hfind⟩
    · cases h
  · rintro ⟨content, h⟩
    exact isFile_of_find? h

private theorem item?_of_step {tree : FileTree} {at_ next : Location} {piece : Text}
    (h : tree.step at_ piece = .ok next) : tree.item? at_ = some .directory := by
  rw [step] at h
  split at h
  · cases h
  · next hdirectory => simpa using hdirectory

private theorem foldlM_step_cons {tree : FileTree} {at_ stop : Location} {piece : Text}
    {pieces : List Text} (h : (piece :: pieces).foldlM tree.step at_ = .ok stop) :
    ∃ next, tree.step at_ piece = .ok next ∧ pieces.foldlM tree.step next = .ok stop := by
  rw [List.foldlM_cons] at h
  cases hstep : tree.step at_ piece with
  | error fault =>
    rw [hstep] at h
    cases h
  | ok next => exact ⟨next, rfl, by rwa [hstep] at h⟩

section

variable {tree : FileTree}

private theorem lead_of_step {at_ next : Location} {piece : Text} (hpiece : '/' ∉ piece)
    (h : tree.step at_ piece = .ok next) : Path.lead at_ piece = next := by
  have hroot : piece ≠ Path.root := by
    rintro rfl
    exact hpiece List.mem_cons_self
  rw [step] at h
  rw [Path.lead, if_neg hroot]
  split at h
  · cases h
  split at h
  · next hvoid =>
    rw [if_pos hvoid]
    exact Except.ok.inj h
  · next hvoid =>
    rw [if_neg hvoid]
    split at h
    · next habove =>
      rw [if_pos habove]
      exact Except.ok.inj h
    · next habove =>
      rw [if_neg habove]
      split at h
      · exact Except.ok.inj h
      · cases h

private theorem placeFrom_of_foldlM {at_ stop : Location} {pieces : List Text}
    (hpieces : ∀ piece ∈ pieces, '/' ∉ piece) (h : pieces.foldlM tree.step at_ = .ok stop) :
    Path.placeFrom at_ pieces = stop := by
  induction pieces generalizing at_ with
  | nil => exact Except.ok.inj h
  | cons piece pieces ih =>
    obtain ⟨hpiece, hpieces⟩ := List.forall_mem_cons.1 hpieces
    obtain ⟨next, hstep, hrest⟩ := foldlM_step_cons h
    rw [Path.placeFrom, List.foldl_cons, lead_of_step hpiece hstep]
    exact ih hpieces hrest

/-- A path that leads somewhere leads to its place. -/
theorem place_of_locate {path : Text} {at_ : Location} (h : tree.locate path = .ok at_) :
    tree.place path = at_ := by
  have hpieces (t : Text) : ∀ piece ∈ Text.splitOnChar '/' t, '/' ∉ piece :=
    fun piece hm => Text.not_mem_of_mem_splitOnChar hm
  rw [locate.eq_def] at h
  split at h
  · cases h
  · next rest =>
    have hsplit : Text.splitOnChar '/' ('/' :: rest) = [] :: Text.splitOnChar '/' rest := by
      rw [Text.splitOnChar, if_pos rfl]
    rw [place, Path.components, hsplit]
    simp only [List.head?_cons, beq_self_eq_true, if_true]
    rw [Path.placeFrom, List.foldl_cons, ← Path.placeFrom, Path.lead, if_pos rfl,
      List.filter_cons_of_neg (by simp), Path.placeFrom_filter (hpieces rest)]
    exact placeFrom_of_foldlM (hpieces rest) h
  · next hne =>
    have hplace := placeFrom_of_foldlM (hpieces path) h
    rw [← Path.placeFrom_filter (hpieces path)] at hplace
    have hhead : (path.head? == some '/') = false := by
      cases path with
      | nil => rfl
      | cons c cs => simpa using fun hc : c = '/' => hne cs (hc ▸ rfl)
    rw [place, Path.components]
    simp only [hhead, Bool.false_eq_true, if_false]
    split
    · rw [Path.placeFrom, List.foldl_cons, ← Path.placeFrom]
      exact hplace
    · exact hplace

end

theorem locate_of_document {tree : FileTree} {path : Text} {d : Document}
    (h : tree.document path = .ok d) :
    tree.locate path = .ok (tree.place path) ∧
      tree.item? (tree.place path) = some (.file (.text d.text)) := by
  obtain ⟨-, hfind⟩ := document_eq_ok_iff.1 h
  rw [find?] at hfind
  split at hfind
  · next at_ hat =>
    obtain rfl := place_of_locate hat
    exact ⟨hat, hfind⟩
  · cases hfind

structure AlikeAt (f : Location) (tree tree' : FileTree) : Prop where
  home : tree.home = tree'.home
  directory : ∀ at_, tree.item? at_ = some .directory ↔ tree'.item? at_ = some .directory
  item : tree.items.get? f = tree'.items.get? f

namespace AlikeAt

variable {f : Location} {tree tree' tree'' : FileTree}

theorem refl (f : Location) (tree : FileTree) : AlikeAt f tree tree :=
  ⟨rfl, fun _ => Iff.rfl, rfl⟩

theorem symm (h : AlikeAt f tree tree') : AlikeAt f tree' tree :=
  ⟨h.home.symm, fun at_ => (h.directory at_).symm, h.item.symm⟩

theorem trans (h : AlikeAt f tree tree') (h' : AlikeAt f tree' tree'') : AlikeAt f tree tree'' :=
  ⟨h.home.trans h'.home, fun at_ => (h.directory at_).trans (h'.directory at_),
    h.item.trans h'.item⟩

theorem item?_eq (h : AlikeAt f tree tree') : tree.item? f = tree'.item? f := by
  rw [item?, item?, h.item]

private theorem step_eq (h : AlikeAt f tree tree') {at_ next : Location} {piece : Text}
    (hstep : tree.step at_ piece = .ok next) (hnext : (tree'.item? next).isSome) :
    tree'.step at_ piece = .ok next := by
  have hat := (h.directory at_).1 (item?_of_step hstep)
  rw [step, item?_of_step hstep] at hstep
  rw [step, hat]
  simp only [bne_self_eq_false, Bool.false_eq_true, if_false] at hstep ⊢
  split at hstep
  · next hvoid => rwa [if_pos hvoid]
  · next hvoid =>
    rw [if_neg hvoid]
    split at hstep
    · next habove => rwa [if_pos habove]
    · next habove =>
      rw [if_neg habove]
      split at hstep
      · obtain rfl := Except.ok.inj hstep
        rw [if_pos hnext]
      · cases hstep

/-- A way that ends at the place leads through the directories of both. -/
theorem foldlM_step (h : AlikeAt f tree tree') (hf : (tree.item? f).isSome) {at_ : Location}
    {pieces : List Text} (hway : pieces.foldlM tree.step at_ = .ok f) :
    pieces.foldlM tree'.step at_ = .ok f := by
  induction pieces generalizing at_ with
  | nil => exact hway
  | cons piece pieces ih =>
    obtain ⟨next, hstep, hrest⟩ := foldlM_step_cons hway
    -- only the last stop of the way can be something else than a directory
    have hnext : (tree'.item? next).isSome := by
      cases pieces with
      | nil =>
        obtain rfl := Except.ok.inj hrest
        rwa [← h.item?_eq]
      | cons piece' pieces =>
        obtain ⟨_, hstep, -⟩ := foldlM_step_cons hrest
        rw [(h.directory next).1 (item?_of_step hstep)]
        rfl
    rw [List.foldlM_cons, h.step_eq hstep hnext]
    exact ih hrest

private theorem locate_eq (h : AlikeAt f tree tree') {path : Text} (hf : (tree.item? f).isSome)
    (hpath : tree.locate path = .ok f) : tree'.locate path = .ok f := by
  rw [locate.eq_def] at hpath ⊢
  split at hpath
  · cases hpath
  · exact h.foldlM_step hf hpath
  · rw [← h.home]
    exact h.foldlM_step hf hpath

private theorem find?_file (h : AlikeAt f tree tree') {path : Text} (hp : tree.place path = f)
    {content : Content} (hfind : tree.find? path = some (.file content)) :
    tree'.find? path = some (.file content) := by
  rw [find?] at hfind ⊢
  split at hfind
  · next at_ hat =>
    obtain rfl : at_ = f := (place_of_locate hat).symm.trans hp
    rw [h.locate_eq (by rw [hfind]; rfl) hat]
    exact h.item?_eq.symm.trans hfind
  · cases hfind

theorem place_eq (h : AlikeAt f tree tree') (path : Text) : tree.place path = tree'.place path := by
  rw [place, place, h.home]

theorem isFile_eq (h : AlikeAt f tree tree') {path : Text} (hp : tree.place path = f) :
    tree.isFile path = tree'.isFile path := by
  rw [Bool.eq_iff_iff, isFile_iff, isFile_iff]
  constructor
  · rintro ⟨content, hfind⟩
    exact ⟨content, h.find?_file hp hfind⟩
  · rintro ⟨content, hfind⟩
    exact ⟨content, h.symm.find?_file ((h.place_eq path).symm.trans hp) hfind⟩

/-- What is read at the place is the same. -/
theorem document_eq (h : AlikeAt f tree tree') {path : Text} (hp : tree.place path = f) :
    tree.document path = tree'.document path := by
  by_cases hfile : tree.isFile path
  · obtain ⟨content, hfind⟩ := isFile_iff.1 hfile
    rw [document_of_find? hfind, document_of_find? (h.find?_file hp hfind)]
    cases content <;> rfl
  · have hfile' : ¬ tree'.isFile path := h.isFile_eq hp ▸ hfile
    rw [document, document, if_neg hfile, if_neg hfile']

end AlikeAt

def exchange (tree : FileTree) (at_ : Location) (content? : Option Content) : FileTree :=
  if tree.item? at_ = some .directory then tree
  else
    { tree with items :=
        content?.elim (tree.items.erase at_) fun content => tree.items.insert at_ (.file content) }

section

variable (tree : FileTree) (at_ : Location) (content? : Option Content)

theorem home_exchange : (tree.exchange at_ content?).home = tree.home := by
  rw [exchange]
  split <;> rfl

private theorem get?_exchange_of_ne {f : Location} (hf : f ≠ at_) :
    (tree.exchange at_ content?).items.get? f = tree.items.get? f := by
  rw [exchange]
  split
  · rfl
  · cases content? with
    | some content => exact OrderedMap.get?_insert_of_ne hf _ _
    | none => exact OrderedMap.get?_erase_of_ne hf _

private theorem get?_exchange_self (h : tree.item? at_ ≠ some .directory) :
    (tree.exchange at_ content?).items.get? at_ = content?.map .file := by
  rw [exchange, if_neg h]
  cases content? with
  | some content => exact OrderedMap.get?_insert_self _ _ _
  | none => exact OrderedMap.get?_erase_self _ _

private theorem item?_exchange_directory (other : Location) :
    (tree.exchange at_ content?).item? other = some .directory ↔
      tree.item? other = some .directory := by
  by_cases hat : tree.item? at_ = some .directory
  · rw [exchange, if_pos hat]
  · by_cases hother : other = at_
    · have hne : at_ ≠ [] := by
        rintro rfl
        exact hat rfl
      rw [hother, item?, if_neg (by simpa using hne), get?_exchange_self _ _ _ hat]
      refine iff_of_false ?_ hat
      cases content? <;> simp
    · rw [item?, item?, get?_exchange_of_ne _ _ _ hother]

/-- Exchanging a file is about its place alone. -/
theorem alikeAt_exchange {f : Location} (hf : f ≠ at_) :
    AlikeAt f (tree.exchange at_ content?) tree :=
  ⟨home_exchange tree at_ content?, item?_exchange_directory tree at_ content?,
    get?_exchange_of_ne tree at_ content? hf⟩

theorem AlikeAt.exchange {f : Location} {tree tree' : FileTree} (h : AlikeAt f tree tree') :
    AlikeAt f (tree.exchange at_ content?) (tree'.exchange at_ content?) := by
  by_cases hf : f = at_
  · subst hf
    refine ⟨?_, fun other => ?_, ?_⟩
    · rw [home_exchange, home_exchange, h.home]
    · rw [item?_exchange_directory, item?_exchange_directory, h.directory]
    · by_cases hat : tree.item? f = some .directory
      · rw [FileTree.exchange, FileTree.exchange, if_pos hat, if_pos ((h.directory f).1 hat), h.item]
      · rw [get?_exchange_self _ _ _ hat,
          get?_exchange_self _ _ _ (fun hd => hat ((h.directory f).2 hd))]
  · exact ((alikeAt_exchange tree at_ content? hf).trans h).trans
      (alikeAt_exchange tree' at_ content? hf).symm

end

/-- Writing the document of a file exchanges the file. -/
theorem save_eq_exchange {tree : FileTree} {d : Document} (h : tree.isFile d.path) :
    tree.save d = tree.exchange (tree.place d.path) (some (.text d.text)) := by
  obtain ⟨at_, content, hat, hitem⟩ := exists_of_isFile h
  have hno : tree.item? at_ ≠ some .directory := by simp [hitem]
  rw [save, hat, place_of_locate hat, exchange, if_neg hno]
  rfl

theorem ext_alikeAt {tree tree' : FileTree} (h : ∀ f, AlikeAt f tree tree') : tree = tree' := by
  obtain ⟨items, home⟩ := tree
  obtain ⟨items', home'⟩ := tree'
  obtain rfl : home = home' := (h []).home
  obtain rfl : items = items' := OrderedMap.ext_get? fun f => (h f).item
  rfl

end FileTree
end Javadoc
