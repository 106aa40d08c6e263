import Javadoc.Files.Tree
import Javadoc.Proofs.OrderedMap

/-! Writing files. A file that gets another content stays where it is, every path leads where it led
before, and the path of the file reads the new content. -/
namespace Javadoc.FileTree

def overwrite (tree : FileTree) (path : Text) (content : Content) : FileTree :=
  match tree.locate path with
  | .ok at_ => { tree with items := tree.items.insert at_ (.file content) }
  | .error _ => tree

private theorem save_eq_overwrite (tree : FileTree) (d : Document) :
    tree.save d = tree.overwrite d.path (.text d.text) := rfl

section

variable {tree : FileTree} {at_ : Location} {old : Content} (h : tree.item? at_ = some (.file old))
  (content : Content)
include h

private theorem item?_insert (other : Location) :
    item? { tree with items := tree.items.insert at_ (.file content) } other =
      if other = at_ then some (.file content) else tree.item? other := by
  rw [item?, item?]
  have hne : at_ ≠ [] := by
    rintro rfl
    cases h
  by_cases hother : other = at_
  · simp [hother, hne, OrderedMap.get?_insert_self]
  · simp [hother, OrderedMap.get?_insert_of_ne hother]

/-- Directories stay directories, and what is there stays there, so every step leads where it did. -/
theorem step_insert (other : Location) (piece : Text) :
    step { tree with items := tree.items.insert at_ (.file content) } other piece =
      tree.step other piece := by
  have hdirectory (other : Location) :
      (item? { tree with items := tree.items.insert at_ (.file content) } other !=
        some .directory) = (tree.item? other != some .directory) := by
    rw [item?_insert h]
    split
    · next heq =>
      rw [heq, h]
      rfl
    · rfl
  have hsome (other : Location) :
      (item? { tree with items := tree.items.insert at_ (.file content) } other).isSome =
        (tree.item? other).isSome := by
    rw [item?_insert h]
    split
    · next heq =>
      rw [heq, h]
      rfl
    · rfl
  rw [step, step, hdirectory, hsome]

private theorem locate_insert (path : Text) :
    locate { tree with items := tree.items.insert at_ (.file content) } path = tree.locate path := by
  have hstep : step { tree with items := tree.items.insert at_ (.file content) } = tree.step :=
    funext fun other => funext fun piece => step_insert h content other piece
  rw [locate.eq_def, locate.eq_def, hstep]

end

/-- A file is found where its path leads. -/
theorem exists_of_isFile {tree : FileTree} {path : Text} (h : tree.isFile path) :
    ∃ at_ content, tree.locate path = .ok at_ ∧ tree.item? at_ = some (.file content) := by
  rw [isFile, find?] at h
  cases hat : tree.locate path with
  | error fault => simp [hat] at h
  | ok at_ =>
    simp only [hat] at h
    split at h
    · next content hitem => exact ⟨at_, content, rfl, hitem⟩
    · cases h

section

variable {tree : FileTree} {path : Text} (h : tree.isFile path)
include h

private theorem find?_overwrite_self (content : Content) :
    (tree.overwrite path content).find? path = some (.file content) := by
  obtain ⟨at_, old, hat, hitem⟩ := exists_of_isFile h
  rw [overwrite, hat, find?, locate_insert hitem, hat]
  simp only
  rw [item?_insert hitem, if_pos rfl]

theorem isFile_overwrite (content : Content) : (tree.overwrite path content).isFile path := by
  rw [isFile, find?_overwrite_self h]

end

section

variable {tree : FileTree} {path : Text}

theorem isFile_of_find? {content : Content} (h : tree.find? path = some (.file content)) :
    tree.isFile path := by
  rw [isFile, h]

private theorem overwrite_self {content : Content} (h : tree.find? path = some (.file content)) :
    tree.overwrite path content = tree := by
  obtain ⟨at_, old, hat, hitem⟩ := exists_of_isFile (isFile_of_find? h)
  rw [find?, hat] at h
  have hne : at_ ≠ [] := by
    rintro rfl
    cases hitem
  simp only [item?, List.isEmpty_iff, hne, if_false] at h
  rw [overwrite, hat]
  simp only [OrderedMap.insert_of_get? h]

/-- What opening a file gives is its content. -/
theorem document_of_find? {content : Content} (h : tree.find? path = some (.file content)) :
    tree.document path = match content with
      | .text text => .ok ⟨path, text⟩
      | .bytes => .error (.unreadable .notUnicode) := by
  rw [document, if_pos (isFile_of_find? h), read]
  rw [find?] at h
  split at h
  · next at_ hat =>
    simp only [hat, h]
    cases content <;> rfl
  · cases h

theorem document_eq_ok_iff {d : Document} :
    tree.document path = .ok d ↔ d.path = path ∧ tree.find? path = some (.file (.text d.text)) := by
  constructor
  · intro h
    have hfile : tree.isFile path := by
      rw [document] at h
      split at h
      · assumption
      · cases h
    obtain ⟨at_, content, hat, hitem⟩ := exists_of_isFile hfile
    have hfind : tree.find? path = some (.file content) := by
      rw [find?, hat]
      exact hitem
    rw [document_of_find? hfind] at h
    cases content with
    | text text =>
      cases h
      exact ⟨rfl, hfind⟩
    | bytes => cases h
  · rintro ⟨rfl, h⟩
    exact document_of_find? h

theorem save_self {d : Document} (h : tree.document path = .ok d) : tree.save d = tree := by
  obtain ⟨rfl, hfind⟩ := document_eq_ok_iff.1 h
  rw [save_eq_overwrite, overwrite_self hfind]

theorem document_save {d : Document} (h : tree.isFile d.path) :
    (tree.save d).document d.path = .ok d := by
  rw [save_eq_overwrite]
  exact document_of_find? (find?_overwrite_self h _)

end

end Javadoc.FileTree
