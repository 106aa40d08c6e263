import Javadoc.Files.Listing
import Javadoc.Proofs.Files.Place
import Javadoc.Proofs.Text.Pieces

/-! The paths that a listing gives. Below its root a path has the names that lead to the file, so the
listed paths name different places, and they come in the order of their components. -/
namespace Javadoc

namespace Path

private theorem head?_append {α : Type} {l : List α} (h : l ≠ []) (m : List α) :
    (l ++ m).head? = l.head? := by
  cases l with
  | nil => exact absurd rfl h
  | cons a l => rfl

structure IsName (name : Text) : Prop where
  ne_nil : name ≠ []
  not_mem : '/' ∉ name
  ne_here : name ≠ here
  ne_above : name ≠ above

private theorem IsName.lead {name : Text} (h : IsName name) (at_ : Location) :
    lead at_ name = at_ ++ [name] := by
  have hroot : name ≠ root := by
    rintro rfl
    exact h.not_mem List.mem_cons_self
  rw [Path.lead, if_neg hroot, if_neg (by simp [h.ne_nil, h.ne_here]),
    if_neg (by simpa using h.ne_above)]

private theorem placeFrom_append (at_ : Location) (as bs : List Text) :
    placeFrom at_ (as ++ bs) = placeFrom (placeFrom at_ as) bs :=
  List.foldl_append

private theorem placeFrom_names {names : List Text} (h : ∀ name ∈ names, IsName name)
    (at_ : Location) :
    placeFrom at_ names = at_ ++ names := by
  induction names generalizing at_ with
  | nil => simp [placeFrom]
  | cons name names ih =>
    obtain ⟨hname, hnames⟩ := List.forall_mem_cons.1 h
    rw [placeFrom, List.foldl_cons, hname.lead, ← placeFrom, ih hnames, List.append_assoc]
    rfl

private theorem join_ne_nil {dir name : Text} (h : dir ≠ []) : join dir name ≠ [] := by
  rw [join]
  split <;> simp [h]

/-- The name comes in place of what follows the last slash, if that is nothing, and else behind it. -/
theorem exists_pieces_join {dir name : Text} (hdir : dir ≠ []) (hname : '/' ∉ name) :
    ∃ pieces void, pieces ≠ [] ∧ (∀ piece ∈ void, piece = []) ∧
      Text.splitOnChar '/' dir = pieces ++ void ∧
      Text.splitOnChar '/' (join dir name) = pieces ++ [name] := by
  have hpiece : Text.splitOnChar '/' name = [name] := Text.splitOnChar_of_not_mem hname
  by_cases hlast : dir.getLast? = some '/'
  · rw [join, if_pos (by simp [hlast])]
    obtain ⟨front, rfl⟩ := List.getLast?_eq_some_iff.1 hlast
    refine ⟨Text.splitOnChar '/' front, [[]], Text.splitOnChar_ne_nil _ _, by simp,
      Text.splitOnChar_append '/' front [], ?_⟩
    rw [List.append_assoc, List.singleton_append, Text.splitOnChar_append, hpiece]
  · rw [join, if_neg (by simp [hlast, hdir])]
    refine ⟨Text.splitOnChar '/' dir, [], Text.splitOnChar_ne_nil _ _, by simp, by simp, ?_⟩
    rw [Text.splitOnChar_append, hpiece]

private theorem components_join {dir name : Text} (hdir : dir ≠ []) (hname : IsName name) :
    components (join dir name) = components dir ++ [name] := by
  obtain ⟨pieces, void, hpieces, hvoid, hsplit, hsplit'⟩ := exists_pieces_join hdir hname.not_mem
  have hhead : (join dir name).head? = dir.head? := by
    rw [join]
    split <;> exact head?_append hdir _
  have hfilter : void.filter (fun p => !p.isEmpty && p != here) = [] := by
    rw [List.filter_eq_nil_iff]
    intro piece hm
    simp [hvoid piece hm]
  have hkept : [name].filter (fun p => !p.isEmpty && p != here) = [name] :=
    List.filter_cons_of_pos (by simp [hname.ne_nil, hname.ne_here])
  simp only [components, hsplit, hsplit', hhead, head?_append hpieces, List.filter_append, hfilter,
    List.append_nil, hkept]
  split
  · rfl
  · split <;> rfl

private theorem components_foldl_join {root : Text} (hroot : root ≠ []) {names : List Text}
    (h : ∀ name ∈ names, IsName name) :
    components (names.foldl join root) = components root ++ names := by
  induction names generalizing root with
  | nil => simp
  | cons name names ih =>
    obtain ⟨hname, hnames⟩ := List.forall_mem_cons.1 h
    rw [List.foldl_cons, ih (join_ne_nil hroot) hnames, components_join hroot hname,
      List.append_assoc]
    rfl

private theorem compare_append_left (front a b : List Text) :
    compare (front ++ a) (front ++ b) = compare a b := by
  induction front with
  | nil => rfl
  | cons x front ih =>
    rw [List.cons_append, List.cons_append, List.compare_cons_cons, ih]
    simp

end Path

namespace FileTree

/-- Everything has names as files and directories can have them. -/
def Proper (tree : FileTree) : Prop :=
  ∀ e ∈ tree.items.entries, ∀ name ∈ e.1, Path.IsName name

private theorem exists_of_listedSource? {tree : FileTree} {root path : Text} {dir : Location}
    {e : Location × Item} (h : tree.listedSource? root dir e = some path) :
    ∃ names, e.1 = dir ++ names ∧ path = names.foldl Path.join root := by
  rw [listedSource?] at h
  split at h
  · next names _ hnames =>
    dsimp only at h
    split at h
    · rw [namesFrom?] at hnames
      split at hnames
      · next hfront =>
        obtain ⟨rest, hrest⟩ := List.isPrefixOf_iff_prefix.1 hfront
        obtain rfl := Option.some.inj hnames
        obtain rfl := Option.some.inj h
        exact ⟨rest, hrest.symm, by rw [← hrest, List.drop_left]⟩
      · cases hnames
    · cases h
  · cases h

section

variable {tree : FileTree} (hproper : tree.Proper) {root : Text} {dir : Location}
  (hdir : tree.locate root = .ok dir)
include hproper hdir

/-- A listed path names the file that it is listed for. -/
theorem place_of_listedSource? {e : Location × Item} (he : e ∈ tree.items.entries) {path : Text}
    (h : tree.listedSource? root dir e = some path) :
    tree.place path = e.1 ∧
      ∃ names, e.1 = dir ++ names ∧ Path.components path = Path.components root ++ names := by
  have hroot : root ≠ [] := by
    rintro rfl
    cases hdir
  obtain ⟨names, hnames, rfl⟩ := exists_of_listedSource? h
  have hcalled : ∀ name ∈ names, Path.IsName name := fun name hm =>
    hproper e he name (hnames ▸ List.mem_append_right dir hm)
  have hcomponents := Path.components_foldl_join hroot hcalled
  refine ⟨?_, names, hnames, hcomponents⟩
  have hplace : Path.placeFrom tree.home (Path.components root) = dir := place_of_locate hdir
  rw [place, hcomponents, Path.placeFrom_append, hplace, Path.placeFrom_names hcalled, hnames]

/-- The listed paths come in the order of their components, and each names another place. -/
theorem pairwise_listed :
    (tree.items.entries.filterMap (tree.listedSource? root dir)).Pairwise fun p q =>
      compare (Path.components p) (Path.components q) = .lt ∧ tree.place p ≠ tree.place q := by
  rw [List.pairwise_filterMap]
  refine tree.items.sorted.imp_of_mem fun {e f} he hf hlt p hp q hq => ?_
  obtain ⟨hplace, names, hnames, hcomponents⟩ := place_of_listedSource? hproper hdir he hp
  obtain ⟨hplace', names', hnames', hcomponents'⟩ := place_of_listedSource? hproper hdir hf hq
  constructor
  · rw [hnames, hnames', Path.compare_append_left] at hlt
    rw [hcomponents, hcomponents', Path.compare_append_left, hlt]
  · rw [hplace, hplace']
    intro heq
    simp [heq] at hlt

end

end FileTree
end Javadoc
