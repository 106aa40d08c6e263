/-! Maps as lists of entries in increasing order of their keys. The order is part of the type, so two
maps that give every key the same value are equal. -/
namespace Javadoc

structure OrderedMap (κ α : Type) [Ord κ] where
  entries : List (κ × α)
  sorted : entries.Pairwise fun e f => compare e.1 f.1 = .lt
  deriving DecidableEq

namespace OrderedMap
variable {κ α : Type} [Ord κ]

def empty : OrderedMap κ α := ⟨[], .nil⟩

instance : Inhabited (OrderedMap κ α) := ⟨empty⟩

def get? (m : OrderedMap κ α) (key : κ) : Option α :=
  (m.entries.find? fun e => compare e.1 key == .eq).map (·.2)

def size (m : OrderedMap κ α) : Nat := m.entries.length

def insertEntry (key : κ) (value : α) : List (κ × α) → List (κ × α)
  | [] => [(key, value)]
  | (k, v) :: rest =>
    match compare key k with
    | .lt => (key, value) :: (k, v) :: rest
    | .eq => (key, value) :: rest
    | .gt => (k, v) :: insertEntry key value rest

theorem mem_insertEntry {key : κ} {value : α} {entries : List (κ × α)} {e : κ × α}
    (h : e ∈ insertEntry key value entries) : e = (key, value) ∨ e ∈ entries := by
  induction entries with
  | nil => simpa [insertEntry] using h
  | cons f rest ih =>
    unfold insertEntry at h
    split at h
    · simpa using h
    · rcases List.mem_cons.1 h with h | h
      · exact .inl h
      · exact .inr (List.mem_cons_of_mem _ h)
    · rcases List.mem_cons.1 h with h | h
      · exact .inr (h ▸ List.mem_cons_self)
      · exact (ih h).imp id (List.mem_cons_of_mem _)

variable [Std.TransOrd κ] [Std.LawfulEqOrd κ]

private theorem sorted_insertEntry {key : κ} {value : α} {entries : List (κ × α)}
    (h : entries.Pairwise fun e f => compare e.1 f.1 = .lt) :
    (insertEntry key value entries).Pairwise fun e f => compare e.1 f.1 = .lt := by
  induction entries with
  | nil => simp [insertEntry]
  | cons f rest ih =>
    obtain ⟨hf, hrest⟩ := List.pairwise_cons.1 h
    unfold insertEntry
    split
    · next hlt =>
      refine List.pairwise_cons.2 ⟨fun e he => ?_, h⟩
      rcases List.mem_cons.1 he with rfl | he
      · exact hlt
      · exact Std.TransCmp.lt_trans hlt (hf e he)
    · next heq =>
      obtain rfl := Std.LawfulEqCmp.compare_eq_iff_eq.1 heq
      exact List.pairwise_cons.2 ⟨hf, hrest⟩
    · next hgt =>
      refine List.pairwise_cons.2 ⟨fun e he => ?_, ih hrest⟩
      rcases mem_insertEntry he with rfl | he
      · exact Std.OrientedCmp.gt_iff_lt.1 hgt
      · exact hf e he

def insert (m : OrderedMap κ α) (key : κ) (value : α) : OrderedMap κ α :=
  ⟨insertEntry key value m.entries, sorted_insertEntry m.sorted⟩

def erase (m : OrderedMap κ α) (key : κ) : OrderedMap κ α :=
  ⟨m.entries.filter fun e => compare e.1 key != .eq, m.sorted.filter _⟩

def ofList (entries : List (κ × α)) : OrderedMap κ α :=
  entries.foldl (fun m e => m.insert e.1 e.2) empty

private theorem find?_insertEntry_self (key : κ) (value : α) (entries : List (κ × α)) :
    (insertEntry key value entries).find? (fun e => compare e.1 key == .eq) = some (key, value) := by
  induction entries with
  | nil => simp [insertEntry]
  | cons f rest ih =>
    unfold insertEntry
    split
    · simp
    · simp
    · next hgt =>
      have : compare f.1 key = .lt := Std.OrientedCmp.gt_iff_lt.1 hgt
      simp [this, ih]

theorem get?_insert_self (m : OrderedMap κ α) (key : κ) (value : α) :
    (m.insert key value).get? key = some value := by
  simp [get?, insert, find?_insertEntry_self]

omit [Std.TransOrd κ] in
private theorem find?_insertEntry_of_ne {key other : κ} (h : other ≠ key) (value : α)
    (entries : List (κ × α)) :
    (insertEntry key value entries).find? (fun e => compare e.1 other == .eq) =
      entries.find? fun e => compare e.1 other == .eq := by
  have hne : compare key other ≠ .eq := fun he =>
    h (Std.LawfulEqCmp.compare_eq_iff_eq.1 he).symm
  induction entries with
  | nil => simp [insertEntry, hne]
  | cons f rest ih =>
    unfold insertEntry
    split
    · simp [hne]
    · next heq =>
      obtain rfl := Std.LawfulEqCmp.compare_eq_iff_eq.1 heq
      simp [hne]
    · simp only [List.find?_cons, ih]

theorem get?_insert_of_ne {key other : κ} (h : other ≠ key) (m : OrderedMap κ α) (value : α) :
    (m.insert key value).get? other = m.get? other := by
  simp [get?, insert, find?_insertEntry_of_ne h]

omit [Std.TransOrd κ] in
theorem get?_erase_self (m : OrderedMap κ α) (key : κ) : (m.erase key).get? key = none := by
  simp [get?, erase, List.find?_eq_none]

end OrderedMap
end Javadoc
