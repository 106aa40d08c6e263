import Javadoc.OrderedMap

/-! What an ordered map holds: its entries are the values of its keys, and maps that give every key
the same value are equal. -/
namespace Javadoc.OrderedMap
variable {κ α : Type} [Ord κ] [Std.LawfulEqOrd κ]

theorem mem_of_get? {m : OrderedMap κ α} {key : κ} {value : α} (h : m.get? key = some value) :
    (key, value) ∈ m.entries := by
  obtain ⟨e, he, rfl⟩ := Option.map_eq_some_iff.1 h
  have hkey : e.1 = key := by simpa using List.find?_some he
  exact hkey ▸ List.mem_of_find?_eq_some he

theorem get?_of_mem {m : OrderedMap κ α} {e : κ × α} (h : e ∈ m.entries) : m.get? e.1 = some e.2 := by
  obtain ⟨entries, sorted⟩ := m
  rw [get?, Option.map_eq_some_iff]
  refine ⟨e, ?_, rfl⟩
  induction entries with
  | nil => cases h
  | cons f entries ih =>
    obtain ⟨hf, hs⟩ := List.pairwise_cons.1 sorted
    rcases List.mem_cons.1 h with rfl | h
    · simp
    · rw [List.find?_cons, hf e h]
      exact ih hs h

theorem get?_erase_of_ne {key other : κ} (h : other ≠ key) (m : OrderedMap κ α) :
    (m.erase key).get? other = m.get? other := by
  rw [get?, get?, erase, List.find?_filter]
  congr 2
  funext e
  by_cases he : compare e.1 other = .eq
  · obtain rfl := Std.LawfulEqCmp.compare_eq_iff_eq.1 he
    have hne : compare e.1 key ≠ .eq := fun hk => h (Std.LawfulEqCmp.compare_eq_iff_eq.1 hk)
    simp [hne]
  · simp [he]

private theorem mem_entries_iff {m : OrderedMap κ α} {key : κ} {value : α} :
    (key, value) ∈ m.entries ↔ m.get? key = some value :=
  ⟨get?_of_mem, mem_of_get?⟩

variable [Std.TransOrd κ]

/-- The order of the entries is given by their keys. -/
theorem ext_get? {m n : OrderedMap κ α} (h : ∀ key, m.get? key = n.get? key) : m = n := by
  have hnodup (m : OrderedMap κ α) : m.entries.Nodup :=
    m.sorted.imp fun hlt heq => by simp [heq] at hlt
  have hperm : m.entries.Perm n.entries := by
    rw [List.perm_ext_iff_of_nodup (hnodup m) (hnodup n)]
    rintro ⟨key, value⟩
    rw [mem_entries_iff, mem_entries_iff, h]
  have heq : m.entries = n.entries := by
    refine hperm.eq_of_pairwise (fun e f _ _ hef hfe => ?_) m.sorted n.sorted
    rw [Std.OrientedCmp.gt_iff_lt.2 hfe] at hef
    cases hef
  cases m
  cases n
  cases heq
  rfl

theorem insert_of_get? {m : OrderedMap κ α} {key : κ} {value : α} (h : m.get? key = some value) :
    m.insert key value = m := by
  refine ext_get? fun other => ?_
  by_cases ho : other = key
  · rw [ho, get?_insert_self, h]
  · rw [get?_insert_of_ne ho]

theorem mem_ofList {entries : List (κ × α)} {e : κ × α} (h : e ∈ (ofList entries).entries) :
    e ∈ entries := by
  suffices hfold : ∀ (m : OrderedMap κ α),
      e ∈ (entries.foldl (fun m e => m.insert e.1 e.2) m).entries → e ∈ m.entries ∨ e ∈ entries by
    rcases hfold _ h with h | h
    · cases h
    · exact h
  clear h
  induction entries with
  | nil => exact fun m h => .inl h
  | cons f entries ih =>
    intro m h
    rcases ih _ h with h | h
    · rcases mem_insertEntry h with rfl | h
      · exact .inr List.mem_cons_self
      · exact .inl h
    · exact .inr (List.mem_cons_of_mem _ h)

theorem isSome_get?_ofList [DecidableEq κ] (entries : List (κ × α)) (key : κ) :
    ((ofList entries).get? key).isSome ↔ key ∈ entries.map Prod.fst := by
  suffices hfold : ∀ m : OrderedMap κ α,
      ((entries.foldl (fun m e => m.insert e.1 e.2) m).get? key).isSome ↔
        (m.get? key).isSome ∨ key ∈ entries.map Prod.fst by
    rw [ofList, hfold]
    simp [get?, empty]
  induction entries with
  | nil => simp
  | cons e entries ih =>
    intro m
    rw [List.foldl_cons, ih, List.map_cons, List.mem_cons]
    by_cases h : key = e.1
    · simp [h, get?_insert_self]
    · simp [h, get?_insert_of_ne h]

end Javadoc.OrderedMap
