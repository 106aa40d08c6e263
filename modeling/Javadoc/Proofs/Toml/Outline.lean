import Javadoc.Toml.Statement

/-! The table that statements make up: pairs go to the end of the table that was opened last, and
headers open one table after the other. -/
namespace Javadoc.Toml
namespace Entries

variable {n : Text} {v w : Node} {front : Entries}

theorem lookup_append_self (h : front.lookup n = none) : (front ++ [(n, v)]).lookup n = some v := by
  simp [List.lookup_append, h]

private theorem set_append_self (h : front.lookup n = none) :
    set n w (front ++ [(n, v)]) = front ++ [(n, w)] := by
  induction front with
  | nil => simp [set]
  | cons e front ih =>
    obtain ⟨m, u⟩ := e
    have hm : m ≠ n := by rintro rfl; simp at h
    have hrest : front.lookup n = none := by
      simpa [List.lookup_cons, beq_eq_false_iff_ne.2 (Ne.symm hm)] using h
    simp [set, hm, ih hrest]

/-- A name that entries do not hold is not found among them. -/
theorem lookup_eq_none {es : Entries} (h : n ∉ es.map (·.1)) : es.lookup n = none := by
  rw [List.lookup_eq_none_iff]
  intro p hp
  have : n ≠ p.1 := by rintro rfl; exact h (List.mem_map_of_mem hp)
  simpa using this

end Entries

/-- A table at the end of `path`, told by what stands around its entries: whatever is done along the
path is done to that table. -/
def Focus (path : List Text) (around : Entries → Entries) : Prop :=
  ∀ f inner, Entries.changeAt false f path .header (around inner) = (f .header inner).map around

section Focus

variable {n : Text} {front : Entries}

theorem focus_whole : Focus [] id := fun f inner => by
  simp [Entries.changeAt]

private theorem focus_table (h : front.lookup n = none) :
    Focus [n] fun inner => front ++ [(n, .table .header inner)] := fun f inner => by
  simp only [Entries.changeAt, Entries.lookup_append_self h, Entries.set_append_self h]
  cases f .header inner <;> rfl

private theorem focus_element (h : front.lookup n = none) (elements : List Entries) :
    Focus [n] fun inner => front ++ [(n, .tables (elements ++ [inner]))] := fun f inner => by
  simp only [Entries.changeAt, Entries.lookup_append_self h, Entries.set_append_self h,
    List.getLast?_concat, List.dropLast_concat]

end Focus

def pairs (es : Entries) : List Statement := es.map fun e => .pair ⟨[], e.1⟩ e.2

def several (n : Text) : List Entries → Entries
  | [] => []
  | elements => [(n, .tables elements)]

def elementLines (n : Text) (elements : List Entries) : List Statement :=
  elements.flatMap fun inner => .element ⟨[], n⟩ :: pairs inner

@[simp] theorem several_nil (n : Text) : several n [] = [] := rfl

theorem eq_of_mem_several {n m : Text} {elements : List Entries}
    (h : m ∈ (several n elements).map (·.1)) : m = n := by
  cases elements <;> simp_all [several]

private theorem several_concat (n : Text) (elements : List Entries) (inner : Entries) :
    several n (elements ++ [inner]) = [(n, .tables (elements ++ [inner]))] := by
  cases elements <;> rfl

namespace Outline

variable {path : List Text} {around : Entries → Entries}

private theorem add_pair (h : Focus path around) {inner : Entries} {n : Text} {v : Node}
    (hn : inner.lookup n = none) :
    add ⟨path, around inner⟩ (.pair ⟨[], n⟩ v) = some ⟨path, around (inner ++ [(n, v)])⟩ := by
  simp [add, h _ _, Entries.addPair, Entries.changeAt, hn]

/-- Pairs of different names go to the end of the table that was opened last. -/
theorem foldlM_pairs (h : Focus path around) (inner : Entries) {es : Entries}
    (hes : ((inner ++ es).map (·.1)).Nodup) :
    (pairs es).foldlM add ⟨path, around inner⟩ = some ⟨path, around (inner ++ es)⟩ := by
  induction es generalizing inner with
  | nil => simp [pairs]
  | cons e es ih =>
    have hn : e.1 ∉ inner.map (·.1) := by
      rw [List.map_append, List.nodup_append] at hes
      exact fun hmem => hes.2.2 _ hmem _ (by simp) rfl
    have hrest := ih (inner ++ [e]) (by simpa using hes)
    rw [List.append_assoc] at hrest
    rw [pairs, List.map_cons, List.foldlM_cons, add_pair h (Entries.lookup_eq_none hn)]
    exact hrest

section Headers

variable {n : Text} {es : Entries}

private theorem add_table (hn : es.lookup n = none) :
    add ⟨path, es⟩ (.table ⟨[], n⟩) = some ⟨[n], es ++ [(n, .table .header [])]⟩ := by
  simp [add, Entries.openTable, Entries.changeAt, hn, Key.names]

/-- A header and the pairs below it add a table of a new name. -/
theorem foldlM_table (path : List Text) (hn : n ∉ es.map (·.1)) {inner : Entries}
    (hinner : (inner.map (·.1)).Nodup) :
    (.table ⟨[], n⟩ :: pairs inner).foldlM add ⟨path, es⟩ =
      some ⟨[n], es ++ [(n, .table .header inner)]⟩ := by
  have hn := Entries.lookup_eq_none hn
  rw [List.foldlM_cons, add_table hn]
  exact foldlM_pairs (focus_table hn) [] hinner

private theorem add_element (hn : es.lookup n = none) (elements : List Entries) :
    add ⟨path, es ++ several n elements⟩ (.element ⟨[], n⟩) =
      some ⟨[n], es ++ several n (elements ++ [[]])⟩ := by
  cases elements with
  | nil => simp [add, Entries.openElement, Entries.changeAt, hn, Key.names, several]
  | cons e elements =>
    simp [add, Entries.openElement, Entries.changeAt, Entries.lookup_append_self hn,
      Entries.set_append_self hn, Key.names, several]

theorem exists_foldlM_elementLines (path : List Text) (hn : n ∉ es.map (·.1))
    {elements : List Entries} (helements : ∀ inner ∈ elements, (inner.map (·.1)).Nodup)
    (before : List Entries) :
    ∃ path', (elementLines n elements).foldlM add ⟨path, es ++ several n before⟩ =
      some ⟨path', es ++ several n (before ++ elements)⟩ := by
  have hlookup := Entries.lookup_eq_none hn
  induction elements generalizing path before with
  | nil => exact ⟨path, by simp [elementLines]⟩
  | cons inner elements ih =>
    rw [List.forall_mem_cons] at helements
    obtain ⟨path', hrest⟩ := ih [n] helements.2 (before ++ [inner])
    refine ⟨path', ?_⟩
    have hpairs := foldlM_pairs (focus_element hlookup before) [] helements.1
    simp only [← several_concat, List.nil_append] at hpairs
    rw [elementLines, List.flatMap_cons, List.cons_append, List.foldlM_cons, add_element hlookup]
    simp only [Option.bind_eq_bind, Option.bind_some, List.foldlM_append, hpairs]
    simpa [elementLines] using hrest

end Headers
end Outline
end Javadoc.Toml
