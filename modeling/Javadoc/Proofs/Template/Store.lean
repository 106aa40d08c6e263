import Javadoc.Proofs.Template.Places

/-! A configuration as an ordered map from keys to templates, through any sequence of operations. -/
namespace Javadoc
namespace Templates

/-! ## The keys of all places -/

private theorem injective_customKey : Function.Injective fun name => StoreKey.customStart ++ name :=
  fun _ _ => List.append_cancel_left

private theorem nodup_customKeys {t : Templates} (ht : t.IsKeyed) : t.customKeys.Nodup := by
  rw [customKeys_eq]
  exact ht.distinct.map injective_customKey

private theorem customKeys_putCustom (t : Templates) (name template : Text) :
    (t.setAt (some template) (.custom name)).customKeys =
      (if name ∈ t.custom.map (·.name) then t.custom.map (·.name)
        else t.custom.map (·.name) ++ [name]).map fun name => StoreKey.customStart ++ name := by
  rw [customKeys_eq, setAt, map_name_putCustom]

private theorem not_mem_fixed_of_mem_customKeys {t : Templates} {key : Text}
    (h : key ∈ t.customKeys) :
    key ∉ StoreKey.fixed := by
  obtain ⟨c, -, rfl⟩ := List.mem_map.1 h
  exact StoreKey.append_not_mem_fixed c.name

private theorem nodup_keys {t : Templates} (ht : t.IsKeyed) : t.keys.Nodup := by
  rw [keys_eq]
  refine List.nodup_append.2 ⟨StoreKey.nodup_fixed.filter _, nodup_customKeys ht, ?_⟩
  rintro key hf _ hc rfl
  exact not_mem_fixed_of_mem_customKeys hc (List.mem_filter.1 hf).1

private theorem mem_customKeys_iff {t : Templates} (ht : t.IsKeyed) {key : Text}
    (hk : key ∉ StoreKey.fixed) : key ∈ t.customKeys ↔ (t.get? key).isSome := by
  constructor
  · intro h
    obtain ⟨c, hc, rfl⟩ := List.mem_map.1 h
    have hkey : StoreKey.ofText? (StoreKey.customStart ++ c.name) = some (.custom c.name) :=
      StoreKey.ofText?_eq_some_iff.2 (if_neg (ht.named c hc))
    rw [get?_eq, hkey, Option.bind_some, at?, Option.isSome_map, custom?, List.find?_isSome]
    exact ⟨c, hc, beq_self_eq_true c.name⟩
  · intro h
    obtain ⟨template, h⟩ := Option.isSome_iff_exists.1 h
    rw [get?_eq] at h
    obtain ⟨k, hkey, hat⟩ := Option.bind_eq_some_iff.1 h
    have htext := StoreKey.ofText?_eq_some_iff.1 hkey
    cases k with
    | scope s => exact absurd ((Option.some.inj htext) ▸ StoreKey.mem_fixed_of_scope s) hk
    | role r => exact absurd (StoreKey.mem_fixed_of_role htext) hk
    | custom name =>
      obtain ⟨c, hc, -⟩ := Option.map_eq_some_iff.1 hat
      have hname := List.find?_some hc
      have hname := eq_of_beq hname
      obtain ⟨-, rfl⟩ := StoreKey.text?_custom_eq_some_iff.1 htext
      exact List.mem_map.2 ⟨c, List.mem_of_find?_eq_some hc, by rw [hname]⟩

theorem mem_keys_iff {t : Templates} (ht : t.IsKeyed) {key : Text} :
    key ∈ t.keys ↔ (t.get? key).isSome := by
  rw [keys_eq, List.mem_append, List.mem_filter]
  by_cases hk : key ∈ StoreKey.fixed
  · have hc : key ∉ t.customKeys := fun hc => not_mem_fixed_of_mem_customKeys hc hk
    simp [hk, hc]
  · simp [hk, mem_customKeys_iff ht hk]

section Place

variable {t : Templates} {k : StoreKey} {key : Text} {value : Option Text}

private theorem filter_customKeys_setAt (hk : k.text? = some key) :
    (t.setAt value k).customKeys.filter (· != key) = t.customKeys.filter (· != key) := by
  cases k with
  | scope s => cases s <;> rfl
  | role r => rfl
  | custom name =>
    obtain ⟨-, rfl⟩ := StoreKey.text?_custom_eq_some_iff.1 hk
    have hmap (cs : List CustomTemplate) :
        (cs.map fun c => StoreKey.customStart ++ c.name).filter
            (· != StoreKey.customStart ++ name) =
          (cs.filter (·.name != name)).map fun c => StoreKey.customStart ++ c.name := by
      rw [List.filter_map]
      congr 2
    cases value with
    | some template => exact (hmap _).trans ((congrArg _ filter_putCustom).trans (hmap _).symm)
    | none => exact (hmap _).trans ((congrArg _ filter_eraseCustom).trans (hmap _).symm)

/-- A change at one place keeps all other keys, in their order. -/
theorem filter_keys_setAt (hk : k.text? = some key) :
    (t.setAt value k).keys.filter (· != key) = t.keys.filter (· != key) := by
  rw [keys_eq, keys_eq, List.filter_append, List.filter_append, filter_customKeys_setAt hk,
    List.filter_filter, List.filter_filter]
  congr 1
  refine List.filter_congr fun other _ => ?_
  by_cases h : other = key
  · simp [h]
  · rw [get?_setAt_of_ne hk h]

/-- A template in the place of another one keeps the place of its key. -/
theorem keys_setAt_of_mem (ht : t.IsKeyed) (hk : k.text? = some key) {template : Text}
    (hmem : key ∈ t.keys) : (t.setAt (some template) k).keys = t.keys := by
  have hsome := (mem_keys_iff ht).1 hmem
  have hcustom : (t.setAt (some template) k).customKeys = t.customKeys := by
    cases k with
    | scope s => cases s <;> rfl
    | role r => rfl
    | custom name =>
      obtain ⟨-, rfl⟩ := StoreKey.text?_custom_eq_some_iff.1 hk
      have hnot := StoreKey.append_not_mem_fixed name
      obtain ⟨c, hc, he⟩ := List.mem_map.1 ((mem_customKeys_iff ht hnot).2 hsome)
      have hin : name ∈ t.custom.map (·.name) :=
        List.mem_map.2 ⟨c, hc, injective_customKey he⟩
      rw [customKeys_putCustom, if_pos hin, ← customKeys_eq]
  rw [keys_eq, keys_eq, hcustom]
  congr 1
  refine List.filter_congr fun other _ => ?_
  by_cases h : other = key
  · rw [h, get?_setAt_self ht hk, hsome]
    rfl
  · rw [get?_setAt_of_ne hk h]

/-- A new custom template stands behind all others. -/
theorem keys_setAt_of_not_mem (hk : k.text? = some key) {template : Text}
    (hmem : key ∉ t.keys) (hnot : key ∉ StoreKey.fixed) :
    (t.setAt (some template) k).keys = t.keys ++ [key] := by
  have hcustom : (t.setAt (some template) k).customKeys = t.customKeys ++ [key] := by
    cases k with
    | scope s => exact absurd ((Option.some.inj hk) ▸ StoreKey.mem_fixed_of_scope s) hnot
    | role r => exact absurd (StoreKey.mem_fixed_of_role hk) hnot
    | custom name =>
      obtain ⟨-, rfl⟩ := StoreKey.text?_custom_eq_some_iff.1 hk
      have hout : name ∉ t.custom.map (·.name) := by
        intro hin
        obtain ⟨c, hc, rfl⟩ := List.mem_map.1 hin
        refine hmem ?_
        rw [keys_eq]
        exact List.mem_append_right _ (List.mem_map_of_mem hc)
      rw [customKeys_putCustom, if_neg hout, List.map_append, ← customKeys_eq]
      rfl
  rw [keys_eq, keys_eq, hcustom, ← List.append_assoc]
  congr 2
  refine List.filter_congr fun other ho => ?_
  rw [get?_setAt_of_ne hk fun he => hnot (he ▸ ho)]

end Place

/-! ## Sequences of operations -/

/-- An operation on a stored configuration. -/
inductive StoreCall where
  | put (key template : Text)
  | remove (key : Text)
  | removeMethodTemplates

def call (t : Templates) : StoreCall → Templates
  | .put key template =>
    match t.put key template with
    | .ok t' => t'
    | .error _ => t
  | .remove key => (t.remove key).2
  | .removeMethodTemplates => t.removeMethodTemplates

/-- The configuration after some operations. -/
def after (t : Templates) (calls : List StoreCall) : Templates := calls.foldl call t

/-- An operation changes one place, or clears those of all methods, or nothing. -/
theorem call_cases (t : Templates) (c : StoreCall) : t.call c = t ∨
    (∃ k key value, k.text? = some key ∧ t.call c = t.setAt value k) ∨
      t.call c = t.removeMethodTemplates := by
  cases c with
  | put key template =>
    rw [call, put_eq]
    cases hk : StoreKey.ofText? key with
    | none => exact .inl rfl
    | some k => exact .inr (.inl ⟨k, key, _, StoreKey.ofText?_eq_some_iff.1 hk, rfl⟩)
  | remove key =>
    rw [call, remove_eq]
    cases hk : StoreKey.ofText? key with
    | none => exact .inl rfl
    | some k => exact .inr (.inl ⟨k, key, _, StoreKey.ofText?_eq_some_iff.1 hk, rfl⟩)
  | removeMethodTemplates => exact .inr (.inr rfl)

theorem IsKeyed.call {t : Templates} (ht : t.IsKeyed) (c : StoreCall) : (t.call c).IsKeyed := by
  obtain h | ⟨k, key, value, hk, h⟩ | h := t.call_cases c
  · rwa [h]
  · rw [h]
    exact isKeyed_setAt ht hk
  · rw [h]
    exact ⟨by simp [removeMethodTemplates], .nil⟩

theorem IsKeyed.after {t : Templates} (ht : t.IsKeyed) (calls : List StoreCall) :
    (t.after calls).IsKeyed := by
  induction calls generalizing t with
  | nil => exact ht
  | cons c calls ih => exact ih (ht.call c)

def otherScopes : List Text := [Scope.classes.key, Scope.fields.key, Scope.constructors.key]

private theorem get?_removeMethodTemplates (t : Templates) (key : Text) :
    t.removeMethodTemplates.get? key = if key ∈ otherScopes then t.get? key else none := by
  rw [get?_eq, get?_eq]
  cases hk : StoreKey.ofText? key with
  | none => simp
  | some k =>
    have htext := StoreKey.ofText?_eq_some_iff.1 hk
    cases k with
    | scope s =>
      obtain rfl := Option.some.inj htext
      cases s <;> rfl
    | role r => cases r <;> cases htext <;> rfl
    | custom name =>
      obtain ⟨-, rfl⟩ := StoreKey.text?_custom_eq_some_iff.1 htext
      have hout : StoreKey.customStart ++ name ∉ otherScopes := fun h =>
        StoreKey.append_not_mem_fixed name ((by decide : otherScopes ⊆ StoreKey.fixed) h)
      rw [if_neg hout]
      rfl

/-- The laws of a map from keys to templates whose keys have an order. -/
structure IsOrderedMap (t : Templates) : Prop where
  nodup_keys : t.keys.Nodup
  mem_keys_iff : ∀ key, key ∈ t.keys ↔ (t.get? key).isSome
  /-- Scopes and roles stand in their fixed order, before the custom templates. -/
  keys_eq : t.keys = (StoreKey.fixed.filter fun key => (t.get? key).isSome) ++
    t.custom.map fun c => StoreKey.customStart ++ c.name
  put_ok_iff : ∀ key template, (∃ t', t.put key template = .ok t') ↔
    key ∈ StoreKey.fixed ∨ ∃ name, name ≠ [] ∧ key = StoreKey.customStart ++ name
  /-- A key that is there keeps its place, and a new custom one comes last. -/
  of_put_ok : ∀ key template t', t.put key template = .ok t' →
    t'.get? key = some template ∧ (∀ other, other ≠ key → t'.get? other = t.get? other) ∧
    t'.keys.erase key = t.keys.erase key ∧ (key ∈ t.keys → t'.keys = t.keys) ∧
    (key ∉ t.keys → key ∉ StoreKey.fixed → t'.keys = t.keys ++ [key])
  of_put_error : ∀ key template e, t.put key template = .error e →
    t.call (.put key template) = t ∧ t.get? key = none
  remove_fst : ∀ key, (t.remove key).1 = t.get? key
  call_remove : ∀ key, (t.remove key).1 = none → t.call (.remove key) = t
  get?_remove : ∀ key, (t.call (.remove key)).get? key = none ∧
    ∀ other, other ≠ key → (t.call (.remove key)).get? other = t.get? other
  keys_remove : ∀ key, (t.call (.remove key)).keys = t.keys.erase key
  get?_removeMethods : ∀ key, (t.call .removeMethodTemplates).get? key =
    if key ∈ otherScopes then t.get? key else none
  keys_removeMethods : (t.call .removeMethodTemplates).keys =
    t.keys.filter fun key => key ∈ otherScopes

section Laws

variable {t : Templates} (ht : t.IsKeyed) (key : Text)

private theorem put_ok_iff (template : Text) : (∃ t', t.put key template = .ok t') ↔
    key ∈ StoreKey.fixed ∨ ∃ name, name ≠ [] ∧ key = StoreKey.customStart ++ name := by
  rw [← StoreKey.isSome_ofText?_iff, put_eq]
  cases StoreKey.ofText? key <;> simp

private theorem get?_of_put_error {template : Text} {e : Error}
    (h : t.put key template = .error e) :
    t.get? key = none := by
  rw [put_eq] at h
  rw [get?_eq]
  cases hk : StoreKey.ofText? key with
  | none => rfl
  | some k => simp [hk] at h

theorem exists_of_put_ok {template : Text} {t' : Templates} (h : t.put key template = .ok t') :
    ∃ k, k.text? = some key ∧ t' = t.setAt (some template) k := by
  rw [put_eq] at h
  cases hk : StoreKey.ofText? key with
  | none => simp [hk] at h
  | some k =>
    simp only [hk, Except.ok.injEq] at h
    exact ⟨k, StoreKey.ofText?_eq_some_iff.1 hk, h.symm⟩

private theorem remove_fst : (t.remove key).1 = t.get? key := by
  rw [remove_eq, get?_eq]
  cases StoreKey.ofText? key <;> rfl

/-- Removing clears the place of a key, if there is one. -/
theorem remove_cases : (t.get? key = none ∧ t.call (.remove key) = t) ∨
    ∃ k, k.text? = some key ∧ t.call (.remove key) = t.setAt none k := by
  rw [call, remove_eq, get?_eq]
  cases hk : StoreKey.ofText? key with
  | none => exact .inl ⟨rfl, rfl⟩
  | some k => exact .inr ⟨k, StoreKey.ofText?_eq_some_iff.1 hk, rfl⟩

private theorem call_remove_of_get? (h : t.get? key = none) : t.call (.remove key) = t := by
  obtain ⟨-, h'⟩ | ⟨k, hk, h'⟩ := remove_cases (t := t) key
  · exact h'
  · rw [get?_eq, StoreKey.ofText?_eq_some_iff.2 hk] at h
    rw [h', setAt_none_of_at? h]

include ht

private theorem erase_keys_setAt {k : StoreKey} {value : Option Text} (hk : k.text? = some key) :
    (t.setAt value k).keys.erase key = t.keys.erase key := by
  rw [(nodup_keys ht).erase_eq_filter, (nodup_keys (isKeyed_setAt ht hk)).erase_eq_filter,
    filter_keys_setAt hk]

private theorem get?_remove_self : (t.call (.remove key)).get? key = none := by
  obtain ⟨hnone, h⟩ | ⟨k, hk, h⟩ := remove_cases (t := t) key
  · rw [h, hnone]
  · rw [h, get?_setAt_self ht hk]

theorem keys_remove : (t.call (.remove key)).keys = t.keys.erase key := by
  have hnot : key ∉ (t.call (.remove key)).keys := by
    rw [mem_keys_iff (ht.call _), get?_remove_self ht]
    simp
  rw [← List.erase_of_not_mem hnot]
  obtain ⟨-, h⟩ | ⟨k, hk, h⟩ := remove_cases (t := t) key
  · rw [h]
  · rw [h, erase_keys_setAt ht key hk]

omit ht in
theorem keys_removeMethodTemplates :
    t.removeMethodTemplates.keys = t.keys.filter fun key => key ∈ otherScopes := by
  have hcustom : t.customKeys.filter (fun key => key ∈ otherScopes) = [] := by
    refine List.filter_eq_nil_iff.2 fun key hkey hin => not_mem_fixed_of_mem_customKeys hkey ?_
    exact (by decide : otherScopes ⊆ StoreKey.fixed) (of_decide_eq_true hin)
  have hnone : t.removeMethodTemplates.customKeys = [] := rfl
  rw [keys_eq, keys_eq, List.filter_append, hcustom, hnone, List.filter_filter, List.append_nil,
    List.append_nil]
  refine List.filter_congr fun key _ => ?_
  rw [get?_removeMethodTemplates]
  by_cases h : key ∈ otherScopes <;> simp [h]

private theorem IsKeyed.isOrderedMap : t.IsOrderedMap where
  nodup_keys := nodup_keys ht
  mem_keys_iff _ := mem_keys_iff ht
  keys_eq := keys_eq t
  put_ok_iff := put_ok_iff
  of_put_ok key template t' h := by
    obtain ⟨k, hk, rfl⟩ := exists_of_put_ok key h
    exact ⟨get?_setAt_self ht hk, fun _ => get?_setAt_of_ne hk, erase_keys_setAt ht key hk,
      keys_setAt_of_mem ht hk, keys_setAt_of_not_mem hk⟩
  of_put_error key template e h := by
    refine ⟨?_, get?_of_put_error key h⟩
    rw [Templates.call, h]
  remove_fst := remove_fst
  call_remove key h := call_remove_of_get? key ((remove_fst key).symm.trans h)
  get?_remove key := by
    refine ⟨get?_remove_self ht key, fun other hne => ?_⟩
    obtain ⟨-, h⟩ | ⟨k, hk, h⟩ := remove_cases (t := t) key
    · rw [h]
    · rw [h, get?_setAt_of_ne hk hne]
  keys_remove := keys_remove ht
  get?_removeMethods := get?_removeMethodTemplates t
  keys_removeMethods := keys_removeMethodTemplates

end Laws

/-- A valid configuration is an ordered map after any operations. -/
theorem isOrderedMap_after {t : Templates} (h : t.validate = .ok ()) (calls : List StoreCall) :
    (t.after calls).IsOrderedMap :=
  ((isKeyed_of_validate h).after calls).isOrderedMap

/-- Templates that are added, exchanged and removed; one of them has a blank name. -/
theorem isOrderedMap_after_standard :
    Templates.standard.validate = .ok () ∧
    let calls : List StoreCall := [.put "CUSTOMrun".toList [], .put "Methods".toList "x".toList,
      .remove "GETTER".toList, .put "CUSTOM ".toList "y".toList, .put "CUSTOMrun".toList "z".toList,
      .put "CUSTOM".toList []]
    (Templates.standard.after calls).IsOrderedMap ∧
    (Templates.standard.after calls).keys = ["Classes".toList, "Fields".toList,
      "Constructors".toList, "Methods".toList, "HASH_CODE".toList, "EQUALS".toList, "CLONE".toList,
      "TO_STRING".toList, "SETTER".toList, "CUSTOMrun".toList, "CUSTOM ".toList] ∧
    (Templates.standard.after calls).get? "CUSTOMrun".toList = some "z".toList :=
  ⟨by decide, isOrderedMap_after (by decide) _, by decide, by decide⟩

end Templates
end Javadoc
