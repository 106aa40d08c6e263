import Javadoc.Proofs.Text.Trim
import Javadoc.Template.Store
import Mathlib.Data.List.Nodup

/-! The places of a configuration. Every key that can be read names one place, and as long as custom
templates have distinct names that are not empty, every place that holds a template has a key of its
own; changing one place leaves all others as they are. -/
namespace Javadoc

namespace StoreKey

def text? : StoreKey → Option Text
  | .scope s => some s.key
  | .role r => r.key?
  | .custom name => if name = [] then none else some (customStart ++ name)

theorem text?_custom_eq_some_iff {name key : Text} :
    (custom name).text? = some key ↔ name ≠ [] ∧ customStart ++ name = key := by
  simp [text?]

def fixed : List Text := Scope.all.map Scope.key ++ Role.all.filterMap Role.key?

theorem nodup_fixed : fixed.Nodup := by decide

theorem append_not_mem_fixed (name : Text) : customStart ++ name ∉ fixed := by
  have h : ∀ key ∈ fixed, ¬ customStart <+: key := by
    simp only [← List.isPrefixOf_iff_prefix]
    decide
  exact fun hm => h _ hm (List.prefix_append _ _)

theorem mem_fixed_of_scope (s : Scope) : s.key ∈ fixed := by
  cases s <;> decide

theorem mem_fixed_of_role {r : Role} {key : Text} (h : r.key? = some key) : key ∈ fixed := by
  refine List.mem_append_right _ (List.mem_filterMap.2 ⟨r, ?_, h⟩)
  cases r <;> decide

/-- Reading a key is the inverse of writing it. -/
theorem ofText?_eq_some_iff {key : Text} {k : StoreKey} :
    ofText? key = some k ↔ k.text? = some key := by
  constructor
  · intro h
    unfold ofText? at h
    split at h
    · next s hs =>
      obtain rfl := Option.some.inj h
      exact congrArg some (by simpa using List.find?_some hs)
    · split at h
      · next r hr =>
        obtain rfl := Option.some.inj h
        have hkey := List.find?_some hr
        exact eq_of_beq hkey
      · split at h
        · next name hname =>
          obtain rfl := Text.stripPrefix?_eq_some_iff.1 hname
          split at h
          · cases h
          · next hne =>
            obtain rfl := Option.some.inj h
            exact if_neg fun he => hne (List.isEmpty_iff.2 he)
        · cases h
  · intro h
    cases k with
    | scope s =>
      obtain rfl := Option.some.inj h
      cases s <;> rfl
    | role r => cases r <;> cases h <;> rfl
    | custom name =>
      obtain ⟨hne, rfl⟩ := text?_custom_eq_some_iff.1 h
      have hs : Scope.ofKey? (customStart ++ name) = none :=
        List.find?_eq_none.2 fun s _ he =>
          append_not_mem_fixed name ((beq_iff_eq.1 he) ▸ mem_fixed_of_scope s)
      have hr : Role.ofKey? (customStart ++ name) = none :=
        List.find?_eq_none.2 fun r _ he =>
          append_not_mem_fixed name (mem_fixed_of_role (beq_iff_eq.1 he))
      have hp : Text.stripPrefix? customStart (customStart ++ name) = some name :=
        Text.stripPrefix?_eq_some_iff.2 rfl
      rw [ofText?, hs, hr, hp]
      simp [hne]

/-- A key names a scope, a role with a template, or a custom template with a name. -/
theorem isSome_ofText?_iff {key : Text} :
    (ofText? key).isSome ↔ key ∈ fixed ∨ ∃ name, name ≠ [] ∧ key = customStart ++ name := by
  rw [Option.isSome_iff_exists]
  simp only [ofText?_eq_some_iff]
  constructor
  · rintro ⟨s | r | name, h⟩
    · exact .inl ((Option.some.inj h) ▸ mem_fixed_of_scope s)
    · exact .inl (mem_fixed_of_role h)
    · obtain ⟨hne, rfl⟩ := text?_custom_eq_some_iff.1 h
      exact .inr ⟨name, hne, rfl⟩
  · rintro (h | ⟨name, hne, rfl⟩)
    · rcases List.mem_append.1 h with h | h
      · obtain ⟨s, -, rfl⟩ := List.mem_map.1 h
        exact ⟨.scope s, rfl⟩
      · obtain ⟨r, -, hr⟩ := List.mem_filterMap.1 h
        exact ⟨.role r, hr⟩
    · exact ⟨.custom name, if_neg hne⟩

private theorem ne_of_text? {k l : StoreKey} {key other : Text} (hk : k.text? = some key)
    (hl : l.text? = some other) (h : other ≠ key) : l ≠ k := by
  rintro rfl
  exact h (Option.some.inj (hl.symm.trans hk))

end StoreKey

namespace Templates

/-! ## Places and keys -/

def at? (t : Templates) : StoreKey → Option Text
  | .scope s => t.scope? s
  | .role r => t.roles.get? r
  | .custom name => (t.custom? name).map (·.template)

def setAt (t : Templates) (value : Option Text) : StoreKey → Templates
  | .scope s => t.setScope value s
  | .role r => { t with roles := t.roles.set value r }
  | .custom name =>
    match value with
    | some template => { t with custom := putCustom name template t.custom }
    | none => { t with custom := eraseCustom name t.custom }

theorem get?_eq (t : Templates) (key : Text) : t.get? key = (StoreKey.ofText? key).bind t.at? := by
  unfold get?
  split <;> simp only [*] <;> rfl

theorem put_eq (t : Templates) (key template : Text) : t.put key template =
    match StoreKey.ofText? key with
    | none => .error (.invalidConfig (.unknownKey key))
    | some k => .ok (t.setAt (some template) k) := by
  unfold put
  cases StoreKey.ofText? key with
  | none => rfl
  | some k => cases k <;> rfl

theorem remove_eq (t : Templates) (key : Text) : t.remove key =
    match StoreKey.ofText? key with
    | none => (none, t)
    | some k => (t.at? k, t.setAt none k) := by
  unfold remove
  cases StoreKey.ofText? key with
  | none => rfl
  | some k => cases k <;> rfl

def customKeys (t : Templates) : List Text := t.custom.map fun c => StoreKey.customStart ++ c.name

theorem customKeys_eq (t : Templates) :
    t.customKeys = (t.custom.map (·.name)).map fun name => StoreKey.customStart ++ name :=
  List.map_map.symm

theorem keys_eq (t : Templates) :
    t.keys = (StoreKey.fixed.filter fun key => (t.get? key).isSome) ++ t.customKeys := by
  have hscopes : (Scope.all.filter fun s => (t.scope? s).isSome).map Scope.key =
      (Scope.all.map Scope.key).filter fun key => (t.get? key).isSome := by
    rw [List.filter_map]
    refine congrArg (List.map Scope.key) (List.filter_congr fun s _ => ?_)
    cases s <;> rfl
  have hroles : (Role.all.filter fun r => (t.roles.get? r).isSome).filterMap Role.key? =
      (Role.all.filterMap Role.key?).filter fun key => (t.get? key).isSome := by
    rw [List.filter_filterMap, List.filterMap_filter]
    refine List.filterMap_congr fun r _ => ?_
    cases r <;> simp [Role.key?, get?, Option.filter] <;> rfl
  rw [keys, hscopes, hroles, StoreKey.fixed, List.filter_append]
  rfl

/-! ## Custom templates -/

section Custom

variable {name template : Text} {cs : List CustomTemplate}

theorem map_name_putCustom : (putCustom name template cs).map (·.name) =
    if name ∈ cs.map (·.name) then cs.map (·.name) else cs.map (·.name) ++ [name] := by
  induction cs with
  | nil => rfl
  | cons c cs ih =>
    by_cases h : c.name = name
    · simp [putCustom, h]
    · have h' : name ≠ c.name := Ne.symm h
      simp only [putCustom, if_neg h, List.map_cons, ih, List.mem_cons, h', false_or]
      split <;> rfl

/-- Putting a template leaves those of other names alone. -/
theorem filter_putCustom : (putCustom name template cs).filter (·.name != name) =
    cs.filter (·.name != name) := by
  induction cs with
  | nil => simp [putCustom]
  | cons c cs ih =>
    by_cases h : c.name = name
    · simp [putCustom, h]
    · simp [putCustom, h, ih]

/-- Erasing a template leaves those of other names alone. -/
theorem filter_eraseCustom : (eraseCustom name cs).filter (·.name != name) =
    cs.filter (·.name != name) := by
  induction cs with
  | nil => rfl
  | cons c cs ih =>
    by_cases h : c.name = name
    · simp [eraseCustom, h]
    · simp [eraseCustom, h, ih]

private theorem eraseCustom_sublist : (eraseCustom name cs).Sublist cs := by
  induction cs with
  | nil => exact .slnil
  | cons c cs ih =>
    simp only [eraseCustom]
    split
    · exact List.sublist_cons_self c cs
    · exact ih.cons_cons c

private theorem find?_putCustom :
    (putCustom name template cs).find? (·.name == name) = some ⟨name, template⟩ := by
  induction cs with
  | nil => simp [putCustom]
  | cons c cs ih =>
    by_cases h : c.name = name
    · simp [putCustom, h]
    · simp [putCustom, h, ih]

private theorem find?_eraseCustom (hn : (cs.map (·.name)).Nodup) :
    (eraseCustom name cs).find? (·.name == name) = none := by
  induction cs with
  | nil => rfl
  | cons c cs ih =>
    obtain ⟨hc, hn⟩ := List.nodup_cons.1 hn
    simp only [eraseCustom]
    split
    · next h =>
      refine List.find?_eq_none.2 fun d hd he => hc ?_
      exact List.mem_map.2 ⟨d, hd, (beq_iff_eq.1 he).trans h.symm⟩
    · next h =>
      rw [List.find?_cons_of_neg (by simpa using h), ih hn]

private theorem eraseCustom_of_find? (h : cs.find? (·.name == name) = none) :
    eraseCustom name cs = cs := by
  induction cs with
  | nil => rfl
  | cons c cs ih =>
    rw [List.find?_cons] at h
    split at h
    · cases h
    · next hc => rw [eraseCustom, if_neg (by simpa using hc), ih h]

/-- A template is found among those of other names than the one that is left out. -/
theorem find?_of_filter_eq {cs ds : List CustomTemplate} {other : Text}
    (h : ds.filter (·.name != name) = cs.filter (·.name != name)) (hne : other ≠ name) :
    ds.find? (·.name == other) = cs.find? (·.name == other) := by
  have hskip (es : List CustomTemplate) :
      (es.filter (·.name != name)).find? (·.name == other) = es.find? (·.name == other) := by
    rw [List.find?_filter]
    congr 1
    funext c
    by_cases hc : c.name = other
    · simp [hc, hne]
    · simp [hc]
  rw [← hskip, h, hskip]

end Custom

structure IsKeyed (t : Templates) : Prop where
  named : ∀ c ∈ t.custom, c.name ≠ []
  distinct : (t.custom.map (·.name)).Nodup

private theorem customFault?_eq_none_iff {seen : List Text} {cs : List CustomTemplate} :
    customFault? seen cs = none ↔ (∀ c ∈ cs, Text.trim c.name ≠ []) ∧
      (cs.map (·.name)).Nodup ∧ ∀ c ∈ cs, c.name ∉ seen := by
  induction cs generalizing seen with
  | nil => simp [customFault?]
  | cons c cs ih =>
    simp only [customFault?, List.forall_mem_cons, List.map_cons, List.nodup_cons]
    by_cases hb : Text.trim c.name = []
    · simp [hb]
    · by_cases hs : c.name ∈ seen
      · simp [hb, hs]
      · simp only [List.isEmpty_iff, hb, if_false, List.contains_eq_mem, hs, decide_false,
          Bool.false_eq_true, ih, List.mem_cons, not_or, ne_eq, not_false_eq_true, true_and]
        constructor
        · rintro ⟨hblank, hn, hseen⟩
          refine ⟨hblank, ⟨?_, hn⟩, fun d hd => (hseen d hd).2⟩
          rintro hm
          obtain ⟨d, hd, he⟩ := List.mem_map.1 hm
          exact (hseen d hd).1 he
        · rintro ⟨hblank, ⟨hm, hn⟩, hseen⟩
          exact ⟨hblank, hn, fun d hd => ⟨fun he => hm (he ▸ List.mem_map_of_mem hd), hseen d hd⟩⟩

/-- A configuration is valid if the names of its custom templates are distinct and not blank. -/
theorem validate_eq_ok_iff {t : Templates} : t.validate = .ok () ↔
    (∀ c ∈ t.custom, Text.trim c.name ≠ []) ∧ (t.custom.map (·.name)).Nodup := by
  have hiff : t.validate = .ok () ↔ customFault? [] t.custom = none := by
    unfold validate
    cases customFault? [] t.custom <;> simp
  rw [hiff, customFault?_eq_none_iff]
  simp

theorem isKeyed_of_validate {t : Templates} (h : t.validate = .ok ()) : t.IsKeyed where
  named c hc he := (validate_eq_ok_iff.1 h).1 c hc (by rw [he]; rfl)
  distinct := (validate_eq_ok_iff.1 h).2

/-! ## One place -/

section Place

variable {t : Templates} {k l : StoreKey} {key other : Text} {value : Option Text}

private theorem at?_setAt_self (ht : t.IsKeyed) (hk : k.text? = some key) :
    (t.setAt value k).at? k = value := by
  cases k with
  | scope s => cases s <;> rfl
  | role r => cases r <;> cases hk <;> rfl
  | custom name =>
    cases value with
    | some template => simp only [setAt, at?, custom?, find?_putCustom, Option.map_some]
    | none => simp only [setAt, at?, custom?, find?_eraseCustom ht.distinct, Option.map_none]

private theorem at?_setAt_of_ne (h : l ≠ k) : (t.setAt value k).at? l = t.at? l := by
  cases k with
  | scope s =>
    cases l with
    | scope s' => cases s <;> cases s' <;> first | rfl | exact absurd rfl h
    | role r => cases s <;> rfl
    | custom name => cases s <;> rfl
  | role r =>
    cases l with
    | scope s => cases s <;> rfl
    | role r' => cases r <;> cases r' <;> first | rfl | exact absurd rfl h
    | custom name => rfl
  | custom name =>
    have hcustom (other : Text) (hne : other ≠ name) :
        (t.setAt value (.custom name)).custom? other = t.custom? other := by
      cases value with
      | some template => exact find?_of_filter_eq filter_putCustom hne
      | none => exact find?_of_filter_eq filter_eraseCustom hne
    cases l with
    | scope s => cases value <;> cases s <;> rfl
    | role r => cases value <;> rfl
    | custom other =>
      simp only [at?, hcustom other fun he => h (he ▸ rfl)]

/-- Clearing a place that holds nothing changes nothing. -/
theorem setAt_none_of_at? (h : t.at? k = none) : t.setAt none k = t := by
  cases k with
  | scope s => cases s <;> cases t <;> cases h <;> rfl
  | role r =>
    obtain ⟨_, _, _, _, roles, _, _⟩ := t
    cases r <;> cases roles <;> cases h <;> rfl
  | custom name => rw [setAt, eraseCustom_of_find? (Option.map_eq_none_iff.1 h)]

theorem get?_setAt_self (ht : t.IsKeyed) (hk : k.text? = some key) :
    (t.setAt value k).get? key = value := by
  rw [get?_eq, StoreKey.ofText?_eq_some_iff.2 hk, Option.bind_some, at?_setAt_self ht hk]

theorem get?_setAt_of_ne (hk : k.text? = some key) (h : other ≠ key) :
    (t.setAt value k).get? other = t.get? other := by
  rw [get?_eq, get?_eq]
  cases hl : StoreKey.ofText? other with
  | none => rfl
  | some l =>
    exact at?_setAt_of_ne (StoreKey.ne_of_text? hk (StoreKey.ofText?_eq_some_iff.1 hl) h)

theorem isKeyed_setAt (ht : t.IsKeyed) (hk : k.text? = some key) : (t.setAt value k).IsKeyed := by
  cases k with
  | scope s => cases s <;> exact ⟨ht.named, ht.distinct⟩
  | role r => exact ⟨ht.named, ht.distinct⟩
  | custom name =>
    cases value with
    | some template =>
      have hne : name ≠ [] := by
        rintro rfl
        cases hk
      have hnames := @map_name_putCustom name template t.custom
      have hmem : ∀ n ∈ (putCustom name template t.custom).map (·.name), n ≠ [] := by
        rw [hnames]
        have hold : ∀ n ∈ t.custom.map (·.name), n ≠ [] := List.forall_mem_map.2 ht.named
        split
        · exact hold
        · exact List.forall_mem_append.2 ⟨hold, by simpa using hne⟩
      refine ⟨fun c hc => hmem c.name (List.mem_map_of_mem hc), ?_⟩
      change ((putCustom name template t.custom).map (·.name)).Nodup
      rw [hnames]
      split
      · exact ht.distinct
      · next hnew =>
        refine List.nodup_append.2 ⟨ht.distinct, List.nodup_singleton _, ?_⟩
        rintro n hn _ hs rfl
        exact hnew ((List.mem_singleton.1 hs) ▸ hn)
    | none =>
      exact ⟨fun c hc => ht.named c (eraseCustom_sublist.subset hc),
        ht.distinct.sublist (eraseCustom_sublist.map _)⟩

end Place

end Templates
end Javadoc
