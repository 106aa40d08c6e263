import Javadoc.Proofs.Toml.Outline
import Javadoc.Proofs.Toml.Statements
import Javadoc.Template.ConfigText
import Mathlib.Data.List.Forall2

/-! Writing a configuration and reading it again. Each part of the text reads as the statements of
that part, they make up one table, and that table gives the configuration back. -/
namespace Javadoc
open Toml

namespace ConfigText

/-! ## Values that may be missing -/

def present {α : Type} (name : α → Text) (text? : α → Option Text) (as : List α) : Entries :=
  as.filterMap fun a => (text? a).map fun t => (name a, .string t)

section Present

variable {α : Type} {name : α → Text} {text? : α → Option Text} {as : List α}

private theorem map_fst_present_sublist :
    ((present name text? as).map (·.1)).Sublist (as.map name) := by
  induction as with
  | nil => simp [present]
  | cons a as ih =>
    cases h : text? a with
    | none => simpa [present, h] using ih.cons (name a)
    | some t => simpa [present, h] using ih.cons_cons (name a)

private theorem not_mem_present {n : Text} (h : n ∉ as.map name) :
    n ∉ (present name text? as).map (·.1) :=
  fun hmem => h (map_fst_present_sublist.subset hmem)

private theorem lookup_present (h : (as.map name).Nodup) {a : α} (ha : a ∈ as) :
    (present name text? as).lookup (name a) = (text? a).map .string := by
  induction as with
  | nil => cases ha
  | cons b as ih =>
    obtain ⟨hb, has⟩ := List.nodup_cons.1 h
    obtain rfl | ha := List.mem_cons.1 ha
    · have hrest : (present name text? as).lookup (name a) = none :=
        Entries.lookup_eq_none (not_mem_present hb)
      cases ht : text? a with
      | none => simpa [present, ht] using hrest
      | some t => simp [present, ht]
    · have hne : name a ≠ name b := fun he => hb (he ▸ List.mem_map_of_mem ha)
      rw [← ih has ha]
      cases ht : text? b with
      | none => simp [present, ht]
      | some t => simp [present, ht, List.lookup_cons, beq_eq_false_iff_ne.2 hne]

private theorem reads_present (text? : α → Option Text) (h : ∀ a ∈ as, isBare (name a)) :
    Reads (as.flatMap fun a => setting? (name a) (text? a)) (pairs (present name text? as)) := by
  induction as with
  | nil => exact Reads.nil
  | cons a as ih =>
    rw [List.forall_mem_cons] at h
    cases ht : text? a with
    | none => simpa [present, setting?, ht] using ih h.2
    | some t =>
      simpa [present, pairs, setting?, setting, ht] using
        (reads_setting h.1 (gives_quote t)).append (ih h.2)

end Present

/-! ## The table of a configuration -/

def topEntries (t : Templates) : Entries :=
  present Scope.settingName t.scope? Scope.all ++
    if t.custom.isEmpty then [(customName, .array [])] else []

def roleEntries (roles : RoleTemplates) : Entries :=
  present (·.2) (fun e => roles.get? e.1) RoleTemplates.settingNames

def customEntries (c : CustomTemplate) : Entries :=
  [(entryName, .string c.name), (entryTemplate, .string c.template)]

def optionEntries (defaultForMissingRoles : Bool) : Entries :=
  [(missingName, .boolean defaultForMissingRoles)]

def frontEntries (t : Templates) : Entries :=
  topEntries t ++ [(rolesName, .table .header (roleEntries t.roles))]

def entries (t : Templates) : Entries :=
  frontEntries t ++ several customName (t.custom.map customEntries) ++
    [(optionsName, .table .header (optionEntries t.defaultForMissingRoles))]

def statementParts (t : Templates) : List (List Statement) :=
  pairs (topEntries t) :: (.table ⟨[], rolesName⟩ :: pairs (roleEntries t.roles)) ::
    t.custom.map (fun c => .element ⟨[], customName⟩ :: pairs (customEntries c)) ++
    [.table ⟨[], optionsName⟩ :: pairs (optionEntries t.defaultForMissingRoles)]

/-! ## The parts as statements -/

private theorem reads_topPart (t : Templates) : Reads (topPart t) (pairs (topEntries t)) := by
  have hscopes : Reads (Scope.all.flatMap fun s => setting? s.settingName (t.scope? s))
      (pairs (present Scope.settingName t.scope? Scope.all)) := reads_present t.scope? (by decide)
  unfold topPart topEntries
  split
  · rw [pairs, List.map_append]
    exact hscopes.append (reads_setting (by decide) gives_empty)
  · simpa using hscopes

private theorem reads_rolesPart (roles : RoleTemplates) :
    Reads (rolesPart roles) (.table ⟨[], rolesName⟩ :: pairs (roleEntries roles)) :=
  (reads_header (by decide)).append
    (reads_present (fun e : Role × Text => roles.get? e.1) (by decide))

private theorem reads_customPart (c : CustomTemplate) :
    Reads (customPart c) (.element ⟨[], customName⟩ :: pairs (customEntries c)) :=
  ((reads_element (by decide)).append (reads_setting (by decide) (gives_quote c.name))).append
    (reads_setting (by decide) (gives_quote c.template))

private theorem reads_optionsPart (b : Bool) :
    Reads (optionsPart b) (.table ⟨[], optionsName⟩ :: pairs (optionEntries b)) :=
  (reads_header (by decide)).append (reads_setting (by decide) (gives_boolean b))

private theorem forall₂_reads_parts (t : Templates) :
    List.Forall₂ Reads (parts t) (statementParts t) := by
  have hcustom : List.Forall₂ Reads (t.custom.map customPart)
      (t.custom.map fun c => .element ⟨[], customName⟩ :: pairs (customEntries c)) := by
    rw [List.forall₂_map_left_iff, List.forall₂_map_right_iff, List.forall₂_same]
    exact fun c _ => reads_customPart c
  exact .cons (reads_topPart t) (.cons (reads_rolesPart t.roles)
    (List.rel_append hcustom (.cons (reads_optionsPart _) .nil)))

/-- Parts that are not empty stand with an empty line between them. -/
theorem reads_joinLines {ps : List Text} {sss : List (List Statement)}
    (h : List.Forall₂ Reads ps sss) :
    Reads (Text.joinLines (ps.filter fun p => !p.isEmpty)) sss.flatten := by
  induction h with
  | nil => exact Reads.nil
  | @cons p ss ps sss hp h ih =>
    cases p with
    | nil =>
      obtain rfl := hp.eq_nil
      simpa using ih
    | cons c p =>
      rw [List.filter_cons_of_pos (by simp), List.flatten_cons]
      cases hrest : ps.filter fun p => !p.isEmpty with
      | nil =>
        rw [hrest] at ih
        simpa [ih.eq_nil, Text.joinLines, Text.joinWith] using hp
      | cons q qs =>
        rw [hrest] at ih
        simpa [Text.joinLines_cons_cons] using hp.append (reads_break.append ih)

/-! ## The statements as a table -/

section Table

variable (t : Templates)

private theorem map_fst_topEntries_sublist :
    ((topEntries t).map (·.1)).Sublist (Scope.all.map Scope.settingName ++ [customName]) := by
  rw [topEntries, List.map_append]
  refine map_fst_present_sublist.append ?_
  split <;> simp

private theorem nodup_roleEntries (roles : RoleTemplates) : ((roleEntries roles).map (·.1)).Nodup :=
  map_fst_present_sublist.nodup (by decide)

private theorem rolesName_not_mem_topEntries : rolesName ∉ (topEntries t).map (·.1) := fun hmem =>
  absurd ((map_fst_topEntries_sublist t).subset hmem) (by decide)

private theorem mem_names_of_mem_frontEntries {n : Text} (h : n ∈ (frontEntries t).map (·.1)) :
    n ∈ Scope.all.map Scope.settingName ++ [customName, rolesName] := by
  rw [frontEntries, List.map_append, List.mem_append] at h
  obtain h | h := h
  · have := (map_fst_topEntries_sublist t).subset h
    grind
  · have : n = rolesName := by simpa using h
    simp [this]

/-- The custom templates are listed before the first header only if there are none. -/
theorem customName_not_mem_frontEntries (h : t.custom ≠ []) :
    customName ∉ (frontEntries t).map (·.1) := by
  have hscopes : customName ∉ (present Scope.settingName t.scope? Scope.all).map (·.1) :=
    not_mem_present (by decide)
  have hroles : customName ≠ rolesName := by decide
  have hempty : t.custom.isEmpty = false := by simpa using h
  rw [frontEntries, topEntries, hempty]
  simpa [hroles] using hscopes

private theorem optionsName_not_mem : optionsName ∉
    (frontEntries t ++ several customName (t.custom.map customEntries)).map (·.1) := by
  rw [List.map_append, List.mem_append]
  rintro (hmem | hmem)
  · exact absurd (mem_names_of_mem_frontEntries t hmem) (by decide)
  · exact absurd (eq_of_mem_several hmem) (by decide)

/-- The tables of custom templates go behind the entries before them. -/
theorem exists_foldlM_custom (path : List Text) :
    ∃ path', (elementLines customName (t.custom.map customEntries)).foldlM Outline.add
        ⟨path, frontEntries t⟩ =
      some ⟨path', frontEntries t ++ several customName (t.custom.map customEntries)⟩ := by
  by_cases hc : t.custom = []
  · exact ⟨path, by simp [hc, elementLines]⟩
  · have hnodup : ∀ inner ∈ t.custom.map customEntries, (inner.map (·.1)).Nodup := by
      rw [List.forall_mem_map]
      intro c _
      have : entryName ≠ entryTemplate := by decide
      simpa [customEntries] using this
    simpa using Outline.exists_foldlM_elementLines path (customName_not_mem_frontEntries t hc)
      hnodup []

private theorem exists_foldlM_statementParts :
    ∃ path, (statementParts t).flatten.foldlM Outline.add {} = some ⟨path, entries t⟩ := by
  have htop := Outline.foldlM_pairs focus_whole []
    (by simpa using (map_fst_topEntries_sublist t).nodup (by decide))
  have hroles := Outline.foldlM_table [] (rolesName_not_mem_topEntries t)
    (nodup_roleEntries t.roles)
  obtain ⟨path, hcustom⟩ := exists_foldlM_custom t [rolesName]
  have hnodup : ((optionEntries t.defaultForMissingRoles).map (·.1)).Nodup := by
    simp [optionEntries]
  have hoptions := Outline.foldlM_table path (optionsName_not_mem t) hnodup
  have hflat : (statementParts t).flatten = pairs (topEntries t) ++
      ((.table ⟨[], rolesName⟩ :: pairs (roleEntries t.roles)) ++
        (elementLines customName (t.custom.map customEntries) ++
          (.table ⟨[], optionsName⟩ :: pairs (optionEntries t.defaultForMissingRoles)))) := by
    simp [statementParts, elementLines, List.flatMap_def, Function.comp_def]
  refine ⟨[optionsName], ?_⟩
  simp only [id, List.nil_append] at htop
  simp only [hflat, List.foldlM_append, htop, hroles, Option.bind_eq_bind, Option.bind_some]
  rw [← frontEntries, hcustom]
  exact hoptions

end Table

/-! ## The table as a configuration -/

section Lookup

variable (t : Templates)

/-- What follows the templates of scopes has one of three names. -/
theorem exists_entries_eq :
    ∃ rest, entries t = present Scope.settingName t.scope? Scope.all ++ rest ∧
      ∀ n ∈ rest.map (·.1), n ∈ [rolesName, customName, optionsName] := by
  refine ⟨_, by simp only [entries, frontEntries, topEntries, List.append_assoc]; rfl, ?_⟩
  cases t.custom <;> simp [several]

private theorem mem_allNames {n : Text} (h : n ∈ (entries t).map (·.1)) : n ∈ allNames := by
  obtain ⟨rest, heq, hrest⟩ := exists_entries_eq t
  rw [heq, List.map_append, List.mem_append] at h
  rw [allNames, List.mem_append]
  exact h.imp (fun h => map_fst_present_sublist.subset h) (hrest n)

private theorem lookup_scope (s : Scope) :
    (entries t).lookup s.settingName = (t.scope? s).map .string := by
  obtain ⟨rest, heq, hrest⟩ := exists_entries_eq t
  have hs : s.settingName ∉ rest.map (·.1) := fun hmem => by
    have := hrest _ hmem
    cases s <;> revert this <;> decide
  rw [heq, List.lookup_append, lookup_present (by decide) (by cases s <;> decide),
    Entries.lookup_eq_none hs, Option.or_none]

private theorem lookup_roles :
    (entries t).lookup rolesName = some (.table .header (roleEntries t.roles)) := by
  have htop := Entries.lookup_eq_none (rolesName_not_mem_topEntries t)
  simp [entries, frontEntries, List.lookup_append, htop]

private theorem lookup_custom :
    (entries t).lookup customName =
      some (if t.custom.isEmpty then .array [] else .tables (t.custom.map customEntries)) := by
  have hscopes : customName ∉ (present Scope.settingName t.scope? Scope.all).map (·.1) :=
    not_mem_present (by decide)
  cases hc : t.custom with
  | nil =>
    simp [entries, frontEntries, topEntries, List.lookup_append, Entries.lookup_eq_none hscopes, hc]
  | cons c cs =>
    have hfront := Entries.lookup_eq_none (customName_not_mem_frontEntries t (by simp [hc]))
    simp [entries, List.lookup_append, hfront, hc, several]

private theorem lookup_options :
    (entries t).lookup optionsName =
      some (.table .header (optionEntries t.defaultForMissingRoles)) :=
  Entries.lookup_append_self (Entries.lookup_eq_none (optionsName_not_mem t))

end Lookup

private theorem record?_of_names {names : List Text} {es : Entries}
    (h : ∀ n ∈ es.map (·.1), n ∈ names)
    (closed : Bool) (o : Origin) : record? names closed (.table o es) = some fun n => es.lookup n := by
  have hany : es.any (fun e => !names.contains e.1) = false := by
    simpa [List.any_eq_false] using h
  simp only [record?, hany, Bool.and_false, Bool.false_eq_true, if_false]

private theorem optionalText?_map (t? : Option Text) :
    optionalText? (t?.map .string) = some t? := by
  cases t? <;> rfl

/-- Texts that are there or missing are read one after the other. -/
theorem foldlM_optionalText {α β : Type} {as : List α} {value : α → Option Node}
    {text? : α → Option Text} (h : ∀ a ∈ as, value a = (text? a).map .string)
    (set : β → Option Text → α → β) (b : β) :
    as.foldlM (fun b a => (optionalText? (value a)).map fun t => set b t a) b =
      some (as.foldl (fun b a => set b (text? a) a) b) := by
  induction as generalizing b with
  | nil => rfl
  | cons a as ih =>
    rw [List.forall_mem_cons] at h
    simp [h.1, optionalText?_map, ih h.2]

private theorem readRoles_roleEntries (roles : RoleTemplates) :
    readRoles (some (.table .header (roleEntries roles))) = some roles := by
  have hnames : ∀ n ∈ (roleEntries roles).map (·.1), n ∈ RoleTemplates.settingNames.map (·.2) :=
    fun n hn => map_fst_present_sublist.subset hn
  have hlookup : ∀ e ∈ RoleTemplates.settingNames,
      (roleEntries roles).lookup e.2 = (roles.get? e.1).map .string :=
    fun e he => lookup_present (by decide) he
  simp only [readRoles, record?_of_names hnames, Option.bind_eq_bind, Option.bind_some]
  exact foldlM_optionalText hlookup (fun r t e => RoleTemplates.set r t e.1) ({} : RoleTemplates)

private theorem readEntry_customEntries (c : CustomTemplate) :
    readEntry (.table .header (customEntries c)) = some c := by
  have hne : (entryTemplate == entryName) = false := by decide
  simp [readEntry, record?, customEntries, List.lookup_cons, hne]

private theorem readCustom_several (cs : List CustomTemplate) :
    readCustom (some (if cs.isEmpty then .array [] else .tables (cs.map customEntries))) = some cs := by
  have hmap : (cs.map customEntries).mapM (fun es => readEntry (.table .header es)) = some cs := by
    induction cs with
    | nil => rfl
    | cons c cs ih => simp [readEntry_customEntries, ih]
  cases cs with
  | nil => rfl
  | cons c cs => simpa [readCustom] using hmap

private theorem readOptions_optionEntries (b : Bool) :
    readOptions (some (.table .header (optionEntries b))) = some b := by
  simp [readOptions, record?, optionEntries]

/-- The table of a configuration gives it back. -/
theorem readTemplates_entries (t : Templates) : readTemplates (entries t) = some t := by
  have hscopes := foldlM_optionalText (fun s (_ : s ∈ Scope.all) => lookup_scope t s)
    (fun u v s => Templates.setScope u v s) {}
  simp only [readTemplates, record?_of_names (fun n => mem_allNames t), Option.bind_eq_bind,
    Option.bind_some, hscopes, lookup_roles, lookup_custom, lookup_options, readRoles_roleEntries,
    readCustom_several, readOptions_optionEntries]
  rfl

end ConfigText

namespace Templates

open ConfigText

/-- Whatever a configuration holds, its text gives it back. -/
theorem ofConfigText?_toConfigText (t : Templates) : ofConfigText? t.toConfigText = some t := by
  have hreads := reads_joinLines (forall₂_reads_parts t)
  obtain ⟨path, hfold⟩ := exists_foldlM_statementParts t
  have htable : Entries.ofText? t.toConfigText = some (entries t) := by
    rw [toConfigText, hreads.ofText?_eq, hfold]
    rfl
  simp [ofConfigText?, htable, readTemplates_entries]

/-- The names of custom templates are all that a configuration is refused for. -/
theorem validate_cases (t : Templates) :
    t.validate = .ok () ∨ ∃ fault, t.validate = .error (.invalidConfig fault) := by
  unfold validate
  split
  · exact .inr ⟨_, rfl⟩
  · exact .inl rfl

/-- A valid configuration is read back from its text as it was; any other is refused for the same
fault as without the detour through text. -/
theorem ofConfigText_toConfigText (t : Templates) :
    (t.validate = .ok () → ofConfigText t.toConfigText = .ok t) ∧
      (t.validate ≠ .ok () → ∃ fault, t.validate = .error (.invalidConfig fault) ∧
        ofConfigText t.toConfigText = .error (.invalidConfig fault)) := by
  have hread := ofConfigText?_toConfigText t
  constructor
  · intro hvalid
    simp [ofConfigText, hread, hvalid]
  · intro hinvalid
    obtain ⟨fault, hfault⟩ := t.validate_cases.resolve_left hinvalid
    exact ⟨fault, hfault, by simp [ofConfigText, hread, hfault]⟩

/-- Texts for all four forms of a string, and names that are given twice. -/
theorem ofConfigText_toConfigText_quoted :
    let t : Templates :=
      { classes := some "\n/** \"\"\" and ''' \\ <className> \r\n\x07 */".toList
        fields := some "a \\ b".toList
        methods := some []
        roles := { equals := some "\n\n\"two\"\"".toList, setter := some "\"\"\"\n''\\".toList }
        custom := [⟨"\"is\"".toList, "''\n\\\"\"\"".toList⟩, ⟨"'".toList, "\uFEFF".toList⟩]
        defaultForMissingRoles := true }
    let u : Templates := { t with custom := t.custom ++ t.custom }
    (t.validate = .ok () ∧ ofConfigText t.toConfigText = .ok t) ∧
      u.validate ≠ .ok () ∧ ∃ fault, u.validate = .error (.invalidConfig fault) ∧
        ofConfigText u.toConfigText = .error (.invalidConfig fault) := by
  intro t u
  have ht : t.validate = .ok () := by decide
  have hu : u.validate ≠ .ok () := by decide
  exact ⟨⟨ht, (ofConfigText_toConfigText t).1 ht⟩, hu, (ofConfigText_toConfigText u).2 hu⟩

end Templates
end Javadoc
