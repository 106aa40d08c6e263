import Javadoc.Java.Lexeme
import Javadoc.Proofs.Sync.Decoding

/-! What a line that is an entry looks like, and what it looks like after an update: the same line
with another description, which the next change recognises again. -/
namespace Javadoc

namespace Entry

def IsGaps (g : Text) : Prop := ∀ c ∈ g, Text.isGap c

def IsLead (star field lead : Text) : Prop :=
  ∃ g₁ s g₂ g₃, lead = g₁ ++ (s ++ (g₂ ++ ("@param".toList ++ (g₃ ++ (field ++ [':']))))) ∧
    IsGaps g₁ ∧ (s = [] ∧ g₂ = [] ∨ s = star) ∧ IsGaps g₂ ∧ IsGaps g₃ ∧ g₃ ≠ []

def IsEnding (e : Text) : Prop := e = [] ∨ e = ['\r']

/-- A line that is an entry for a field with the given description. -/
def IsEntry (field description line : Text) : Prop :=
  ∃ lead g₁ g₂ e, line = lead ++ (g₁ ++ (description ++ (g₂ ++ e))) ∧ IsLead ['*'] field lead ∧
    IsGaps g₁ ∧ IsGaps g₂ ∧ IsEnding e

private theorem mem_afterGaps {t r : Text} : r ∈ afterGaps t ↔ ∃ g, t = g ++ r ∧ IsGaps g := by
  induction t with
  | nil =>
    simp only [afterGaps, List.mem_singleton]
    constructor
    · rintro rfl
      exact ⟨[], rfl, by simp [IsGaps]⟩
    · rintro ⟨g, h, -⟩
      exact (List.append_eq_nil_iff.1 h.symm).2
  | cons c t ih =>
    have hself : ∃ g, c :: t = g ++ (c :: t) ∧ IsGaps g := ⟨[], rfl, by simp [IsGaps]⟩
    simp only [afterGaps]
    split
    · next hc =>
      rw [List.mem_append, ih, List.mem_singleton]
      constructor
      · rintro (⟨g, rfl, hg⟩ | rfl)
        · refine ⟨c :: g, rfl, fun d hd => ?_⟩
          rcases List.mem_cons.1 hd with rfl | hd
          · exact hc
          · exact hg d hd
        · exact hself
      · rintro ⟨g, h, hg⟩
        cases g with
        | nil => exact .inr h.symm
        | cons d g =>
          simp only [List.cons_append, List.cons.injEq] at h
          exact .inl ⟨g, h.2, fun e he => hg e (List.mem_cons_of_mem _ he)⟩
    · next hc =>
      rw [List.mem_singleton]
      constructor
      · rintro rfl
        exact hself
      · rintro ⟨g, h, hg⟩
        cases g with
        | nil => exact h.symm
        | cons d g =>
          simp only [List.cons_append, List.cons.injEq] at h
          exact absurd (hg d List.mem_cons_self) (h.1 ▸ hc)

private theorem mem_afterSomeGaps {t r : Text} :
    r ∈ afterSomeGaps t ↔ ∃ g, t = g ++ r ∧ IsGaps g ∧ g ≠ [] := by
  cases t with
  | nil => simp [afterSomeGaps]
  | cons c t =>
    simp only [afterSomeGaps]
    split
    · next hc =>
      rw [mem_afterGaps]
      constructor
      · rintro ⟨g, rfl, hg⟩
        refine ⟨c :: g, rfl, fun d hd => ?_, by simp⟩
        rcases List.mem_cons.1 hd with rfl | hd
        · exact hc
        · exact hg d hd
      · rintro ⟨g, h, hg, hne⟩
        obtain ⟨d, g, rfl⟩ := List.exists_cons_of_ne_nil hne
        simp only [List.cons_append, List.cons.injEq] at h
        exact ⟨g, h.2, fun e he => hg e (List.mem_cons_of_mem _ he)⟩
    · next hc =>
      refine iff_of_false (by simp) ?_
      rintro ⟨g, h, hg, hne⟩
      obtain ⟨d, g, rfl⟩ := List.exists_cons_of_ne_nil hne
      simp only [List.cons_append, List.cons.injEq] at h
      exact hc (h.1 ▸ hg d List.mem_cons_self)

private theorem mem_after {lead t r : Text} : r ∈ after lead t ↔ t = lead ++ r := by
  rw [after, Text.stripPrefix?]
  split
  · next h =>
    obtain ⟨u, rfl⟩ := List.isPrefixOf_iff_prefix.1 h
    simp [eq_comm]
  · next h =>
    refine iff_of_false (by simp) ?_
    rintro rfl
    exact h (List.isPrefixOf_iff_prefix.2 (List.prefix_append _ _))

private theorem mem_afterLead {field line rest : Text} :
    rest ∈ afterLead field line ↔ ∃ lead, line = lead ++ rest ∧ IsLead (encode ['*']) field lead := by
  simp only [afterLead, List.mem_flatMap, mem_afterGaps, mem_after, mem_afterSomeGaps,
    List.mem_append, List.mem_singleton]
  constructor
  · rintro ⟨_, ⟨g₁, rfl, h₁⟩, _, hs, _, rfl, _, ⟨g₃, rfl, h₃, hne⟩, rfl⟩
    rcases hs with ⟨_, rfl, g₂, rfl, h₂⟩ | rfl
    · exact ⟨_, by simp [List.append_assoc], g₁, _, g₂, g₃, rfl, h₁, .inr rfl, h₂, h₃, hne⟩
    · exact ⟨_, by simp [List.append_assoc], g₁, [], [], g₃, rfl, h₁, .inl ⟨rfl, rfl⟩,
        by simp [IsGaps], h₃, hne⟩
  · rintro ⟨_, rfl, g₁, s, g₂, g₃, rfl, h₁, hs, h₂, h₃, hne⟩
    refine ⟨_, ⟨g₁, List.append_assoc .., h₁⟩, "@param".toList ++ (g₃ ++ (field ++ ':' :: rest)),
      ?_, g₃ ++ (field ++ ':' :: rest), rfl, field ++ ':' :: rest, ⟨g₃, rfl, h₃, hne⟩,
      by simp [List.append_assoc]⟩
    rcases hs with ⟨rfl, rfl⟩ | rfl
    · exact .inr (by simp [List.append_assoc])
    · exact .inl ⟨_, List.append_assoc .., g₂, by simp [List.append_assoc], h₂⟩

private theorem ending?_eq_some {old t e : Text} (h : ending? old t = some e) :
    IsEnding e ∧ ∃ g₁ g₂, t = g₁ ++ (old ++ (g₂ ++ e)) ∧ IsGaps g₁ ∧ IsGaps g₂ := by
  have he := List.find?_some h
  have hm := List.mem_of_find?_eq_some h
  simp only [List.mem_flatMap, mem_afterGaps, mem_after] at hm
  obtain ⟨_, ⟨g₁, rfl, h₁⟩, _, rfl, g₂, rfl, h₂⟩ := hm
  exact ⟨by simpa [IsEnding] using he, g₁, g₂, rfl, h₁, h₂⟩

private theorem isSome_ending? {old g₁ g₂ e : Text} (he : IsEnding e) (h₁ : IsGaps g₁)
    (h₂ : IsGaps g₂) :
    (ending? old (g₁ ++ (old ++ (g₂ ++ e)))).isSome := by
  rw [ending?, List.find?_isSome]
  refine ⟨e, ?_, by simpa [IsEnding] using he⟩
  simp only [List.mem_flatMap, mem_afterGaps, mem_after]
  exact ⟨_, ⟨g₁, rfl, h₁⟩, _, rfl, g₂, rfl, h₂⟩

private theorem split?_eq_some {field old line lead e : Text}
    (h : split? field old line = some (lead, e)) :
    IsEnding e ∧ IsLead (encode ['*']) field lead ∧
      ∃ g₁ g₂, line = lead ++ (g₁ ++ (old ++ (g₂ ++ e))) ∧ IsGaps g₁ ∧ IsGaps g₂ := by
  obtain ⟨rest, hrest, hmap⟩ := List.exists_of_findSome?_eq_some h
  obtain ⟨_, hend, hle⟩ := Option.map_eq_some_iff.1 hmap
  simp only [Prod.mk.injEq] at hle
  obtain ⟨rfl, rfl⟩ := hle
  obtain ⟨lead, rfl, hl⟩ := mem_afterLead.1 hrest
  obtain ⟨he, g₁, g₂, rfl, h₁, h₂⟩ := ending?_eq_some hend
  rw [List.length_append, Nat.add_sub_cancel, List.take_left]
  exact ⟨he, hl, g₁, g₂, rfl, h₁, h₂⟩

private theorem isSome_split? {field old lead g₁ g₂ e : Text}
    (hl : IsLead (encode ['*']) field lead)
    (he : IsEnding e) (h₁ : IsGaps g₁) (h₂ : IsGaps g₂) :
    (split? field old (lead ++ (g₁ ++ (old ++ (g₂ ++ e))))).isSome := by
  rw [split?, List.findSome?_isSome_iff]
  refine ⟨_, mem_afterLead.2 ⟨lead, rfl, hl⟩, ?_⟩
  rw [Option.isSome_map]
  exact isSome_ending? he h₁ h₂

/-- A name as a program writes it, without the letters of tokens. -/
def IsName (f : Text) : Prop := isPlain f ∧ ∀ c ∈ f, Java.Lexeme.isWordPart c

def IsDescription (d : Text) : Prop := isPlain d ∧ '\n' ∉ d ∧ ¬ ['*', '/'] <:+: d

structure Sound (change : FieldChange) : Prop where
  name : IsName change.field
  old : IsDescription change.old
  new : IsDescription change.new

structure Readable (change : FieldChange) : Prop where
  name : IsName change.field
  old : isPlain change.old
  old_line : '\n' ∉ change.old
  new : isPlain change.new
  new_line : '\n' ∉ change.new

theorem Sound.readable {change : FieldChange} (h : Sound change) : Readable change :=
  ⟨h.name, h.old.1, h.old.2.1, h.new.1, h.new.2.1⟩

private theorem IsGaps.encode {g : Text} (h : IsGaps g) : Entry.encode g = g := by
  refine encode_of_not_mem fun e he hm => ?_
  have hall : markup.all fun e => !Text.isGap e.1 := by decide
  have := List.all_eq_true.1 hall e he
  simp [h _ hm] at this

theorem IsName.encode {f : Text} (h : IsName f) : Entry.encode f = f := by
  refine encode_of_not_mem fun e he hm => ?_
  have hall : markup.all fun e => !Java.Lexeme.isWordPart e.1 := by decide
  have := List.all_eq_true.1 hall e he
  simp [h.2 _ hm] at this

theorem IsName.not_mem {f : Text} (h : IsName f) {c : Char} (hc : Java.Lexeme.isWordPart c = false) :
    c ∉ f := fun hm => by simp [h.2 c hm] at hc

theorem IsGaps.not_mem {g : Text} (h : IsGaps g) {c : Char} (hc : Text.isGap c = false) :
    c ∉ g := fun hm => by simp [h c hm] at hc

private theorem IsEnding.encode {e : Text} (h : IsEnding e) : Entry.encode e = e := by
  rcases h with rfl | rfl
  · rfl
  · decide

theorem isPlain_append_cons {a b : Text} {c : Char} (hc : c.isUpper = false) (hm : c ≠ mark)
    (ha : isPlain a) (hb : isPlain b) : isPlain (a ++ c :: b) := by
  refine isPlain_iff.2 ⟨fun h => ?_, fun name hn h => ?_⟩
  · rw [List.mem_append, List.mem_cons] at h
    rcases h with h | h | h
    · exact not_mem_of_isPlain ha h
    · exact hm h.symm
    · exact not_mem_of_isPlain hb h
  · rcases Text.infix_append_cons_of_not_mem (not_mem_name hn hc) h with h | h
    · exact not_infix_of_isPlain ha hn h
    · exact not_infix_of_isPlain hb hn h

private theorem isLead_encode {field lead : Text} (hf : encode field = field)
    (h : IsLead ['*'] field lead) : IsLead (encode ['*']) field (encode lead) := by
  obtain ⟨g₁, s, g₂, g₃, rfl, h₁, hs, h₂, h₃, hne⟩ := h
  refine ⟨g₁, encode s, g₂, g₃, ?_, h₁, ?_, h₂, h₃, hne⟩
  · have hp : encode "@param".toList = "@param".toList := by decide
    have hc : encode [':'] = [':'] := by decide
    simp only [encode_append, h₁.encode, h₂.encode, h₃.encode, hf, hp, hc]
  · rcases hs with ⟨rfl, rfl⟩ | rfl
    · exact .inl ⟨rfl, rfl⟩
    · exact .inr rfl

private theorem exists_lead {field lead : Text} (hf : encode field = field)
    (h : IsLead (encode ['*']) field lead) : ∃ raw, IsLead ['*'] field raw ∧ lead = encode raw := by
  obtain ⟨g₁, s, g₂, g₃, rfl, h₁, hs, h₂, h₃, hne⟩ := h
  have hp : encode "@param".toList = "@param".toList := by decide
  have hc : encode [':'] = [':'] := by decide
  obtain ⟨r, hr, hs⟩ : ∃ r, s = encode r ∧ (r = [] ∧ g₂ = [] ∨ r = ['*']) := by
    rcases hs with ⟨rfl, hg⟩ | rfl
    · exact ⟨[], rfl, .inl ⟨rfl, hg⟩⟩
    · exact ⟨['*'], rfl, .inr rfl⟩
  refine ⟨_, ⟨g₁, r, g₂, g₃, rfl, h₁, hs, h₂, h₃, hne⟩, ?_⟩
  simp only [encode_append, h₁.encode, h₂.encode, h₃.encode, hf, hp, hc, hr]

private theorem IsGaps.isFree {g : Text} (h : IsGaps g) : ∀ c ∈ g, Entry.isFree c := by
  intro c hc
  rcases (by simpa [Text.isGap] using h c hc : c = ' ' ∨ c = '\t') with rfl | rfl <;> decide

/-- An entry can be decoded if its name and its description can. -/
theorem IsEntry.isDecodable {field description line : Text} (h : IsEntry field description line)
    (hf : isDecodable field) (hd : isDecodable description) : isDecodable line := by
  obtain ⟨_, h₁, h₂, e, rfl, ⟨g₁, s, g₂, g₃, rfl, hg₁, hs, hg₂, hg₃, -⟩, hh₁, hh₂, he⟩ := h
  have hsplit : g₁ ++ (s ++ (g₂ ++ ("@param".toList ++ (g₃ ++ (field ++ [':']))))) ++
      (h₁ ++ (description ++ (h₂ ++ e))) =
      g₁ ++ (s ++ g₂) ++ '@' :: ("param".toList ++ (g₃ ++ field) ++
        ':' :: (h₁ ++ (description ++ (h₂ ++ e)))) := by
    have hat : "@param".toList = '@' :: "param".toList := rfl
    simp [hat]
  have hend : ∀ c ∈ h₂ ++ e, isFree c := by
    intro c hc
    rcases List.mem_append.1 hc with hc | hc
    · exact hh₂.isFree c hc
    · rcases he with rfl | rfl
      · cases hc
      · exact List.mem_singleton.1 hc ▸ (by decide)
  have hstar : Entry.isDecodable s := by
    rcases hs with ⟨rfl, -⟩ | rfl <;> decide
  rw [hsplit]
  refine isDecodable_append_cons (by decide) ?_ (isDecodable_append_cons (by decide) ?_ ?_)
  · exact isDecodable_append_left hg₁.isFree (isDecodable_append_right hg₂.isFree hstar)
  · exact isDecodable_append_left (List.all_eq_true.1 (by decide))
      (isDecodable_append_left hg₃.isFree hf)
  · exact isDecodable_append_left hh₁.isFree (isDecodable_append_right hend hd)

def fieldOf (line : Text) : Text :=
  (((line.dropWhile (· != '@')).drop "@param".toList.length).dropWhile Text.isGap).takeWhile
    (· != ':')

theorem IsEntry.fieldOf_eq {field description line : Text} (h : IsEntry field description line)
    (hf : IsName field) : fieldOf line = field := by
  obtain ⟨-, h₁, h₂, e, rfl, ⟨g₁, s, g₂, g₃, rfl, hg₁, hs, hg₂, hg₃, -⟩, -⟩ := h
  have hgap {g : Text} (hg : IsGaps g) : ∀ c ∈ g, c != '@' := by
    intro c hc
    rw [bne_iff_ne]
    exact fun he => hg.not_mem (c := '@') (by decide) (he ▸ hc)
  have hstar : ∀ c ∈ s, c != '@' := by
    rcases hs with ⟨rfl, -⟩ | rfl <;> simp
  have hname : ∀ c ∈ field, c != ':' := by
    intro c hc
    rw [bne_iff_ne]
    exact fun he => hf.not_mem (c := ':') (by decide) (he ▸ hc)
  have hgap' {c : Char} (hc : Text.isGap c) : c ∉ field := by
    refine hf.not_mem ?_
    rcases (by simpa [Text.isGap] using hc : c = ' ' ∨ c = '\t') with rfl | rfl <;> decide
  have hdrop (rest : Text) :
      (field ++ ':' :: rest).dropWhile Text.isGap = field ++ ':' :: rest := by
    cases field with
    | nil => rfl
    | cons c cs =>
      rw [List.cons_append, List.dropWhile_cons_of_neg]
      exact fun hc => hgap' hc List.mem_cons_self
  rw [fieldOf]
  simp only [List.append_assoc, List.singleton_append]
  rw [List.dropWhile_append_of_pos (hgap hg₁), List.dropWhile_append_of_pos hstar,
    List.dropWhile_append_of_pos (hgap hg₂)]
  have hword (rest : Text) : (("@param".toList ++ rest).dropWhile (· != '@')).drop
      "@param".toList.length = rest := rfl
  rw [hword, List.dropWhile_append_of_pos hg₃, hdrop, List.takeWhile_append_of_pos hname]
  simp

/-- A line is an entry for one field. -/
theorem IsEntry.field_unique {f g d e line : Text} (h : IsEntry f d line) (h' : IsEntry g e line)
    (hf : IsName f) (hg : IsName g) : f = g :=
  (h.fieldOf_eq hf).symm.trans (h'.fieldOf_eq hg)

def written (description : Text) : Text :=
  if description.isEmpty then [] else ' ' :: description

/-- Among the lines that can be decoded, a change whose texts can be updates only entries; their lead
and their ending stay. An entry that is not updated has markup in its name. -/
theorem updateLine?_cases {change : FieldChange} (hf : isDecodable change.field)
    (ho : isDecodable change.old) {line : Text} (hl : isDecodable line) :
    (updateLine? change (encode line) = none ∧
        (encode change.field = change.field → ¬ IsEntry change.field change.old line)) ∨
      ∃ lead g₁ g₂ e, line = lead ++ (g₁ ++ (change.old ++ (g₂ ++ e))) ∧
        IsLead ['*'] change.field lead ∧ IsGaps g₁ ∧ IsGaps g₂ ∧ IsEnding e ∧
        updateLine? change (encode line) = some (encode (lead ++ (written change.new ++ e))) := by
  cases hs : split? change.field (encode change.old) (encode line) with
  | none =>
    refine .inl ⟨by rw [updateLine?, hs, Option.map_none], fun hname => ?_⟩
    rintro ⟨lead, g₁, g₂, e, rfl, hlead, h₁, h₂, he⟩
    simp only [encode_append, h₁.encode, h₂.encode, he.encode] at hs
    have hsome : (none : Option (Text × Text)).isSome :=
      hs ▸ isSome_split? (isLead_encode hname hlead) he h₁ h₂
    cases hsome
  | some parts =>
    obtain ⟨lead, e⟩ := parts
    obtain ⟨he, hlead, g₁, g₂, hline, h₁, h₂⟩ := split?_eq_some hs
    -- The name stands in the line, where nothing is left of the markup.
    have hname : encode change.field = change.field := by
      refine encode_of_not_mem fun f hm hin => not_mem_encodeWith (List.Subset.refl _) hm line ?_
      obtain ⟨_, _, _, _, rfl, -⟩ := hlead
      rw [← encode_eq, hline]
      simp [hin]
    obtain ⟨raw, hraw, rfl⟩ := exists_lead hname hlead
    have hentry : IsEntry change.field change.old (raw ++ (g₁ ++ (change.old ++ (g₂ ++ e)))) :=
      ⟨raw, g₁, g₂, e, rfl, hraw, h₁, h₂, he⟩
    have hcode : encode line = encode (raw ++ (g₁ ++ (change.old ++ (g₂ ++ e)))) := by
      rw [hline]
      simp only [encode_append, h₁.encode, h₂.encode, he.encode]
    refine .inr ⟨raw, g₁, g₂, e, ?_, hraw, h₁, h₂, he, ?_⟩
    · rw [← decode_encode_iff.2 hl, hcode, decode_encode_iff.2 (hentry.isDecodable hf ho)]
    · rw [updateLine?, hs, Option.map_some, encode_append, encode_append, he.encode, written]
      cases hn : change.new with
      | nil => simp [encode]
      | cons c d =>
        have : encode (' ' :: c :: d) = ' ' :: encode (c :: d) := rfl
        simp [this]

/-- A line is updated exactly if it is an entry. -/
theorem isSome_updateLine?_iff {change : FieldChange} (hn : encode change.field = change.field)
    (hf : isDecodable change.field) (ho : isDecodable change.old) {line : Text}
    (hl : isDecodable line) :
    (updateLine? change (encode line)).isSome ↔ IsEntry change.field change.old line := by
  rcases updateLine?_cases hf ho hl with ⟨hu, hno⟩ | ⟨lead, g₁, g₂, e, hline, hlead, h₁, h₂, he, hu⟩
  · simp [hu, hno hn]
  · simpa [hu] using ⟨lead, g₁, g₂, e, hline, hlead, h₁, h₂, he⟩

/-- An encoded line is updated exactly if the line is an entry; its lead and its ending stay. -/
theorem updateLine?_encode {change : FieldChange} (hc : Readable change) {line : Text}
    (hl : isPlain line) :
    (¬ IsEntry change.field change.old line ∧ updateLine? change (encode line) = none) ∨
      ∃ lead g₁ g₂ e, line = lead ++ (g₁ ++ (change.old ++ (g₂ ++ e))) ∧
        IsLead ['*'] change.field lead ∧ IsGaps g₁ ∧ IsGaps g₂ ∧ IsEnding e ∧
        updateLine? change (encode line) = some (encode (lead ++ (written change.new ++ e))) := by
  refine (updateLine?_cases (isDecodable_of_isPlain hc.name.1) (isDecodable_of_isPlain hc.old)
    (isDecodable_of_isPlain hl)).imp_left fun ⟨hu, hno⟩ => ⟨hno hc.name.encode, hu⟩

end Entry
end Javadoc
