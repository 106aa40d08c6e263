import Javadoc.Proofs.Sync.Entries

/-! Texts that changes leave alone. A change matches an encoded line exactly as the line reads when
both can be decoded, so a text without an entry for any of the changes comes back as it was. -/
namespace Javadoc

namespace Entry

/-- Whether a text has an entry that a change is about: one of its lines, or several that follow
each other where the name or the description takes several. -/
def HasEntry (change : FieldChange) (t : Text) : Prop :=
  ∃ ls, ls <:+: Text.splitLines t ∧ IsEntry change.field change.old (Text.joinLines ls)

private theorem IsEntry.not_mem {field description line : Text} (h : IsEntry field description line)
    (hf : '\n' ∉ field) (hd : '\n' ∉ description) : '\n' ∉ line := by
  obtain ⟨_, h₁, h₂, e, rfl, ⟨g₁, s, g₂, g₃, rfl, hg₁, hs, hg₂, hg₃, -⟩, hh₁, hh₂, he⟩ := h
  have hgap {g : Text} (hg : IsGaps g) : '\n' ∉ g := hg.not_mem (by decide)
  have hstar : '\n' ∉ s := by rcases hs with ⟨rfl, -⟩ | rfl <;> simp
  have hend : '\n' ∉ e := by rcases he with rfl | rfl <;> simp
  simp [hgap hg₁, hgap hg₂, hgap hg₃, hgap hh₁, hgap hh₂, hstar, hend, hf, hd]

/-- A change within one line is about single lines. -/
theorem hasEntry_iff_line {change : FieldChange} {t : Text} (hf : '\n' ∉ change.field)
    (hd : '\n' ∉ change.old) :
    HasEntry change t ↔ ∃ l ∈ Text.splitLines t, IsEntry change.field change.old l := by
  constructor
  · rintro ⟨ls, hin, h⟩
    match ls with
    | [] =>
      obtain ⟨_, _, _, _, hnil, ⟨_, _, _, _, rfl, -⟩, -⟩ := h
      simp [Text.joinLines, Text.joinWith] at hnil
    | [l] => exact ⟨l, hin.subset List.mem_cons_self, h⟩
    | l :: m :: ls =>
      have hnot := h.not_mem hf hd
      rw [Text.joinLines_cons_cons] at hnot
      exact absurd (by simp) hnot
  · rintro ⟨l, hl, h⟩
    obtain ⟨a, b, hab⟩ := List.append_of_mem hl
    exact ⟨[l], ⟨a, b, by simp [hab]⟩, h⟩

private theorem updateLines_map_encode {change : FieldChange} {more : Nat} {ls : List Text}
    (h : ∀ ms, ms <:+: ls → updateLine? change (encode (Text.joinLines ms)) = none) :
    updateLines change more (ls.map encode) = ls.map encode := by
  induction ls with
  | nil => rw [List.map_nil, updateLines]
  | cons l ls ih =>
    have hfirst :
        updateLine? change (Text.joinLines (encode l :: (ls.map encode).take more)) = none := by
      rw [← List.map_take, ← List.map_cons, joinLines_map_encode]
      exact h _ (List.IsPrefix.isInfix (List.cons_prefix_cons.2 ⟨rfl, List.take_prefix _ _⟩))
    rw [List.map_cons, updateLines, hfirst]
    exact congrArg _ (ih fun ms hms => h ms (hms.trans (List.suffix_cons l ls).isInfix))

private theorem updateOne_of_not_hasEntry {change : FieldChange} (hf : isDecodable change.field)
    (ho : isDecodable change.old) {t : Text} (ht : isDecodable t) (h : ¬ HasEntry change t) :
    updateOne (encode t) change = encode t := by
  have hlines (more : Nat) : updateLines change more ((Text.splitLines t).map encode) =
      (Text.splitLines t).map encode := by
    refine updateLines_map_encode fun ms hms => ?_
    rcases updateLine?_cases hf ho (isDecodable_of_isInfix ht (Text.joinLines_infix hms)) with
      ⟨hnone, -⟩ | ⟨lead, g₁, g₂, e, hline, hlead, h₁, h₂, he, -⟩
    · exact hnone
    · exact absurd ⟨ms, hms, lead, g₁, g₂, e, hline, hlead, h₁, h₂, he⟩ h
  rw [updateOne, splitLines_encode, hlines, joinLines_map_encode, Text.joinLines_splitLines]

/-- Decoding gives a text back from its code exactly if it finds nothing in it that it reads wrongly.
Changes leave such a text as it is if it has no entry for any of them. -/
theorem update_of_not_hasEntry (changes : List FieldChange) (t : Text) :
    (decode (encode t) = t ↔ isDecodable t) ∧
      (isDecodable t →
        (∀ c ∈ changes, isDecodable c.field ∧ isDecodable c.old ∧ ¬ HasEntry c t) →
        update changes t = t) := by
  refine ⟨decode_encode_iff, fun ht h => ?_⟩
  have hfold : changes.foldl updateOne (encode t) = encode t := by
    induction changes with
    | nil => rfl
    | cons c changes ih =>
      obtain ⟨hf, ho, hno⟩ := h c List.mem_cons_self
      rw [List.foldl_cons, updateOne_of_not_hasEntry hf ho ht hno]
      exact ih fun d hd => h d (List.mem_cons_of_mem c hd)
  rw [update, hfold, decode_encode_iff.2 ht]

/-- Letters of a token between braces or stars are no obstacle where the marks around them belong to
no other token. -/
theorem update_of_not_hasEntry_braces :
    let t := "/**\n * \x7bOCBR\x7d *STRX*: x\r\n * @param x: \x7b\x7dx\n */".toList
    let changes : List FieldChange := [⟨[], "x".toList, "\x7b\x7d".toList, "y".toList⟩,
      ⟨[], "STRX".toList, "x".toList, []⟩]
    isDecodable t ∧ (∀ c ∈ changes, isDecodable c.field ∧ isDecodable c.old ∧ ¬ HasEntry c t) ∧
      update changes t = t := by
  intro t changes
  have ht : isDecodable t := by decide
  have hc : ∀ c ∈ changes, isDecodable c.field ∧ isDecodable c.old ∧ ¬ HasEntry c t := by
    have hall : ∀ c ∈ changes, encode c.field = c.field ∧ isDecodable c.field ∧ isDecodable c.old ∧
        '\n' ∉ c.field ∧ '\n' ∉ c.old ∧
        ∀ l ∈ Text.splitLines t, (updateLine? c (encode l)).isSome = false := by decide
    intro c hc
    obtain ⟨hn, hf, ho, hfn, hon, hlines⟩ := hall c hc
    refine ⟨hf, ho, fun hentry => ?_⟩
    obtain ⟨l, hl, hentry⟩ := (hasEntry_iff_line hfn hon).1 hentry
    have hsome := (isSome_updateLine?_iff hn hf ho
      (isDecodable_of_isInfix ht (Text.infix_of_mem_splitLines hl))).2 hentry
    rw [hlines l hl] at hsome
    cases hsome
  exact ⟨ht, hc, (update_of_not_hasEntry changes t).2 ht hc⟩

end Entry
end Javadoc
