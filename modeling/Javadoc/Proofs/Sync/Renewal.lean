import Javadoc.Proofs.Sync.Decoding
import Javadoc.Proofs.Sync.Entries

/-! Updating a text goes line by line: every line is renewed on its own, and a line that is no entry
stays as it is. -/
namespace Javadoc

namespace Entry

/-- The lead of an entry ends with its only colon. -/
theorem IsLead.exists_front {field lead : Text} (h : IsLead ['*'] field lead)
    (hf : IsName field) : ∃ c front, lead = c :: front ++ [':'] ∧
      ∀ d ∈ c :: front, Text.isGap d ∨ Java.Lexeme.isWordPart d ∨ d = '*' ∨ d = '@' := by
  obtain ⟨g₁, s, g₂, g₃, rfl, h₁, hs, h₂, h₃, -⟩ := h
  obtain ⟨c, front, hcf⟩ := List.exists_cons_of_ne_nil
    (l := g₁ ++ (s ++ (g₂ ++ ("@param".toList ++ (g₃ ++ field))))) (by simp)
  refine ⟨c, front, by rw [← hcf]; simp only [List.append_assoc], fun d hd => ?_⟩
  have hstar : d ∈ s → d = '*' := by
    rcases hs with ⟨rfl, -⟩ | rfl <;> simp
  have hword : d ∈ "@param".toList → Java.Lexeme.isWordPart d ∨ d = '@' := by
    have hall : "@param".toList.all fun d => Java.Lexeme.isWordPart d || d == '@' := by decide
    simpa using List.all_eq_true.1 hall d
  rw [← hcf] at hd
  simp only [List.mem_append] at hd
  rcases hd with hd | hd | hd | hd | hd | hd
  · exact .inl (h₁ d hd)
  · exact .inr (.inr (.inl (hstar hd)))
  · exact .inl (h₂ d hd)
  · exact .inr ((hword hd).imp_right .inr)
  · exact .inl (h₃ d hd)
  · exact .inr (.inl (hf.2 d hd))

/-- A line has at most one lead. -/
theorem IsLead.append_inj {field lead lead' rest rest' : Text} (h : IsLead ['*'] field lead)
    (h' : IsLead ['*'] field lead') (hf : IsName field) (he : lead ++ rest = lead' ++ rest') :
    lead = lead' ∧ rest = rest' := by
  have htake {lead : Text} (h : IsLead ['*'] field lead) (rest : Text) :
      (lead ++ rest).takeWhile (· != ':') ++ [':'] = lead := by
    obtain ⟨c, front, rfl, hall⟩ := h.exists_front hf
    have hfront : ∀ d ∈ c :: front, d != ':' := fun d hd =>
      bne_iff_ne.2 fun hd' => absurd (hall d hd) (by rw [hd']; decide)
    rw [List.append_assoc, List.takeWhile_append_of_pos hfront]
    simp
  have hlead : lead = lead' := by rw [← htake h rest, he, htake h' rest']
  exact ⟨hlead, List.append_cancel_left (hlead ▸ he)⟩

/-- An entry does not start with a slash, so that no comment starts where the line does. -/
theorem IsEntry.exists_cons {field description line : Text} (h : IsEntry field description line)
    (hf : IsName field) : ∃ c rest, line = c :: rest ∧ c ≠ '/' := by
  obtain ⟨lead, g₁, g₂, e, rfl, hl, -⟩ := h
  obtain ⟨c, front, rfl, hall⟩ := hl.exists_front hf
  exact ⟨c, _, rfl, fun hc => absurd (hall c List.mem_cons_self) (by rw [hc]; decide)⟩

/-- No comment ends in an entry. -/
theorem IsEntry.not_close {field description line : Text} (h : IsEntry field description line)
    (hf : IsName field) (hd : IsDescription description) : ¬ ['*', '/'] <:+: line := by
  obtain ⟨lead, g₁, g₂, e, rfl, hl, h₁, h₂, he⟩ := h
  obtain ⟨c, front, rfl, hall⟩ := hl.exists_front hf
  have hslash : '/' ∉ c :: front := fun h => absurd (hall _ h) (by decide)
  have hpat : (['*', '/'] : Text) ≠ [] := by simp
  have hgap {g : Text} (hg : IsGaps g) : ∀ c ∈ g, c ∉ ['*', '/'] := by
    intro c hc hm
    have := hg c hc
    simp only [List.mem_cons, List.not_mem_nil, or_false] at hm
    rcases hm with rfl | rfl <;> cases this
  have hend : ∀ c ∈ e, c ∉ ['*', '/'] := by
    rcases he with rfl | rfl <;> simp
  intro hin
  rw [List.append_assoc] at hin
  rcases Text.infix_append_cons_of_not_mem (c := ':') (by simp) hin with hin | hin
  · exact hslash (hin.subset (by simp))
  · have hin := Text.infix_of_append_left hpat (hgap h₁) hin
    rw [← List.append_assoc] at hin
    exact hd.2.2 (Text.infix_of_append_right hpat (hgap h₂)
      (Text.infix_of_append_right hpat hend hin))

/-- An updated entry is an entry with the new description. -/
theorem isEntry_written {field lead description e : Text} (hl : IsLead ['*'] field lead)
    (he : IsEnding e) : IsEntry field description (lead ++ (written description ++ e)) := by
  rw [written]
  split
  · next h =>
    rw [List.isEmpty_iff.1 h]
    exact ⟨lead, [], [], e, rfl, hl, by simp [IsGaps], by simp [IsGaps], he⟩
  · exact ⟨lead, [' '], [], e, rfl, hl, by simp [IsGaps, Text.isGap], by simp [IsGaps], he⟩

theorem isPlain_written {field lead description e : Text} (hl : IsLead ['*'] field lead)
    (hf : IsName field) (he : IsEnding e) (hp : isPlain lead) (hd : isPlain description) :
    isPlain (lead ++ (written description ++ e)) := by
  obtain ⟨c, front, rfl, -⟩ := hl.exists_front hf
  rw [List.append_assoc]
  refine isPlain_append_cons (by decide) (by decide)
    (isPlain_of_isInfix hp (List.prefix_append _ _).isInfix) ?_
  have hend : isPlain (description ++ e) := by
    rcases he with rfl | rfl
    · rwa [List.append_nil]
    · exact isPlain_append_cons (by decide) (by decide) hd (by decide)
  change isPlain (written description ++ e)
  rw [written]
  split
  · next h => rwa [List.isEmpty_iff.1 h] at hend
  · exact isPlain_append_cons (a := []) (by decide) (by decide) (by decide) hend

def renewLine (change : FieldChange) (line : Text) : Text :=
  decode ((updateLine? change (encode line)).getD (encode line))

theorem renewLine_spec {change : FieldChange} (hc : Readable change) {line : Text}
    (hl : isPlain line) (hn : '\n' ∉ line) :
    isPlain (renewLine change line) ∧ '\n' ∉ renewLine change line ∧
      (updateLine? change (encode line)).getD (encode line) = encode (renewLine change line) ∧
      ((¬ IsEntry change.field change.old line ∧ renewLine change line = line) ∨
        (IsEntry change.field change.old line ∧
          IsEntry change.field change.new (renewLine change line))) := by
  rcases updateLine?_encode hc hl with ⟨hne, hu⟩ | ⟨lead, g₁, g₂, e, rfl, hlead, h₁, h₂, he, hu⟩
  · have hr : renewLine change line = line := by
      rw [renewLine, hu, Option.getD_none, decode_encode hl]
    rw [hr, hu]
    exact ⟨hl, hn, rfl, .inl ⟨hne, rfl⟩⟩
  · have hplain : isPlain (lead ++ (written change.new ++ e)) :=
      isPlain_written hlead hc.name he (isPlain_of_isInfix hl (List.prefix_append _ _).isInfix) hc.new
    have hnl : '\n' ∉ lead ++ (written change.new ++ e) := by
      simp only [List.mem_append, not_or] at hn ⊢
      refine ⟨hn.1, ?_, hn.2.2.2.2⟩
      rw [written]
      split
      · simp
      · simpa using hc.new_line
    have hr : renewLine change (lead ++ (g₁ ++ (change.old ++ (g₂ ++ e)))) =
        lead ++ (written change.new ++ e) := by
      rw [renewLine, hu, Option.getD_some, decode_encode hplain]
    rw [hr, hu]
    exact ⟨hplain, hnl, rfl, .inr ⟨⟨lead, g₁, g₂, e, rfl, hlead, h₁, h₂, he⟩,
      isEntry_written hlead he⟩⟩

/-- A line that is no entry is left alone. -/
theorem renewLine_of_not_isEntry {change : FieldChange} (hc : Readable change) {line : Text}
    (hl : isPlain line) (h : ¬ IsEntry change.field change.old line) :
    renewLine change line = line := by
  rcases updateLine?_encode hc hl with ⟨-, hu⟩ | ⟨lead, g₁, g₂, e, hline, hlead, h₁, h₂, he, -⟩
  · rw [renewLine, hu, Option.getD_none, decode_encode hl]
  · exact absurd ⟨lead, g₁, g₂, e, hline, hlead, h₁, h₂, he⟩ h

private theorem IsEnding.append_inj {t u e e' : Text} (he : IsEnding e) (he' : IsEnding e')
    (ht : t.getLast? ≠ some '\r') (hu : u.getLast? ≠ some '\r') (h : t ++ e = u ++ e') : e = e' := by
  rcases he with rfl | rfl <;> rcases he' with rfl | rfl
  · rfl
  · exact absurd (by simpa using congrArg List.getLast? h) ht
  · exact absurd (by simpa using (congrArg List.getLast? h).symm) hu
  · rfl

private theorem getLast?_described {description g₁ g₂ : Text} (h : description.getLast? ≠ some '\r')
    (h₁ : IsGaps g₁) (h₂ : IsGaps g₂) : (g₁ ++ (description ++ g₂)).getLast? ≠ some '\r' := by
  have hreturn {g : Text} (hg : IsGaps g) : g.getLast? ≠ some '\r' := fun hlast =>
    hg.not_mem (by decide) (List.mem_of_mem_getLast? hlast)
  intro hlast
  simp only [List.getLast?_append, Option.or_eq_some_iff] at hlast
  rcases hlast with (hlast | ⟨-, hlast⟩) | ⟨-, hlast⟩
  · exact hreturn h₂ hlast
  · exact h hlast
  · exact hreturn h₁ hlast

/-- There is one way to read an entry, as descriptions do not end with a carriage return: what
stands behind its colon gives way to the new description, and its ending stays. -/
theorem renewLine_eq {change : FieldChange} (hc : Readable change)
    (hlast : change.old.getLast? ≠ some '\r') {lead g₁ g₂ e : Text}
    (hl : IsLead ['*'] change.field lead) (h₁ : IsGaps g₁) (h₂ : IsGaps g₂) (he : IsEnding e)
    (hp : isPlain (lead ++ (g₁ ++ (change.old ++ (g₂ ++ e))))) :
    renewLine change (lead ++ (g₁ ++ (change.old ++ (g₂ ++ e)))) =
      lead ++ (written change.new ++ e) := by
  rcases updateLine?_encode hc hp with ⟨hno, -⟩ | ⟨lead', g₁', g₂', e', hline, hl', h₁', h₂', he', hu⟩
  · exact absurd ⟨lead, g₁, g₂, e, rfl, hl, h₁, h₂, he⟩ hno
  · obtain ⟨rfl, hrest⟩ := hl.append_inj hl' hc.name hline
    obtain rfl : e = e' := by
      refine he.append_inj he' (getLast?_described hlast h₁ h₂) (getLast?_described hlast h₁' h₂') ?_
      simpa only [List.append_assoc] using hrest
    have hlead : isPlain lead := isPlain_of_isInfix hp (List.prefix_append _ _).isInfix
    rw [renewLine, hu, Option.getD_some, decode_encode (isPlain_written hl hc.name he hlead hc.new)]

def renew (changes : List FieldChange) (line : Text) : Text :=
  changes.foldl (fun line change => renewLine change line) line

/-- A line stays a line without the letters of tokens. -/
theorem renew_keeps {changes : List FieldChange} (hc : ∀ c ∈ changes, Readable c) {line : Text}
    (hl : isPlain line) (hn : '\n' ∉ line) :
    isPlain (renew changes line) ∧ '\n' ∉ renew changes line := by
  induction changes generalizing line with
  | nil => exact ⟨hl, hn⟩
  | cons c changes ih =>
    obtain ⟨hl', hn', -, -⟩ := renewLine_spec (hc c List.mem_cons_self) hl hn
    exact ih (fun d hd => hc d (List.mem_cons_of_mem _ hd)) hl' hn'

theorem renew_cases {changes : List FieldChange} (hc : ∀ c ∈ changes, Sound c) {line : Text}
    (hl : isPlain line) (hn : '\n' ∉ line) :
    renew changes line = line ∨
      (∃ c ∈ changes, IsEntry c.field c.old line) ∧ ¬ ['*', '/'] <:+: renew changes line := by
  induction changes generalizing line with
  | nil => exact .inl rfl
  | cons c changes ih =>
    have hs := hc c List.mem_cons_self
    obtain ⟨hl', hn', -, he⟩ := renewLine_spec hs.readable hl hn
    have ih := ih (fun d hd => hc d (List.mem_cons_of_mem _ hd)) hl' hn'
    rw [renew, List.foldl_cons, ← renew]
    rcases he with ⟨-, he⟩ | ⟨hold, hnew⟩
    · rw [he] at ih ⊢
      exact ih.imp_right fun ⟨⟨d, hd, h⟩, hno⟩ => ⟨⟨d, List.mem_cons_of_mem _ hd, h⟩, hno⟩
    · refine .inr ⟨⟨c, List.mem_cons_self, hold⟩, ?_⟩
      rcases ih with heq | ⟨-, hno⟩
      · rw [heq]
        exact hnew.not_close hs.name hs.new
      · exact hno

section

variable {changes : List FieldChange} (hc : ∀ c ∈ changes, Readable c) {line : Text}
  (hl : isPlain line)
include hc hl

theorem renew_of_not_isEntry (h : ∀ c ∈ changes, ¬ IsEntry c.field c.old line) :
    renew changes line = line := by
  induction changes with
  | nil => rfl
  | cons c changes ih =>
    rw [renew, List.foldl_cons, renewLine_of_not_isEntry (hc c List.mem_cons_self) hl
      (h c List.mem_cons_self), ← renew]
    exact ih (fun d hd => hc d (List.mem_cons_of_mem c hd)) fun d hd =>
      h d (List.mem_cons_of_mem c hd)

/-- Of changes of different fields, the one that a line is an entry for rewrites it alone: the line
stays an entry for its field, so none of the others is about it before or after. -/
theorem renew_eq_renewLine (hd : changes.Pairwise fun c d => c.field ≠ d.field) (hn : '\n' ∉ line)
    {c : FieldChange} (hm : c ∈ changes) (h : IsEntry c.field c.old line) :
    renew changes line = renewLine c line := by
  induction changes with
  | nil => cases hm
  | cons d changes ih =>
    obtain ⟨hd, hdistinct⟩ := List.pairwise_cons.1 hd
    have hs := hc d List.mem_cons_self
    have hc' := fun c hm => hc c (List.mem_cons_of_mem d hm)
    rw [renew, List.foldl_cons, ← renew]
    rcases List.mem_cons.1 hm with rfl | hm
    · obtain ⟨hl', -, -, hcases⟩ := renewLine_spec hs hl hn
      obtain ⟨hno, -⟩ | ⟨-, hnew⟩ := hcases
      · exact absurd h hno
      · exact renew_of_not_isEntry hc' hl' fun e he hentry =>
          hd e he (hnew.field_unique hentry hs.name (hc' e he).name)
    · have hno : ¬ IsEntry d.field d.old line := fun hentry =>
        hd c hm (hentry.field_unique h hs.name (hc' c hm).name)
      rw [renewLine_of_not_isEntry hs hl hno]
      exact ih hc' hdistinct hm

end

def renewText (changes : List FieldChange) (t : Text) : Text :=
  Text.joinLines ((Text.splitLines t).map (renew changes))

@[simp] theorem renewText_nil (t : Text) : renewText [] t = t := by
  have hid : renew [] = id := rfl
  rw [renewText, hid, List.map_id, Text.joinLines_splitLines]

private theorem updateLines_zero (change : FieldChange) (ls : List Text) :
    updateLines change 0 ls = ls.map fun l => (updateLine? change l).getD l := by
  induction ls with
  | nil => rw [updateLines]; rfl
  | cons l ls ih =>
    have hj : Text.joinLines (l :: ls.take 0) = l := rfl
    rw [updateLines, hj, List.map_cons]
    cases h : updateLine? change l with
    | none => simp [ih]
    | some entry => simp [ih]

theorem isPlain_joinLines {ls : List Text} (h : ∀ l ∈ ls, isPlain l) :
    isPlain (Text.joinLines ls) := by
  induction ls with
  | nil => decide
  | cons l ls ih =>
    cases ls with
    | nil => exact h l List.mem_cons_self
    | cons m ms =>
      rw [Text.joinLines_cons_cons]
      exact isPlain_append_cons (by decide) (by decide) (h l List.mem_cons_self)
        (ih fun n hn => h n (List.mem_cons_of_mem _ hn))

private theorem updateOne_encode {change : FieldChange} (hc : Readable change) {t : Text}
    (ht : isPlain t) :
    updateOne (encode t) change =
      encode (Text.joinLines ((Text.splitLines t).map (renewLine change))) := by
  have hcount : (change.field ++ change.old).count '\n' = 0 := by
    rw [List.count_eq_zero, List.mem_append, not_or]
    exact ⟨hc.name.not_mem (by decide), hc.old_line⟩
  rw [updateOne, hcount, updateLines_zero, splitLines_encode, List.map_map,
    ← joinLines_map_encode, List.map_map]
  congr 1
  refine List.map_congr_left fun l hl => ?_
  exact (renewLine_spec hc (isPlain_of_isInfix ht (Text.infix_of_mem_splitLines hl))
    (Text.not_mem_of_mem_splitLines hl)).2.2.1

/-- Renewing a line leaves it one line. -/
theorem splitLines_renewed {change : FieldChange} (hc : Readable change) {t : Text}
    (ht : isPlain t) :
    Text.splitLines (Text.joinLines ((Text.splitLines t).map (renewLine change))) =
      (Text.splitLines t).map (renewLine change) := by
  refine Text.splitLines_joinLines (fun l hl => ?_) (by simpa using Text.splitLines_ne_nil t)
  obtain ⟨m, hm, rfl⟩ := List.mem_map.1 hl
  exact (renewLine_spec hc (isPlain_of_isInfix ht (Text.infix_of_mem_splitLines hm))
    (Text.not_mem_of_mem_splitLines hm)).2.1

/-- Updating a text renews its lines. -/
theorem update_eq_renewText {changes : List FieldChange} (hc : ∀ c ∈ changes, Readable c) {t : Text}
    (ht : isPlain t) : update changes t = renewText changes t := by
  have hfold : ∀ {changes : List FieldChange} {t : Text}, (∀ c ∈ changes, Readable c) → isPlain t →
      changes.foldl updateOne (encode t) = encode (renewText changes t) ∧
        isPlain (renewText changes t) := by
    intro changes
    induction changes with
    | nil =>
      intro t _ ht
      rw [renewText_nil]
      exact ⟨rfl, ht⟩
    | cons c changes ih =>
      intro t hc ht
      have hs := hc c List.mem_cons_self
      have hplain : isPlain (Text.joinLines ((Text.splitLines t).map (renewLine c))) := by
        refine isPlain_joinLines fun l hl => ?_
        obtain ⟨m, hm, rfl⟩ := List.mem_map.1 hl
        exact (renewLine_spec hs (isPlain_of_isInfix ht (Text.infix_of_mem_splitLines hm))
          (Text.not_mem_of_mem_splitLines hm)).1
      have hr : renewText (c :: changes) t =
          renewText changes (Text.joinLines ((Text.splitLines t).map (renewLine c))) := by
        rw [renewText, renewText, splitLines_renewed hs ht, List.map_map]
        rfl
      rw [List.foldl_cons, updateOne_encode hs ht, hr]
      exact ih (fun d hd => hc d (List.mem_cons_of_mem _ hd)) hplain
  obtain ⟨hf, hplain⟩ := hfold hc ht
  rw [update, hf, decode_encode hplain]

end Entry
end Javadoc
