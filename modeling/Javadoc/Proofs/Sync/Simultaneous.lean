import Javadoc.Proofs.Sync.Renewal
import Mathlib.Data.List.Forall2
import Mathlib.Data.List.Nodup

/-! Changes of the descriptions of different fields act on a text at once: each line is looked at on
its own and is an entry for one field at most, so that the order of the changes is of no matter. -/
namespace Javadoc.Entry

/-- Changes of the descriptions of fields, as comments can hold them. -/
structure Compatible (changes : List FieldChange) : Prop where
  readable : ∀ c ∈ changes, Readable c
  trimmed : ∀ c ∈ changes, Text.trim c.old = c.old
  distinct : changes.Pairwise fun c d => c.field ≠ d.field

/-- What a change makes of a line that is an entry for it: behind the colon a space and the new
description, if there is one, and what ended the line. -/
def Rewrites (change : FieldChange) (line line' : Text) : Prop :=
  ∃ lead g₁ g₂ e, line = lead ++ (g₁ ++ (change.old ++ (g₂ ++ e))) ∧
    IsLead ['*'] change.field lead ∧ IsGaps g₁ ∧ IsGaps g₂ ∧ IsEnding e ∧
    line' = lead ++ (written change.new ++ e)

private theorem exists_rewrites_iff {change : FieldChange} {line : Text} :
    (∃ line', Rewrites change line line') ↔ IsEntry change.field change.old line := by
  constructor
  · rintro ⟨line', lead, g₁, g₂, e, hline, hl, h₁, h₂, he, -⟩
    exact ⟨lead, g₁, g₂, e, hline, hl, h₁, h₂, he⟩
  · rintro ⟨lead, g₁, g₂, e, hline, hl, h₁, h₂, he⟩
    exact ⟨_, lead, g₁, g₂, e, hline, hl, h₁, h₂, he, rfl⟩

private theorem Rewrites.isEntry {change : FieldChange} {line line' : Text}
    (h : Rewrites change line line') : IsEntry change.field change.new line' := by
  obtain ⟨lead, g₁, g₂, e, -, hl, -, -, he, rfl⟩ := h
  exact isEntry_written hl he

namespace Compatible

section

variable {changes : List FieldChange} (h : Compatible changes)
include h

private theorem of_perm {changes' : List FieldChange} (hp : changes'.Perm changes) :
    Compatible changes' where
  readable := fun c hm => h.readable c (hp.subset hm)
  trimmed := fun c hm => h.trimmed c (hp.subset hm)
  distinct := (hp.pairwise_iff fun hne => hne.symm).2 h.distinct

private theorem eq_of_field_eq {c d : FieldChange} (hc : c ∈ changes) (hd : d ∈ changes)
    (hfield : c.field = d.field) : c = d := by
  have hnodup : (changes.map FieldChange.field).Nodup := List.pairwise_map.2 h.distinct
  exact List.inj_on_of_nodup_map hnodup hc hd hfield

variable {c d : FieldChange} (hc : c ∈ changes) (hd : d ∈ changes) {line line' : Text}
include hc hd

/-- At most one change is about a line. -/
theorem eq_of_isEntry (hline : IsEntry c.field c.old line) (hline' : IsEntry d.field d.old line) :
    c = d :=
  h.eq_of_field_eq hc hd (hline.field_unique hline' (h.readable c hc).name (h.readable d hd).name)

/-- What one change has written, another one leaves alone. -/
theorem not_isEntry_rewritten (hne : d ≠ c) (hr : Rewrites c line line') :
    ¬ IsEntry d.field d.old line' := fun hentry =>
  hne (h.eq_of_field_eq hd hc
    (hentry.field_unique hr.isEntry (h.readable d hd).name (h.readable c hc).name))

omit hd

private theorem renewLine_of_rewrites (hl : isPlain line) (hr : Rewrites c line line') :
    renewLine c line = line' := by
  obtain ⟨lead, g₁, g₂, e, rfl, hlead, h₁, h₂, he, rfl⟩ := hr
  have hlast : c.old.getLast? ≠ some '\r' := by
    intro hlast
    have hblank := Text.getLast?_dropEndWhile Text.isBlank (Text.trimStart c.old) '\r'
    rw [← Text.trimEnd, ← Text.trim, h.trimmed c hc] at hblank
    exact absurd (hblank hlast) (by decide)
  exact renewLine_eq (h.readable c hc) hlast hlead h₁ h₂ he hl

end

variable {changes : List FieldChange} (h : Compatible changes) {line : Text} (hl : isPlain line)
  (hn : '\n' ∉ line)
include h hl hn

/-- A line becomes what the change that it is an entry for makes of it, and stays if there is no
such change. -/
theorem renew_spec :
    (∀ c ∈ changes, ∀ line', Rewrites c line line' → renew changes line = line') ∧
      ((∀ c ∈ changes, ¬ IsEntry c.field c.old line) → renew changes line = line) := by
  refine ⟨fun c hc line' hr => ?_, renew_of_not_isEntry h.readable hl⟩
  have hentry : IsEntry c.field c.old line := exists_rewrites_iff.1 ⟨line', hr⟩
  rw [renew_eq_renewLine h.readable hl h.distinct hn hc hentry]
  exact h.renewLine_of_rewrites hc hl hr

private theorem renew_perm {changes' : List FieldChange} (hp : changes'.Perm changes) :
    renew changes' line = renew changes line := by
  by_cases hentry : ∃ c ∈ changes, IsEntry c.field c.old line
  · obtain ⟨c, hc, hentry⟩ := hentry
    rw [renew_eq_renewLine h.readable hl h.distinct hn hc hentry,
      renew_eq_renewLine (h.of_perm hp).readable hl (h.of_perm hp).distinct hn (hp.mem_iff.2 hc)
        hentry]
  · have hno : ∀ c ∈ changes, ¬ IsEntry c.field c.old line := fun c hc he => hentry ⟨c, hc, he⟩
    rw [renew_of_not_isEntry h.readable hl hno,
      renew_of_not_isEntry (h.of_perm hp).readable hl fun c hc => hno c (hp.subset hc)]

end Compatible

private theorem splitLines_update {changes : List FieldChange} (h : ∀ c ∈ changes, Readable c)
    {t : Text}
    (ht : isPlain t) :
    Text.splitLines (update changes t) = (Text.splitLines t).map (renew changes) := by
  rw [update_eq_renewText h ht, renewText]
  refine Text.splitLines_joinLines (fun line' hm => ?_) (by simpa using Text.splitLines_ne_nil t)
  obtain ⟨line, hline, rfl⟩ := List.mem_map.1 hm
  exact (renew_keeps h (isPlain_of_isInfix ht (Text.infix_of_mem_splitLines hline))
    (Text.not_mem_of_mem_splitLines hline)).2

/-- Changes of different fields rewrite a text line by line, all at once. A line that is an entry for
one of them becomes what that one makes of it, and every other line stays. No line is an entry for
two of them, none that was rewritten is an entry for another one, and their order is of no matter. -/
theorem update_simultaneous {changes : List FieldChange} (h : Compatible changes) {t : Text}
    (ht : isPlain t) :
    List.Forall₂ (fun line line' =>
        (∀ c ∈ changes, ∀ l, Rewrites c line l → line' = l) ∧
        ((∀ c ∈ changes, ¬ IsEntry c.field c.old line) → line' = line))
      (Text.splitLines t) (Text.splitLines (update changes t)) ∧
    (∀ c ∈ changes, ∀ line, (∃ l, Rewrites c line l) ↔ IsEntry c.field c.old line) ∧
    (∀ c ∈ changes, ∀ d ∈ changes, ∀ line, IsEntry c.field c.old line →
      IsEntry d.field d.old line → c = d) ∧
    (∀ c ∈ changes, ∀ d ∈ changes, ∀ line line', Rewrites c line line' → d ≠ c →
      ¬ IsEntry d.field d.old line') ∧
    ∀ changes' : List FieldChange, changes'.Perm changes → update changes' t = update changes t := by
  have hline {line : Text} (hm : line ∈ Text.splitLines t) : isPlain line ∧ '\n' ∉ line :=
    ⟨isPlain_of_isInfix ht (Text.infix_of_mem_splitLines hm), Text.not_mem_of_mem_splitLines hm⟩
  refine ⟨?_, fun c _ line => exists_rewrites_iff, fun c hc d hd line => h.eq_of_isEntry hc hd,
    fun c hc d hd line line' hr hne => h.not_isEntry_rewritten hc hd hne hr, fun changes' hp => ?_⟩
  · rw [splitLines_update h.readable ht, List.forall₂_map_right_iff, List.forall₂_same]
    intro line hm
    obtain ⟨hrewritten, hkept⟩ := h.renew_spec (hline hm).1 (hline hm).2
    exact ⟨fun c hc l hr => hrewritten c hc l hr, hkept⟩
  · rw [update_eq_renewText h.readable ht, update_eq_renewText (h.of_perm hp).readable ht,
      renewText, renewText]
    congr 1
    exact List.map_congr_left fun line hm => h.renew_perm (hline hm).1 (hline hm).2 hp

def exchanged : List FieldChange :=
  [⟨[], ['a'], ['x'], ['y']⟩, ⟨[], ['b'], ['y'], ['x']⟩, ⟨[], ['c'], "\x7b*\x7d".toList, []⟩]

def exchangedEntries : Text :=
  "/**\r\n * @param a:\tx\r\n*@param b: y \n@param c: \x7b*\x7d\n * @param a: y\n*/".toList

/-- Neither the new description of `a` nor that of `b` is taken for the old one of the other. -/
theorem update_simultaneous_exchanged : Compatible exchanged ∧ isPlain exchangedEntries ∧
    ∀ changes : List FieldChange, changes.Perm exchanged → update changes exchangedEntries =
      "/**\r\n * @param a: y\r\n*@param b: x\n@param c:\n * @param a: y\n*/".toList := by
  have hreadable : ∀ c ∈ exchanged, isPlain c.field ∧ c.field.all Java.Lexeme.isWordPart ∧
      isPlain c.old ∧ '\n' ∉ c.old ∧ isPlain c.new ∧ '\n' ∉ c.new := by
    decide +kernel
  have hc : Compatible exchanged := by
    refine ⟨fun c hm => ?_, by decide, by decide⟩
    obtain ⟨hplain, hword, hold, hline, hnew, hline'⟩ := hreadable c hm
    exact ⟨⟨hplain, List.all_eq_true.1 hword⟩, hold, hline, hnew, hline'⟩
  have ht : isPlain exchangedEntries := by decide +kernel
  have hevaluated : update exchanged exchangedEntries =
      "/**\r\n * @param a: y\r\n*@param b: x\n@param c:\n * @param a: y\n*/".toList := by
    decide +kernel
  obtain ⟨-, -, -, -, horder⟩ := update_simultaneous hc ht
  exact ⟨hc, ht, fun changes hp => (horder changes hp).trans hevaluated⟩

end Javadoc.Entry
