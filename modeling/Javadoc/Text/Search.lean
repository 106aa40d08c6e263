import Javadoc.Text.Basic

/-! Finding and replacing a pattern in a text. An occurrence is given by the text before it and
the text after it, so that no index is needed. -/
namespace Javadoc.Text

def breakOn? (pat : Text) : Text → Option (Text × Text)
  | [] => if pat.isEmpty then some ([], []) else none
  | c :: cs =>
    if pat.isPrefixOf (c :: cs) then some ([], (c :: cs).drop pat.length)
    else (breakOn? pat cs).map fun (before, after) => (c :: before, after)

def breakOnLast? (pat : Text) : Text → Option (Text × Text)
  | [] => if pat.isEmpty then some ([], []) else none
  | c :: cs =>
    match breakOnLast? pat cs with
    | some (before, after) => some (c :: before, after)
    | none =>
      if pat.isPrefixOf (c :: cs) then some ([], (c :: cs).drop pat.length) else none

def includes (pat t : Text) : Bool := (breakOn? pat t).isSome

/-- Replaces the occurrences of `pat` that start after the first `skip` characters, which are
dropped: they belong to the occurrence just replaced. -/
def replaceFrom (pat value : Text) : Nat → Text → Text
  | _, [] => []
  | skip + 1, _ :: cs => replaceFrom pat value skip cs
  | 0, c :: cs =>
    if pat.isPrefixOf (c :: cs) then value ++ replaceFrom pat value (pat.length - 1) cs
    else c :: replaceFrom pat value 0 cs

/-- Replaces every occurrence of the non-empty `pat` by `value`, from left to right. Occurrences
do not overlap, and a value is not searched again. -/
def replaceAll (pat value t : Text) : Text := replaceFrom pat value 0 t

def splitOnChar (sep : Char) : Text → List Text
  | [] => [[]]
  | c :: cs =>
    if c = sep then [] :: splitOnChar sep cs
    else
      match splitOnChar sep cs with
      | [] => [[c]]
      | p :: ps => (c :: p) :: ps

def lineTail (after : Text) : Text := after.takeWhile (· != '\n')

def lineHead (before : Text) : Text := (lineTail before.reverse).reverse

theorem breakOn?_eq_some {pat t before after : Text} (h : breakOn? pat t = some (before, after)) :
    t = before ++ pat ++ after := by
  induction t generalizing before with
  | nil =>
    simp only [breakOn?] at h
    split at h
    · next he =>
      simp only [Option.some.injEq, Prod.mk.injEq] at h
      obtain ⟨rfl, rfl⟩ := h
      simpa using (List.isEmpty_iff.1 he).symm
    · cases h
  | cons c cs ih =>
    simp only [breakOn?] at h
    split at h
    · next hp =>
      simp only [Option.some.injEq, Prod.mk.injEq] at h
      obtain ⟨rfl, rfl⟩ := h
      obtain ⟨r, hr⟩ := List.isPrefixOf_iff_prefix.1 hp
      rw [← hr]; simp
    · obtain ⟨⟨b, a⟩, hb, he⟩ := Option.map_eq_some_iff.1 h
      simp only [Prod.mk.injEq] at he
      obtain ⟨rfl, rfl⟩ := he
      simp [ih hb]

theorem breakOnLast?_eq_some {pat t before after : Text}
    (h : breakOnLast? pat t = some (before, after)) : t = before ++ pat ++ after := by
  induction t generalizing before with
  | nil =>
    simp only [breakOnLast?] at h
    split at h
    · next he =>
      simp only [Option.some.injEq, Prod.mk.injEq] at h
      obtain ⟨rfl, rfl⟩ := h
      simpa using (List.isEmpty_iff.1 he).symm
    · cases h
  | cons c cs ih =>
    simp only [breakOnLast?] at h
    split at h
    · next b a hb =>
      simp only [Option.some.injEq, Prod.mk.injEq] at h
      obtain ⟨rfl, rfl⟩ := h
      simp [ih hb]
    · split at h
      · next hp =>
        simp only [Option.some.injEq, Prod.mk.injEq] at h
        obtain ⟨rfl, rfl⟩ := h
        obtain ⟨r, hr⟩ := List.isPrefixOf_iff_prefix.1 hp
        rw [← hr]; simp
      · cases h

/-- Skipped characters only move the start of the search. -/
theorem replaceFrom_eq_drop (pat value : Text) (skip : Nat) (t : Text) :
    replaceFrom pat value skip t = replaceAll pat value (t.drop skip) := by
  induction t generalizing skip with
  | nil => cases skip <;> simp [replaceFrom, replaceAll]
  | cons c cs ih =>
    cases skip with
    | zero => rfl
    | succ n => simpa [replaceFrom] using ih n

end Javadoc.Text
