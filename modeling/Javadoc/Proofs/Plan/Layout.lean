import Javadoc.Plan
import Javadoc.Proofs.Java.Reading
import Javadoc.Proofs.Text.Line

/-! Laying out a comment changes its line breaks alone: a block comment stays one, with blanks
around it and a line break behind it. -/
namespace Javadoc
namespace Comment

/-- Whether a text is one block comment: it starts with the opening delimiter, and the first
closing delimiter behind that one ends it. -/
def isBlockComment (t : Text) : Bool :=
  match Text.stripPrefix? blockOpen t with
  | some rest =>
    match Text.breakOn? blockClose rest with
    | some (_, behind) => behind.isEmpty
    | none => false
  | none => false

/-- The text without the spaces at its ends. Blanks that are no spaces stay. -/
def trimSpaces (t : Text) : Text :=
  Text.dropEndWhile Java.Lexeme.isSpace (t.dropWhile Java.Lexeme.isSpace)

private theorem trimSpaces_spec (t : Text) :
    ∃ a b, t = a ++ (trimSpaces t ++ b) ∧ (∀ c ∈ a, Java.Lexeme.isSpace c) ∧
      ∀ c ∈ b, Java.Lexeme.isSpace c := by
  obtain ⟨b, hb, hspace⟩ := Text.dropEndWhile_append Java.Lexeme.isSpace
    (t.dropWhile Java.Lexeme.isSpace)
  refine ⟨t.takeWhile Java.Lexeme.isSpace, b, ?_, fun c hc => ?_, hspace⟩
  · rw [trimSpaces, ← hb, List.takeWhile_append_dropWhile]
  · exact List.all_eq_true.1 List.all_takeWhile c hc

private theorem closed_of_isBlockComment {t : Text} (h : isBlockComment t) :
    Java.Lexeme.Closed ⟨.blockComment, t⟩ := by
  unfold isBlockComment at h
  split at h
  · next rest hr =>
    split at h
    · next inside behind hb =>
      obtain rfl : behind = [] := List.isEmpty_iff.1 h
      obtain ⟨he, hno⟩ := (Text.breakOn?_eq_some_iff (by decide)).1 hb
      refine ⟨rfl, inside, ?_, hno⟩
      unfold Text.stripPrefix? at hr
      split at hr
      · next hp =>
        obtain ⟨u, rfl⟩ := List.isPrefixOf_iff_prefix.1 hp
        rw [List.drop_left, Option.some.injEq] at hr
        rw [hr, he, List.append_nil]
        rfl
      · cases hr
    · cases h
  · cases h

end Comment

namespace Plan

def respace (sep : Text) : Text → Text
  | [] => []
  | c :: t =>
    if c = '\n' then sep ++ respace sep t
    else if c = '\r' ∧ t.head? = some '\n' then respace sep t
    else c :: respace sep t

private theorem respace_newline (sep t : Text) :
    respace sep ('\n' :: t) = sep ++ respace sep t := rfl

private theorem respace_return (sep t : Text) :
    respace sep ('\r' :: '\n' :: t) = respace sep ('\n' :: t) := rfl

private theorem respace_cons {sep : Text} {c : Char} {t : Text} (hc : c ≠ '\n')
    (hr : ¬ (c = '\r' ∧ t.head? = some '\n')) : respace sep (c :: t) = c :: respace sep t := by
  rw [respace, if_neg hc, if_neg hr]

private theorem respace_of_not_mem {sep t : Text} (h : '\n' ∉ t) : respace sep t = t := by
  induction t with
  | nil => rfl
  | cons c t ih =>
    simp only [List.mem_cons, not_or] at h
    have hh : t.head? ≠ some '\n' := fun hh => h.2 (List.mem_of_mem_head? hh)
    rw [respace_cons (Ne.symm h.1) (fun hc => hh hc.2), ih h.2]

private theorem respace_append {sep x y : Text} (h : x.getLast? = some '\r' → y.head? ≠ some '\n') :
    respace sep (x ++ y) = respace sep x ++ respace sep y := by
  induction x with
  | nil => rfl
  | cons c x ih =>
    have ih : respace sep (x ++ y) = respace sep x ++ respace sep y := by
      cases x with
      | nil => rfl
      | cons d x => exact ih (by simpa using h)
    have hhead : (c = '\r' ∧ (x ++ y).head? = some '\n') ↔ (c = '\r' ∧ x.head? = some '\n') := by
      cases x with
      | nil => simpa using fun hc => h (by simp [hc])
      | cons d x => simp
    simp only [List.cons_append, respace, hhead, ih]
    split
    · exact (List.append_assoc ..).symm
    · split <;> rfl

private theorem mem_respace {sep t : Text} {c : Char} (h : c ∈ respace sep t) :
    c ∈ sep ∨ c ∈ t := by
  induction t with
  | nil => cases h
  | cons d t ih =>
    simp only [respace] at h
    split at h
    · rcases List.mem_append.1 h with h | h
      · exact .inl h
      · exact (ih h).imp_right (List.mem_cons_of_mem d)
    · split at h
      · exact (ih h).imp_right (List.mem_cons_of_mem d)
      · rcases List.mem_cons.1 h with rfl | h
        · exact .inr List.mem_cons_self
        · exact (ih h).imp_right (List.mem_cons_of_mem d)

private theorem respace_ne_nil {sep t : Text} (hs : sep ≠ []) (h : '\n' ∈ t) :
    respace sep t ≠ [] := by
  induction t with
  | nil => cases h
  | cons c t ih =>
    simp only [respace]
    split
    · simp [hs]
    · next hc =>
      have ih := ih ((List.mem_cons.1 h).resolve_left (Ne.symm hc))
      split
      · exact ih
      · simp

private theorem head?_respace {sep t : Text} (hs : sep ≠ []) {c : Char} (hc : c ∉ sep)
    (h : (respace sep t).head? = some c) : t.head? = some c := by
  induction t with
  | nil => exact h
  | cons d t ih =>
    simp only [respace] at h
    split at h
    · obtain ⟨e, sep', rfl⟩ := List.exists_cons_of_ne_nil hs
      simp only [List.cons_append, List.head?_cons, Option.some.injEq] at h
      exact absurd (h ▸ List.mem_cons_self) hc
    · split at h
      · next hr =>
        obtain ⟨t', rfl⟩ : ∃ t', t = '\n' :: t' := by
          cases t with
          | nil => simp at hr
          | cons e t' => exact ⟨t', by simp_all⟩
        have he : c = '\n' := by simpa using (ih h).symm
        obtain ⟨e, sep', rfl⟩ := List.exists_cons_of_ne_nil hs
        simp only [respace_newline, List.cons_append, List.head?_cons, Option.some.injEq] at h
        exact absurd (h ▸ List.mem_cons_self) hc
      · simpa using h

/-- No closing delimiter is put together by other line breaks. -/
theorem blockClose_infix_respace {sep t : Text} (hs : sep ≠ []) (hb : ∀ c ∈ sep, Text.isBlank c)
    (h : ['*', '/'] <:+: respace sep t) : ['*', '/'] <:+: t := by
  have hstar : '*' ∉ sep := fun hc => absurd (hb _ hc) (by decide)
  have hslash : '/' ∉ sep := fun hc => absurd (hb _ hc) (by decide)
  induction t with
  | nil => exact h
  | cons c t ih =>
    simp only [respace] at h
    split at h
    · refine (ih ?_).trans (List.suffix_cons c t).isInfix
      rcases Text.infix_append_cases h with h | h | ⟨p, q, he, hp, -, hsuf, -⟩
      · exact absurd (h.subset List.mem_cons_self) hstar
      · exact h
      · obtain ⟨d, p, rfl⟩ := List.exists_cons_of_ne_nil hp
        obtain rfl : '*' = d := (List.cons.inj he).1
        exact absurd (hsuf.subset List.mem_cons_self) hstar
    · split at h
      · exact (ih h).trans (List.suffix_cons c t).isInfix
      · rcases List.infix_cons_iff.1 h with h | h
        · obtain ⟨rfl, u, hu⟩ := List.cons_prefix_cons.1 h
          have hh := head?_respace (t := t) hs hslash (by rw [← hu]; rfl)
          obtain ⟨t', rfl⟩ : ∃ t', t = '/' :: t' := by
            cases t with
            | nil => cases hh
            | cons d t' => exact ⟨t', by simpa using hh⟩
          exact ⟨[], t', rfl⟩
        · exact (ih h).trans (List.suffix_cons c t).isInfix

def lastBreak (sep t : Text) : Text := if t.getLast? = some '\n' ∨ t = [] then [] else sep

private theorem linesOfPieces_cons {l : Text} {ls : List Text} (h : ls ≠ []) :
    Text.linesOfPieces (l :: ls) = Text.dropReturn l :: Text.linesOfPieces ls := by
  cases ls with
  | nil => exact absurd rfl h
  | cons m ms => rfl

private theorem dropReturn_cons_cons (c d : Char) (l : Text) :
    Text.dropReturn (c :: d :: l) = c :: Text.dropReturn (d :: l) := by
  have hiff : ['\r'].isSuffixOf (c :: d :: l) = ['\r'].isSuffixOf (d :: l) := by
    rw [Bool.eq_iff_iff, List.isSuffixOf_iff_suffix, List.isSuffixOf_iff_suffix,
      List.suffix_cons_iff]
    simp
  simp only [Text.dropReturn, Text.stripSuffix?, hiff]
  split
  · simp
  · rfl

private theorem dropReturn_singleton (c : Char) :
    Text.dropReturn [c] = if c = '\r' then [] else [c] := by
  have hiff : ['\r'].isSuffixOf [c] = true ↔ c = '\r' := by
    rw [List.isSuffixOf_iff_suffix]
    constructor
    · intro h
      simpa [eq_comm] using h.subset List.mem_cons_self
    · rintro rfl
      exact List.suffix_refl _
  simp only [Text.dropReturn, Text.stripSuffix?, hiff]
  split <;> rfl

private theorem dropReturn_nil : Text.dropReturn [] = [] := by decide

private theorem flatMap_lines (sep t : Text) :
    (Text.lines t).flatMap (· ++ sep) = respace sep t ++ lastBreak sep t := by
  induction t with
  | nil => rfl
  | cons c t ih =>
    have hj := Text.joinLines_splitLines t
    by_cases hc : c = '\n'
    · subst hc
      have hlast : lastBreak sep ('\n' :: t) = lastBreak sep t := by
        cases t with
        | nil => rfl
        | cons d t => simp [lastBreak]
      rw [Text.lines, Text.splitLines_newline, linesOfPieces_cons (Text.splitLines_ne_nil t),
        ← Text.lines, List.flatMap_cons, ih, respace_newline, hlast, dropReturn_nil,
        List.nil_append, List.append_assoc]
    · obtain ⟨l, ls, hl, hcl⟩ := Text.splitLines_cons hc t
      cases ls with
      | nil =>
        have hnl : '\n' ∉ c :: l := Text.not_mem_of_mem_splitLines (by rw [hcl]; simp)
        obtain rfl : l = t := by rw [hl] at hj; exact hj
        have hlast : lastBreak sep (c :: l) = sep := by
          rw [lastBreak, if_neg]
          rintro (h | h)
          · exact hnl (List.mem_of_getLast? h)
          · cases h
        rw [Text.lines, hcl, hlast, respace_of_not_mem hnl]
        simp [Text.linesOfPieces]
      | cons m ms =>
        have hlast : lastBreak sep (c :: t) = lastBreak sep t := by
          cases t with
          | nil => cases hl
          | cons d t => simp [lastBreak]
        rw [Text.lines, hl, linesOfPieces_cons (by simp), List.flatMap_cons] at ih
        rw [Text.lines, hcl, linesOfPieces_cons (by simp), List.flatMap_cons, hlast]
        rw [hl, Text.joinLines_cons_cons] at hj
        cases l with
        | nil =>
          rw [dropReturn_nil, List.nil_append] at ih
          rw [List.append_assoc, ih, dropReturn_singleton, ← hj, List.nil_append]
          split
          · next hr => rw [hr, respace_return, List.nil_append]
          · next hr => rw [respace_cons hc (fun h => hr h.1)]; rfl
        | cons d l =>
          have hd : d ≠ '\n' := by
            rintro rfl
            exact Text.not_mem_of_mem_splitLines (t := t) (by rw [hl]; exact List.mem_cons_self)
              List.mem_cons_self
          rw [dropReturn_cons_cons, List.cons_append, List.cons_append, ih, respace_cons hc]
          · rfl
          · rw [← hj]
            simp [hd]

private theorem joinWith_append (sep : Text) {ls : List Text} (h : ls ≠ []) :
    Text.joinWith sep ls ++ sep = ls.flatMap (· ++ sep) := by
  induction ls with
  | nil => exact absurd rfl h
  | cons l ls ih =>
    cases ls with
    | nil => simp [Text.joinWith]
    | cons m ms =>
      simp only [Text.joinWith, List.append_assoc, ih (by simp), List.flatMap_cons]

theorem lines_ne_nil {t : Text} (h : t ≠ []) : Text.lines t ≠ [] := by
  obtain ⟨c, t, rfl⟩ := List.exists_cons_of_ne_nil h
  by_cases hc : c = '\n'
  · rw [hc, Text.lines, Text.splitLines_newline, linesOfPieces_cons (Text.splitLines_ne_nil t)]
    simp
  · obtain ⟨l, ls, -, hl⟩ := Text.splitLines_cons hc t
    rw [Text.lines, hl]
    cases ls <;> simp [Text.linesOfPieces]

/-- A laid out comment is the comment with other line breaks and one behind it. -/
theorem layOut_eq (newline indent : Text) {comment : Text} (h : comment ≠ []) :
    layOut newline indent comment =
      respace (newline ++ indent) comment ++ lastBreak (newline ++ indent) comment := by
  rw [← flatMap_lines, ← joinWith_append _ (lines_ne_nil h), layOut, List.append_assoc]

/-- A comment that is one block comment up to the spaces around it is laid out as one, with spaces
around it and at least one behind it. -/
theorem layOut_spec {newline indent comment : Text} (hn : newline ≠ [])
    (hb : ∀ c ∈ newline ++ indent, Java.Lexeme.isSpace c)
    (h : Comment.isBlockComment (Comment.trimSpaces comment)) :
    ∃ pre k post, layOut newline indent comment = pre ++ (k.text ++ post) ∧
      (∀ c ∈ pre, Java.Lexeme.isSpace c) ∧ Java.Lexeme.Closed k ∧ post ≠ [] ∧
      ∀ c ∈ post, Java.Lexeme.isSpace c := by
  obtain ⟨a, b, hc, ha, hbl⟩ := Comment.trimSpaces_spec comment
  obtain ⟨-, inside, ht, hno⟩ := Comment.closed_of_isBlockComment h
  have hs : newline ++ indent ≠ [] := by simp [hn]
  have hne : comment ≠ [] := by
    rintro rfl
    cases ht
  rw [layOut_eq newline indent hne]
  generalize newline ++ indent = sep at hb hs
  simp only at ht
  rw [ht] at hc
  have hclose (x : Text) : respace sep (x ++ ['*', '/']) = respace sep x ++ ['*', '/'] :=
    respace_append (y := ['*', '/']) (by simp)
  have hlast : ('/' :: '*' :: (inside ++ ['*', '/'])).getLast? = some '/' := by
    have : '/' :: '*' :: (inside ++ ['*', '/']) = ('/' :: '*' :: (inside ++ ['*'])) ++ ['/'] := by
      simp
    rw [this, List.getLast?_concat]
  have hw : respace sep comment =
      respace sep a ++ ('/' :: '*' :: (respace sep inside ++ ['*', '/']) ++ respace sep b) := by
    rw [hc, respace_append (by simp), respace_append (by simp [hlast])]
    rw [respace_cons (by decide) (by simp), respace_cons (by decide) (by simp), hclose]
  refine ⟨respace sep a, ⟨.blockComment, '/' :: '*' :: (respace sep inside ++ ['*', '/'])⟩,
    respace sep b ++ lastBreak sep comment, ?_, fun c hm => ?_, ⟨rfl, _, rfl, ?_⟩, fun he => ?_,
    fun c hm => ?_⟩
  · rw [hw, List.append_assoc, List.append_assoc]
  · exact (mem_respace hm).elim (hb c) (ha c)
  · rintro hin
    refine hno (blockClose_infix_respace hs (fun c hc => Java.Lexeme.isBlank_of_isSpace (hb c hc)) ?_)
    rwa [respace_append (y := ['*']) (by simp)]
  · obtain ⟨hrb, hlb⟩ := List.append_eq_nil_iff.1 he
    unfold lastBreak at hlb
    split at hlb
    · next hend =>
      have hend := hend.resolve_right hne
      refine respace_ne_nil hs ?_ hrb
      rw [hc] at hend
      cases hb' : b with
      | nil => simp [hb', List.getLast?_append, hlast] at hend
      | cons d b' =>
        rw [hb', ← List.append_assoc, List.getLast?_append_of_ne_nil _ (by simp)] at hend
        exact List.mem_of_getLast? hend
    · exact hs hlb
  · rcases List.mem_append.1 hm with hm | hm
    · exact (mem_respace hm).elim (hb c) (hbl c)
    · unfold lastBreak at hm
      split at hm
      · cases hm
      · exact hb c hm

theorem newlineOf_spec (source : Text) :
    newlineOf source ≠ [] ∧ ∀ c ∈ newlineOf source, Java.Lexeme.isSpace c := by
  have hb : (newlineOf source).all Java.Lexeme.isSpace := by
    unfold newlineOf
    split <;> decide
  refine ⟨?_, List.all_eq_true.1 hb⟩
  unfold newlineOf
  split <;> simp

theorem isBlank_indentAt (source : Text) (offset : Nat) :
    ∀ c ∈ indentAt source offset, Text.isBlank c := by
  unfold indentAt
  split
  · simp
  · next before after _ =>
    intro c hc
    dsimp only at hc
    split at hc
    · next h => exact List.all_eq_true.1 h c hc
    · cases hc

theorem indentAt_eq (before after : Text) : indentAt (before ++ after) (Text.size before) =
    if Text.isBlankText (Text.lineHead before) then Text.lineHead before else [] := by
  rw [indentAt, Text.splitAtByte?_size]

theorem newlineOf_cases (source : Text) :
    newlineOf source = ['\n'] ∨ newlineOf source = ['\r', '\n'] := by
  unfold newlineOf
  split
  · exact .inr rfl
  · exact .inl rfl

theorem newline_not_mem_indentAt (source : Text) (offset : Nat) :
    '\n' ∉ indentAt source offset := by
  unfold indentAt
  split
  · simp
  · dsimp only
    split
    · intro hm
      rw [Text.lineHead, List.mem_reverse] at hm
      simpa using List.all_eq_true.1 List.all_takeWhile _ hm
    · simp

end Plan
end Javadoc
