import Javadoc.Toml.Quoted

/-! Reading what was written as a quoted string. Whatever form a string takes, it is read back as it
was, in front of any text that does not go on with a further quote. -/
namespace Javadoc.Toml

/-! ## One character of a basic string -/

/-- How a basic string holds a character: as it stands, or as a backslash in front of a code for it
that begins with no blank. -/
inductive Escaped (c : Char) : Text → Prop
  | plain (hp : isPlain c) (hq : c ≠ '"') (hb : c ≠ '\\') : Escaped c [c]
  | coded (d : Char) (code : Text) (hd : Text.isGap d = false ∧ d ≠ '\n' ∧ d ≠ '\r')
      (hu : ∀ x, unescape? (d :: code ++ x) = some (c, code.length + 1)) :
      Escaped c ('\\' :: d :: code)

private theorem hexValue?_hexDigit : ∀ n < 16, hexValue? (hexDigit n) = some n := by decide

/-- Two digits behind two zeros give every number that needs no more. -/
theorem numberedChar?_hexDigits {c : Char} (h : c.toNat < 256) (x : Text) :
    numberedChar? 4
      ('0' :: '0' :: hexDigit (c.toNat / 16) :: hexDigit (c.toNat % 16) :: x) = some c := by
  have hhigh := hexValue?_hexDigit (c.toNat / 16) (by omega)
  have hlow := hexValue?_hexDigit (c.toNat % 16) (by omega)
  have hzero : hexValue? '0' = some 0 := by decide
  have hsum : 16 * (c.toNat / 16) + c.toNat % 16 = c.toNat := Nat.div_add_mod c.toNat 16
  have hvalid : c.toNat.isValidChar := c.valid
  simp [numberedChar?, hexNumber?, hhigh, hlow, hzero, hsum, hvalid]

private theorem toNat_lt_of_not_isPlain {c : Char} (h : ¬ isPlain c) : c.toNat < 256 := by
  simp only [isPlain, Bool.or_eq_true, Bool.and_eq_true, decide_eq_true_eq, bne_iff_ne] at h
  omega

private theorem escaped_escapeChar (c : Char) : Escaped c (escapeChar c) := by
  unfold escapeChar
  -- the seven characters with a letter or a sign of their own
  iterate 7
    split
    · subst c
      exact .coded _ [] (by decide) fun x => by simp [unescape?]
  split
  · next hq hb hp => exact .plain hp hq hb
  · next hp =>
    exact .coded 'u' _ (by decide) fun x => by
      simp [unescape?, numberedChar?_hexDigits (toNat_lt_of_not_isPlain hp)]

section Character

variable {c : Char} {s : Text}

private theorem Escaped.exists_head (h : Escaped c s) :
    ∃ d u, s = d :: u ∧ d ≠ '"' ∧ d ≠ '\n' ∧ d ≠ '\r' := by
  cases h with
  | plain hp hq hb =>
    exact ⟨c, [], rfl, hq, by rintro rfl; simp [isPlain] at hp, by rintro rfl; simp [isPlain] at hp⟩
  | coded d code hd hu => exact ⟨'\\', d :: code, rfl, by decide⟩

private theorem Escaped.readBasic_append (h : Escaped c s) (x : Text) :
    readBasic (s ++ x) = prepend [c] (readBasic x) := by
  cases h with
  | plain hp hq hb => simp [readBasic, hp, hq, hb]
  | coded d code hd hu =>
    have hu := hu x
    simp only [List.cons_append] at hu ⊢
    rw [readBasic]
    simp [hu]

/-- A code does not begin with a blank, so its backslash joins no lines. -/
theorem joinedLine?_eq_none {d : Char} (hd : Text.isGap d = false ∧ d ≠ '\n' ∧ d ≠ '\r')
    (x : Text) : joinedLine? (d :: x) = none := by
  simp [joinedLine?, skipGaps, hd.1, afterBreak?, hd.2.1, hd.2.2]

private theorem Escaped.readLongBasic_append (h : Escaped c s) (x : Text) :
    readLongBasic (s ++ x) = prepend [c] (readLongBasic x) := by
  cases h with
  | plain hp hq hb =>
    have hn : c ≠ '\n' := by rintro rfl; simp [isPlain] at hp
    have hr : c ≠ '\r' := by rintro rfl; simp [isPlain] at hp
    rw [List.singleton_append, readLongBasic.eq_def]
    simp [hp, hq, hb, hn, hr]
  | coded d code hd hu =>
    have hj := joinedLine?_eq_none hd (code ++ x)
    have hu := hu x
    rw [List.cons_append, List.cons_append, readLongBasic.eq_def]
    rw [List.cons_append] at hu
    simp only [Char.reduceEq, if_false, if_true]
    split
    · next hjoined => simp [hj] at hjoined
    · simp [hu]

end Character

/-! ## The end of a string -/

section End

variable {q : Char} {t rest : Text}

private theorem startsWithTwo_iff :
    startsWithTwo q t = true ↔ t.head? = some q ∧ t.tail.head? = some q := by
  match t with
  | [] => simp [startsWithTwo]
  | [a] => simp [startsWithTwo]
  | a :: b :: t => simp [startsWithTwo, eq_comm (a := q)]

/-- Two quotes in front of what ends a long string are its own, or they belong to what ends it. -/
theorem startsWithTwo_append_iff (q : Char) (u rest : Text) :
    startsWithTwo q (u ++ q :: q :: q :: rest) = true ↔ u = [] ∨ u = [q] ∨ [q, q] <+: u := by
  match u with
  | [] => simp [startsWithTwo]
  | [a] => simp [startsWithTwo, eq_comm (a := a)]
  | a :: b :: v => simp [startsWithTwo]

private theorem lateQuotes_append (hrest : rest.head? ≠ some q) {n : Nat} (hn : n ≤ 2) :
    lateQuotes q (List.replicate n q ++ rest) = (List.replicate n q, rest) := by
  have hrun : (List.replicate n q ++ rest).takeWhile (· == q) = List.replicate n q := by
    rw [List.takeWhile_append_of_pos (by simp)]
    cases rest with
    | nil => simp
    | cons c cs =>
      have hc : c ≠ q := by simpa using hrest
      simp [hc]
  have hmin : min 2 n = n := Nat.min_eq_right hn
  simp [lateQuotes, hrun, hmin]

end End

/-! ## The four forms -/

private theorem readBasic_escape (t rest : Text) :
    readBasic (escape t ++ '"' :: rest) = some (t, rest) := by
  induction t with
  | nil => simp [escape, readBasic]
  | cons c cs ih =>
    rw [escape, List.flatMap_cons, List.append_assoc,
      (escaped_escapeChar c).readBasic_append, ← escape, ih]
    rfl

private theorem readLiteral_append {t : Text} (ht : ∀ c ∈ t, isPlain c ∧ c ≠ '\'') (rest : Text) :
    readLiteral (t ++ '\'' :: rest) = some (t, rest) := by
  have hin : ∀ c ∈ t, (isPlain c && c != '\'') = true := by simpa using ht
  simp [readLiteral, List.dropWhile_append_of_pos hin, List.takeWhile_append_of_pos hin]

def longChar (c : Char) : Text := if c = '\n' then ['\n'] else escapeChar c

section Long

variable {n : Nat} {c : Char} {t rest : Text}

private theorem escapeLong_quote (hn : n < 2) (t : Text) :
    escapeLong n ('"' :: t) = '"' :: escapeLong (n + 1) t := by
  simp [escapeLong, hn]

private theorem escapeLong_cons (h : c = '"' → 2 ≤ n) (t : Text) :
    escapeLong n (c :: t) = longChar c ++ escapeLong 0 t := by
  have hc : ¬ (c = '"' && n < 2) := by
    rw [Bool.and_eq_true, decide_eq_true_eq, decide_eq_true_eq]
    exact fun ⟨hq, hn⟩ => absurd (h hq) (by omega)
  rw [escapeLong, if_neg hc, longChar]
  split <;> rfl

private theorem exists_head_longChar (c : Char) :
    ∃ d u, longChar c = d :: u ∧ d ≠ '"' ∧ d ≠ '\r' ∧ (d = '\n' → c = '\n') := by
  unfold longChar
  split
  · next hc => exact ⟨'\n', [], rfl, by decide, by decide, fun _ => hc⟩
  · obtain ⟨d, u, hs, hq, hn, hr⟩ := (escaped_escapeChar c).exists_head
    exact ⟨d, u, hs, hq, hr, fun h => absurd h hn⟩

private theorem readLongBasic_longChar (c : Char) (x : Text) :
    readLongBasic (longChar c ++ x) = prepend [c] (readLongBasic x) := by
  unfold longChar
  split
  · next hc =>
    rw [List.singleton_append, readLongBasic.eq_def]
    simp [hc]
  · exact (escaped_escapeChar c).readLongBasic_append x

private theorem escapeLong_eq_nil_iff : escapeLong n t = [] ↔ t = [] := by
  cases t with
  | nil => simp [escapeLong]
  | cons c t =>
    obtain ⟨d, u, hd, -⟩ := exists_head_longChar c
    by_cases h : c = '"' → 2 ≤ n
    · simp [escapeLong_cons h, hd]
    · obtain ⟨rfl, hn⟩ : c = '"' ∧ n < 2 := by simpa using h
      simp [escapeLong_quote hn]

private theorem head?_escapeLong_ne (h : t.head? = some '"' → 2 ≤ n) :
    (escapeLong n t).head? ≠ some '"' := by
  cases t with
  | nil => simp [escapeLong]
  | cons c t =>
    obtain ⟨d, u, hd, hq, -⟩ := exists_head_longChar c
    simp [escapeLong_cons (t := t) (by simpa using h), hd, hq]

private theorem eq_quote_of_escapeLong (h : escapeLong n t = ['"']) : t = ['"'] := by
  cases t with
  | nil => simp [escapeLong] at h
  | cons c t =>
    by_cases hc : c = '"' → 2 ≤ n
    · have := head?_escapeLong_ne (t := c :: t) (by simpa using hc)
      simp [h] at this
    · obtain ⟨rfl, hn⟩ : c = '"' ∧ n < 2 := by simpa using hc
      rw [escapeLong_quote hn, List.cons_eq_cons, escapeLong_eq_nil_iff] at h
      rw [h.2]

/-- No third quote follows two others as it stands. -/
theorem not_two_quotes_prefix_escapeLong (hn : 0 < n) : ¬ ['"', '"'] <+: escapeLong n t := by
  rintro ⟨x, hx⟩
  have hhead : (escapeLong n t).head? = some '"' := by simp [← hx]
  cases t with
  | nil => simp [escapeLong] at hhead
  | cons c t =>
    by_cases hc : c = '"' → 2 ≤ n
    · exact head?_escapeLong_ne (by simpa using hc) hhead
    · obtain ⟨rfl, hlt⟩ : c = '"' ∧ n < 2 := by simpa using hc
      have htail : '"' :: x = escapeLong (n + 1) t := by
        simpa [escapeLong_quote hlt] using hx
      exact head?_escapeLong_ne (n := n + 1) (t := t) (fun _ => by omega) (by simp [← htail])

/-- The quotes at the end of a text run into those that end the string. -/
theorem readLongBasic_escapeLong (hrest : rest.head? ≠ some '"') :
    readLongBasic (escapeLong n t ++ '"' :: '"' :: '"' :: rest) = some (t, rest) := by
  induction t generalizing n with
  | nil =>
    have := lateQuotes_append hrest (n := 0) (by omega)
    simp_all [escapeLong, readLongBasic, startsWithTwo]
  | cons c t ih =>
    by_cases hc : c = '"' → 2 ≤ n
    · rw [escapeLong_cons hc, List.append_assoc, readLongBasic_longChar, ih]
      rfl
    · obtain ⟨rfl, hn⟩ : c = '"' ∧ n < 2 := by simpa using hc
      rw [escapeLong_quote hn, List.cons_append, readLongBasic.eq_def]
      simp only [if_true]
      split
      · next htwo =>
        obtain h | h | h := (startsWithTwo_append_iff _ _ _).1 htwo
        · rw [h, escapeLong_eq_nil_iff.1 h]
          exact congrArg some (lateQuotes_append hrest (n := 1) (by omega))
        · rw [h, eq_quote_of_escapeLong h]
          exact congrArg some (lateQuotes_append hrest (n := 2) (by omega))
        · exact absurd h (not_two_quotes_prefix_escapeLong (by omega))
      · rw [ih]
        rfl

end Long

private theorem le_longestRun (q : Char) (n : Nat) (t : Text) : n ≤ longestRun q n t := by
  induction t generalizing n with
  | nil => exact Nat.le_refl n
  | cons c t ih =>
    rw [longestRun]
    split
    · exact Nat.le_of_succ_le (ih (n + 1))
    · exact Nat.le_max_left _ _

private theorem readLongLiteral_append {n : Nat} {t rest : Text} (hrest : rest.head? ≠ some '\'')
    (ht : Form.isUncoded t) (hrun : longestRun '\'' n t ≤ 2) :
    readLongLiteral (t ++ '\'' :: '\'' :: '\'' :: rest) = some (t, rest) := by
  induction t generalizing n with
  | nil =>
    have := lateQuotes_append hrest (n := 0) (by omega)
    simp_all [readLongLiteral, startsWithTwo]
  | cons c t ih =>
    obtain ⟨hc, ht⟩ : (isPlain c || c == '\n') ∧ Form.isUncoded t := by
      simpa [Form.isUncoded] using ht
    have hr : c ≠ '\r' := by rintro rfl; simp [isPlain] at hc
    rw [List.cons_append, readLongLiteral.eq_3 _ _ (by simp [hr])]
    by_cases hq : c = '\''
    · subst c
      rw [longestRun, if_pos rfl] at hrun
      have hle := le_longestRun '\'' (n + 1) t
      rw [if_pos rfl]
      split
      · next htwo =>
        obtain rfl | rfl | ⟨x, rfl⟩ := (startsWithTwo_append_iff _ _ _).1 htwo
        · exact congrArg some (lateQuotes_append hrest (n := 1) (by omega))
        · exact congrArg some (lateQuotes_append hrest (n := 2) (by omega))
        · have := le_longestRun '\'' (n + 1 + 1 + 1) x
          simp [longestRun] at hrun
          omega
      · rw [ih ht hrun]
        rfl
    · rw [longestRun, if_neg hq] at hrun
      have hrun := Nat.le_trans (Nat.le_max_right _ _) hrun
      rw [if_neg hq, if_pos (by simpa [or_comm] using hc), ih ht hrun]
      rfl

/-! ## All strings -/

/-- A text without a break at its front keeps what stands there. -/
theorem skipBreak_of_head? {t : Text} (hn : t.head? ≠ some '\n') (hr : t.head? ≠ some '\r') :
    skipBreak t = t := by
  unfold skipBreak afterBreak?
  split <;> simp_all

/-- What opens a long string is read along with the line feed that belongs to it. -/
theorem skipBreak_openLong (q : Char) {t u : Text} (hn : '\n' ∉ t → u.head? ≠ some '\n')
    (hr : u.head? ≠ some '\r') :
    ∃ v, openLong q t ++ u = q :: q :: q :: v ∧ skipBreak v = u := by
  unfold openLong
  split
  · exact ⟨'\n' :: u, rfl, rfl⟩
  · next hc => exact ⟨u, rfl, skipBreak_of_head? (hn (by simpa using hc)) hr⟩

private theorem unquote?_basic {t rest : Text} (hrest : rest.head? ≠ some '"') :
    unquote? ('"' :: (escape t ++ '"' :: rest)) = some (t, rest) := by
  have htwo : ¬ startsWithTwo '"' (escape t ++ '"' :: rest) := by
    cases t with
    | nil => simp [startsWithTwo_iff, escape, hrest]
    | cons c t =>
      obtain ⟨d, u, hd, hq, -⟩ := (escaped_escapeChar c).exists_head
      simp [startsWithTwo_iff, escape, hd, hq]
  simp [unquote?, htwo, readBasic_escape]

private theorem unquote?_literal {t rest : Text} (ht : ∀ c ∈ t, isPlain c ∧ c ≠ '\'')
    (hrest : rest.head? ≠ some '\'') :
    unquote? ('\'' :: (t ++ '\'' :: rest)) = some (t, rest) := by
  have htwo : ¬ startsWithTwo '\'' (t ++ '\'' :: rest) := by
    cases t with
    | nil => simp [startsWithTwo_iff, hrest]
    | cons c t => simp [startsWithTwo_iff, ht c List.mem_cons_self]
  simp [unquote?, htwo, readLiteral_append ht]

private theorem unquote?_longBasic {t rest : Text} (hrest : rest.head? ≠ some '"') :
    unquote? (openLong '"' t ++ (escapeLong 0 t ++ '"' :: '"' :: '"' :: rest)) = some (t, rest) := by
  have hhead : ∀ c, c = '\r' ∨ c = '\n' ∧ '\n' ∉ t →
      (escapeLong 0 t ++ '"' :: '"' :: '"' :: rest).head? ≠ some c := by
    intro c hc
    cases t with
    | nil => obtain rfl | ⟨rfl, -⟩ := hc <;> simp [escapeLong]
    | cons e t =>
      by_cases he : e = '"'
      · obtain rfl | ⟨rfl, -⟩ := hc <;> simp [he, escapeLong_quote]
      · obtain ⟨d, u, hd, -, hr, hn⟩ := exists_head_longChar e
        rw [escapeLong_cons (by simp [he]), hd]
        obtain rfl | ⟨rfl, hmem⟩ := hc
        · simpa using hr
        · have hd : d ≠ '\n' := fun h => hmem (by simp [hn h])
          simpa using hd
  obtain ⟨v, hv, hskip⟩ :=
    skipBreak_openLong '"' (fun h => hhead _ (.inr ⟨rfl, h⟩)) (hhead _ (.inl rfl))
  rw [hv]
  simp [unquote?, startsWithTwo, hskip, readLongBasic_escapeLong hrest]

private theorem unquote?_longLiteral {t rest : Text} (hrest : rest.head? ≠ some '\'')
    (ht : Form.isUncoded t) (hrun : longestRun '\'' 0 t ≤ 2) :
    unquote? (openLong '\'' t ++ (t ++ '\'' :: '\'' :: '\'' :: rest)) = some (t, rest) := by
  have hr : '\r' ∉ t := fun h => by
    have := List.all_eq_true.1 ht _ h
    simp [isPlain] at this
  have hhead : ∀ c ∉ t, c ≠ '\'' → (t ++ '\'' :: '\'' :: '\'' :: rest).head? ≠ some c := by
    intro c hc hq
    cases t with
    | nil => simpa using Ne.symm hq
    | cons e t => simpa using fun h => hc (by simp [h])
  obtain ⟨v, hv, hskip⟩ :=
    skipBreak_openLong '\'' (fun h => hhead _ h (by decide)) (hhead _ hr (by decide))
  rw [hv]
  simp [unquote?, startsWithTwo, hskip, readLongLiteral_append hrest ht hrun]

private theorem Form.isPlain_of_choose_eq_literal {t : Text} (h : choose t = literal) :
    ∀ c ∈ t, isPlain c ∧ c ≠ '\'' := by
  have hl : isUncoded t ∧ '\'' ∉ t ∧ '\n' ∉ t := by
    unfold choose at h
    grind
  intro c hc
  have hplain := List.all_eq_true.1 hl.1 c hc
  grind

private theorem Form.isUncoded_of_choose_eq_longLiteral {t : Text} (h : choose t = longLiteral) :
    isUncoded t ∧ longestRun '\'' 0 t ≤ 2 := by
  unfold choose at h
  grind

/-- A string is read back as it was written, whatever form it took. -/
theorem unquote?_quote {rest : Text} (hd : rest.head? ≠ some '"') (hs : rest.head? ≠ some '\'')
    (t : Text) : unquote? (quote t ++ rest) = some (t, rest) := by
  unfold quote
  split
  · simpa using unquote?_basic hd
  · next h => simpa using unquote?_literal (Form.isPlain_of_choose_eq_literal h) hs
  · simpa using unquote?_longBasic hd
  · next h =>
    obtain ⟨ht, hrun⟩ := Form.isUncoded_of_choose_eq_longLiteral h
    simpa using unquote?_longLiteral hs ht hrun

/-- A line feed at the front is kept apart from the one that belongs to the quotes. -/
example : quote "\n\"a\" \\".toList = "\x27\x27\x27\n\n\"a\" \\\x27\x27\x27".toList := by decide

end Javadoc.Toml
