import Javadoc.Java.Lexeme
import Javadoc.Proofs.Text.Pattern

/-! When a row of lexemes is read back as itself. Every lexeme has to be the first one read in
front of what follows it; closed comments and brackets always are, so that comments can be put in
and exchanged without a change to the lexemes around them. -/
namespace Javadoc.Java.Lexeme

def Before (l : Lexeme) (rest : Text) : Prop :=
  ∃ c tail, l.text = c :: tail ∧ first c (tail ++ rest) = l

def Reads : List Lexeme → Text → Prop
  | [], _ => True
  | l :: ls, rest => l.Before (ls.flatMap (·.text) ++ rest) ∧ Reads ls rest

def Closed (l : Lexeme) : Prop :=
  l.kind = .blockComment ∧ ∃ inside, l.text = '/' :: '*' :: (inside ++ ['*', '/']) ∧
    ¬ ['*', '/'] <:+: inside ++ ['*']

private theorem toNat_of_isAlphanum {c : Char} (h : c.isAlphanum) :
    0x30 ≤ c.toNat ∧ c.toNat ≤ 0x7A := by
  have hcases : (0x41 ≤ c.val ∧ c.val ≤ 0x5A) ∨ (0x61 ≤ c.val ∧ c.val ≤ 0x7A) ∨
      0x30 ≤ c.val ∧ c.val ≤ 0x39 := by
    rcases Bool.or_eq_true_iff.1 h with h | h
    · rcases Bool.or_eq_true_iff.1 h with h | h
      · exact .inl (of_decide_eq_true h)
      · exact .inr (.inl ((Bool.and_eq_true_iff.1 h).imp of_decide_eq_true of_decide_eq_true))
    · exact .inr (.inr ((Bool.and_eq_true_iff.1 h).imp of_decide_eq_true of_decide_eq_true))
  simp only [UInt32.le_iff_toNat_le, UInt32.reduceToNat] at hcases
  change 0x30 ≤ c.val.toNat ∧ c.val.toNat ≤ 0x7A
  omega

theorem isBlank_of_isSpace {c : Char} (h : isSpace c) : Text.isBlank c := by
  simp only [isSpace, Bool.or_eq_true, Bool.and_eq_true, decide_eq_true_eq, beq_iff_eq] at h
  rcases h with h | rfl
  · simp [Text.isBlank, h]
  · decide

private theorem isSpace_of_isStray {c : Char} (h : isStray c) : isSpace c = false := by
  simp only [isStray, Bool.or_eq_true, Bool.and_eq_true, Bool.not_eq_true', beq_iff_eq] at h
  rcases h with h | rfl
  · exact h.2
  · decide

private theorem isBlank_eq_false {c : Char} (hs : isSpace c = false) (h : isStray c = false) :
    Text.isBlank c = false := by
  simp only [isStray, hs, Bool.not_false, Bool.and_true, Bool.or_eq_false_iff] at h
  exact h.1

private theorem isBlank_of_isWordPart {c : Char} (h : isWordPart c) : Text.isBlank c = false := by
  simp only [isWordPart, Bool.or_eq_true, beq_iff_eq, Bool.and_eq_true, decide_eq_true_eq,
    Bool.not_eq_true'] at h
  rcases h with ((h | rfl) | rfl) | ⟨hc, hs⟩
  · have := toNat_of_isAlphanum h
    simp [Text.isBlank]
    omega
  · decide
  · decide
  · refine isBlank_eq_false (Bool.eq_false_iff.2 fun h => ?_) hs
    simp only [isSpace, Bool.or_eq_true, Bool.and_eq_true, decide_eq_true_eq, beq_iff_eq] at h
    rcases h with h | rfl
    · omega
    · exact absurd hc (by decide)

theorem isSpace_of_isBlank_eq_false {c : Char} (h : Text.isBlank c = false) : isSpace c = false :=
  Bool.eq_false_iff.2 fun hs => by simp [isBlank_of_isSpace hs] at h

private theorem scan_of_before {l : Lexeme} {rest : Text} (h : l.Before rest) :
    scan (l.text ++ rest) = l :: scan rest := by
  obtain ⟨c, tail, ht, hf⟩ := h
  obtain ⟨r, h₁, h₂⟩ := scan_cons c (tail ++ rest)
  rw [hf] at h₁ h₂
  have hr : r = rest := by
    rw [ht] at h₁
    simpa using h₁.symm
  rw [ht, List.cons_append, h₂, hr]

/-- Lexemes that read as themselves come first among the lexemes of a text. -/
theorem scan_of_reads {ls : List Lexeme} {rest : Text} (h : Reads ls rest) :
    scan (ls.flatMap (·.text) ++ rest) = ls ++ scan rest := by
  induction ls with
  | nil => rfl
  | cons l ls ih =>
    rw [List.flatMap_cons, List.append_assoc, scan_of_before h.1, ih h.2, List.cons_append]

theorem reads_append {ls ms : List Lexeme} {rest : Text} :
    Reads (ls ++ ms) rest ↔ Reads ls (ms.flatMap (·.text) ++ rest) ∧ Reads ms rest := by
  induction ls with
  | nil => simp [Reads]
  | cons l ls ih => simp [Reads, ih, and_assoc]

theorem reads_scan (t : Text) : Reads (scan t) [] := by
  obtain ⟨n, hn⟩ : ∃ n, t.length ≤ n := ⟨_, Nat.le_refl _⟩
  induction n generalizing t with
  | zero =>
    have : t = [] := List.length_eq_zero_iff.1 (by omega)
    subst this
    trivial
  | succ n ih =>
    cases t with
    | nil => trivial
    | cons c cs =>
      obtain ⟨rest, h₁, h₂⟩ := scan_cons c cs
      obtain ⟨tail, ht, -⟩ := first_text c cs
      rw [h₂]
      refine ⟨⟨c, tail, ht, ?_⟩, ih rest ?_⟩
      · rw [flatMap_text_scan, List.append_nil]
        rw [ht, List.cons_append] at h₁
        rw [← (List.cons.inj h₁).2]
      · have hl := congrArg List.length h₁
        simp only [ht, List.length_append, List.length_cons] at hl
        simp only [List.length_cons] at hn
        omega

private theorem takeWhile_append_left {p : Char → Bool} {a r : Text} :
    (a ++ r).takeWhile p = a ↔ (∀ c ∈ a, p c) ∧ ∀ c ∈ r.head?, p c = false := by
  induction a with
  | nil => cases r <;> simp [List.takeWhile_cons]
  | cons d a ih => by_cases hd : p d <;> simp [hd, ih]

private theorem throughLiteral_closed {modes : List Mode} {a b : Text}
    (h : throughLiteral modes (a ++ b) = a) (hb : b ≠ []) (u : Text) :
    throughLiteral modes (a ++ u) = a := by
  induction a generalizing modes with
  | nil =>
    obtain ⟨c, b, rfl⟩ := List.exists_cons_of_ne_nil hb
    rw [List.nil_append, throughLiteral] at h
    split at h <;> cases h
  | cons c a ih =>
    rw [List.cons_append, throughLiteral] at h ⊢
    split at h
    · exact h
    · next m ms _ => rw [ih (List.cons.inj h).2]

private theorem throughLiteral_ne_nil {modes : List Mode} {s : Text} (hs : s ≠ []) :
    throughLiteral modes s ≠ [] := by
  obtain ⟨c, s, rfl⟩ := List.exists_cons_of_ne_nil hs
  rw [throughLiteral]
  split <;> simp

private theorem isPrefixOf_congr {s t u : Text} {n : Nat} (hs : s.length ≤ n)
    (h : t.take n = u.take n) : s.isPrefixOf t = s.isPrefixOf u := by
  have hone {t u : Text} (h : t.take n = u.take n) (hp : s <+: t) : s <+: u := by
    have : s <+: t.take n := by
      obtain ⟨r, rfl⟩ := hp
      rw [List.take_append]
      exact ⟨r.take (n - s.length), by rw [List.take_of_length_le hs]⟩
    rw [h] at this
    exact this.trans (List.take_prefix n u)
  rw [Bool.eq_iff_iff, List.isPrefixOf_iff_prefix, List.isPrefixOf_iff_prefix]
  exact ⟨hone h, hone h.symm⟩

def SameStart (r u : Text) : Prop := r.head? = u.head? ∧ (r.head? = some '.' → r.take 2 = u.take 2)

theorem SameStart.refl (r : Text) : SameStart r r := ⟨rfl, fun _ => rfl⟩

theorem SameStart.append {r u : Text} (h : SameStart r u) (w : Text) :
    SameStart (w ++ r) (w ++ u) := by
  match w with
  | [] => exact h
  | [c] =>
    refine ⟨rfl, fun _ => ?_⟩
    have : r.take 1 = u.take 1 := by
      have := h.1
      cases r <;> cases u <;> simp_all
    simpa using this
  | c :: d :: w => exact ⟨rfl, fun _ => rfl⟩

theorem SameStart.of_cons {c : Char} (hc : c ≠ '.') (r u : Text) :
    SameStart (c :: r) (c :: u) := ⟨rfl, by simp [hc]⟩

private theorem symbolAt_congr {c : Char} {r u : Text} (h : SameStart r u) :
    symbolAt c r = symbolAt c u := by
  have htwo (s : Text) (hs : s.length ≤ 2) : s.isPrefixOf (c :: r) = s.isPrefixOf (c :: u) := by
    refine isPrefixOf_congr hs ?_
    have := h.1
    cases r <;> cases u <;> simp_all
  have hdots : ['.', '.', '.'].isPrefixOf (c :: r) = ['.', '.', '.'].isPrefixOf (c :: u) := by
    by_cases hd : r.head? = some '.'
    · exact isPrefixOf_congr (n := 3) (by simp) (by simpa using h.2 hd)
    · have hfalse {t : Text} (ht : t.head? ≠ some '.') :
          ['.', '.', '.'].isPrefixOf (c :: t) = false := by
        cases t with
        | nil => simp [List.isPrefixOf]
        | cons y t => simp [List.isPrefixOf, Ne.symm (by simpa using ht : y ≠ '.')]
      rw [hfalse hd, hfalse (h.1 ▸ hd)]
  simp [symbolAt, longSymbols, List.find?_cons, htwo, hdots]

private theorem starts_one {r u rest : Text} {x : Char} (h : SameStart r u)
    (hu : u = x :: rest) : ∃ rest', r = x :: rest' := by
  have := h.1
  subst hu
  cases r with
  | nil => simp at this
  | cons y r => exact ⟨r, by simp_all⟩

private theorem throughClose_closed {s a b : Text} (h : throughClose s = a) (hs : s = a ++ b)
    (hb : b ≠ []) (u : Text) : throughClose (a ++ u) = a := by
  unfold throughClose at h
  split at h
  · next inside after hi =>
    subst h
    rw [Text.breakOn?_eq_some_iff (by simp)] at hi
    have : Text.breakOn? ['*', '/'] (inside ++ ['*', '/'] ++ u) = some (inside, u) := by
      rw [Text.breakOn?_eq_some_iff (by simp)]
      exact ⟨rfl, hi.2⟩
    rw [throughClose, this]
  · rw [← h] at hs
    exact absurd (List.self_eq_append_right.1 hs) hb

/-- A lexeme is read first whatever follows it, as long as that starts alike. -/
theorem before_congr {l : Lexeme} {r u : Text} (h : l.Before r) (hr : SameStart r u) :
    l.Before u := by
  obtain ⟨c, tail, ht, hf⟩ := h
  refine ⟨c, tail, ht, ?_⟩
  by_cases hne : r = []
  · subst hne
    have : u = [] := by
      have := hr.1
      cases u <;> simp_all
    rwa [this]
  have htext : (first c (tail ++ r)).text = c :: tail := by rw [hf, ht]
  have hrun {p : Char → Bool} {a : Text} (h : (a ++ r).takeWhile p = a) :
      (a ++ u).takeWhile p = a := by
    rw [takeWhile_append_left] at h ⊢
    exact hr.1 ▸ h
  have hsame := hr.append tail
  rw [← hf]
  unfold first at htext ⊢
  split
  · simp_all
  split
  · rfl
  split
  · simp_all
  split
  · simp_all
  · next h₁ h₂ h₃ h₄ =>
    rw [if_neg h₁, if_neg h₂, if_neg h₃, if_neg h₄] at htext
    split at htext
    · next rest he =>
      obtain ⟨t, rfl⟩ : ∃ t, tail = '/' :: t := ⟨_, by simpa using htext.symm⟩
      simp only [List.cons_append, List.cons.injEq, true_and] at he htext ⊢
      subst he
      rw [htext, hrun htext]
    · next rest he =>
      obtain ⟨t, rfl⟩ : ∃ t, tail = '*' :: t := ⟨_, by simpa using htext.symm⟩
      simp only [List.cons_append, List.cons.injEq, true_and] at he htext ⊢
      subst he
      rw [htext, throughClose_closed htext rfl hne]
    · next rest he =>
      obtain ⟨t, rfl⟩ : ∃ t, tail = '"' :: '"' :: t := ⟨_, by simpa using htext.symm⟩
      simp only [List.cons_append, List.cons.injEq, true_and] at he htext ⊢
      subst he
      rw [htext, throughLiteral_closed htext hne]
    · next hq =>
      have hrest := throughLiteral_closed (by simpa using htext) hne u
      obtain ⟨d, tail, rfl⟩ : ∃ d t, tail = d :: t := by
        refine List.exists_cons_of_ne_nil fun he => ?_
        subst he
        exact throughLiteral_ne_nil hne (by simpa using htext)
      split
      · simp_all
      · simp_all
      · next rest he =>
        rw [List.cons_append, List.cons.injEq] at he
        obtain ⟨rest', he'⟩ := starts_one (hr.append tail) he.2
        exact (hq rest' (by rw [he.1, List.cons_append, he'])).elim
      all_goals simp_all
    · have hrest := throughLiteral_closed (by simpa using htext) hne u
      simp_all
    · split
      · obtain ⟨rest, he⟩ := starts_one hsame ‹tail ++ u = '/' :: _›
        simp_all
      · obtain ⟨rest, he⟩ := starts_one hsame ‹tail ++ u = '*' :: _›
        simp_all
      · simp_all
      · simp_all
      · simp_all
      · rw [symbolAt_congr hsame]

private theorem first_block (cs : Text) :
    first '/' ('*' :: cs) = ⟨.blockComment, '/' :: '*' :: throughClose cs⟩ := by
  have h₁ : isSpace '/' = false := by decide
  have h₂ : isStray '/' = false := by decide
  have h₃ : '/'.isDigit = false := by decide
  have h₄ : isWordPart '/' = false := by decide
  unfold first
  rw [h₁, h₂, h₃, h₄]
  rfl

theorem Closed.before {l : Lexeme} (h : l.Closed) (u : Text) : l.Before u := by
  obtain ⟨kind, text⟩ := l
  obtain ⟨hk, inside, ht, hno⟩ := h
  refine ⟨'/', '*' :: (inside ++ ['*', '/']), ht, ?_⟩
  have hb : Text.breakOn? ['*', '/'] (inside ++ ['*', '/'] ++ u) = some (inside, u) :=
    (Text.breakOn?_eq_some_iff (by simp)).2 ⟨rfl, hno⟩
  simp only at hk ht
  subst hk ht
  rw [List.cons_append, first_block, throughClose, hb]

def Spelled (rest : Text) : LexemeKind → Text → Prop
  | .blank, t => (∀ c ∈ t, isSpace c) ∧ ∀ c ∈ rest.head?, isSpace c = false
  | .stray, t => ∃ c, t = [c] ∧ isStray c
  | .number, t | .word, t => ∀ c ∈ t, isWordPart c
  | .lineComment, t => (∃ u, t = '/' :: '/' :: u) ∧ ∀ c ∈ rest.head?, c = '\n'
  | .blockComment, t => (∃ u, t = '/' :: '*' :: u) ∧ (rest ≠ [] → Closed ⟨.blockComment, t⟩)
  | .quoted, t => (∃ q ∈ ['"', '\''], t.head? = some q) ∧
      (rest ≠ [] → ∃ q ∈ ['"', '\'', '\x7d'], t.getLast? = some q)
  | .symbol, t => ∀ c ∈ t, Text.isBlank c = false

private theorem isBlank_symbolAt {c : Char} (hc : Text.isBlank c = false) (cs : Text) :
    ∀ d ∈ symbolAt c cs, Text.isBlank d = false := by
  rw [symbolAt]
  cases h : longSymbols.find? (·.isPrefixOf (c :: cs)) with
  | none => simpa using hc
  | some s =>
    have hall : longSymbols.all fun s => s.all fun d => !Text.isBlank d := by decide
    simpa using List.all_eq_true.1 hall s (List.mem_of_find?_eq_some h)

private theorem mem_of_quoteStep {c : Char} {under : List Mode}
    (h : Mode.quoteStep c under = []) : c ∈ ['"', '\'', '\x7d'] := by
  unfold Mode.quoteStep at h
  split at h
  · cases h
  · split at h
    · next hc => simp [hc]
    · cases h

private theorem mem_of_codeStep {c : Char} {under : List Mode}
    (h : Mode.codeStep c under = []) : c ∈ ['"', '\'', '\x7d'] := by
  unfold Mode.codeStep at h
  split at h <;> simp_all

private theorem mem_of_step_eq_nil {c : Char} {m : Mode} {under : List Mode}
    (h : Mode.step c (m :: under) = []) : c ∈ ['"', '\'', '\x7d'] := by
  cases m with
  | quote escaped =>
    cases escaped with
    | true => rw [Mode.step] at h; split at h <;> cases h
    | false => exact mem_of_quoteStep h
  | letter escaped =>
    cases escaped with
    | true => cases h
    | false =>
      rw [Mode.step] at h
      split at h
      · cases h
      · split at h
        · next hc => simp [hc]
        · cases h
  | block escaped quotes =>
    cases escaped with
    | true => rw [Mode.step] at h; split at h <;> cases h
    | false =>
      rw [Mode.step] at h
      split at h
      · cases h
      · split at h
        · next hc => simp [hc]
        · cases h
  | code => exact mem_of_codeStep h
  | slash =>
    rw [Mode.step] at h
    split at h
    · cases h
    · split at h
      · cases h
      · exact mem_of_codeStep h
  | opening quotes =>
    rw [Mode.step] at h
    split at h
    · split at h <;> cases h
    · split at h
      · exact mem_of_codeStep h
      · exact mem_of_quoteStep h
  | lineComment => rw [Mode.step] at h; split at h <;> cases h
  | blockComment starred => rw [Mode.step] at h; split at h <;> cases h

private theorem getLast?_throughLiteral {m : Mode} {under : List Mode} {a b : Text}
    (h : throughLiteral (m :: under) (a ++ b) = a) (hb : b ≠ []) :
    ∃ q ∈ ['"', '\'', '\x7d'], a.getLast? = some q := by
  induction a generalizing m under with
  | nil => exact absurd h (throughLiteral_ne_nil hb)
  | cons c a ih =>
    rw [List.cons_append, throughLiteral] at h
    split at h
    · next hstep =>
      obtain rfl : a = [] := by simpa using h.symm
      exact ⟨c, mem_of_step_eq_nil hstep, rfl⟩
    · obtain ⟨q, hq, hlast⟩ := ih (List.cons.inj h).2
      exact ⟨q, hq, by simp [List.getLast?_cons, hlast]⟩

private theorem spelled_quoted {q : Char} (hq : q ∈ ['"', '\'']) {m : Mode} {w a r : Text}
    (h : throughLiteral [m] (a ++ r) = a) : Spelled r .quoted (q :: (w ++ a)) := by
  refine ⟨⟨q, hq, rfl⟩, fun hr => ?_⟩
  obtain ⟨p, hp, hlast⟩ := getLast?_throughLiteral h hr
  exact ⟨p, hp, by simp [List.getLast?_cons, List.getLast?_append, hlast]⟩

private theorem spelled_blockComment {a r : Text} (h : throughClose (a ++ r) = a) :
    Spelled r .blockComment ('/' :: '*' :: a) := by
  refine ⟨⟨_, rfl⟩, fun hr => ⟨rfl, ?_⟩⟩
  unfold throughClose at h
  split at h
  · next inside after hb =>
    exact ⟨inside, by rw [← h], ((Text.breakOn?_eq_some_iff (by simp)).1 hb).2⟩
  · exact absurd (List.append_right_eq_self.1 h) hr

private theorem isWordPart_cons {d : Char} {a : Text} (hd : isWordPart d) :
    ∀ e ∈ d :: a.takeWhile isWordPart, isWordPart e :=
  List.forall_mem_cons.2 ⟨hd, fun e he => List.all_eq_true.1 List.all_takeWhile e he⟩

theorem Before.spelled {l : Lexeme} {r : Text} (h : l.Before r) : Spelled r l.kind l.text := by
  obtain ⟨c, tail, ht, hf⟩ := h
  unfold first at hf
  split at hf
  · next hc =>
    subst hf
    have ht : (tail ++ r).takeWhile isSpace = tail := by simpa using ht
    obtain ⟨htail, hr⟩ := takeWhile_append_left.1 ht
    rw [ht]
    exact ⟨List.forall_mem_cons.2 ⟨hc, htail⟩, hr⟩
  split at hf
  · next hc =>
    subst hf
    exact ⟨c, rfl, hc⟩
  split at hf
  · next hc =>
    subst hf
    exact isWordPart_cons (by simp [isWordPart, Char.isAlphanum, hc])
  split at hf
  · next hc =>
    subst hf
    exact isWordPart_cons hc
  next hspace hstray hdigit hword =>
  split at hf
  · next rest he =>
    subst hf
    obtain ⟨t, rfl⟩ : ∃ t, tail = '/' :: t := ⟨_, by simpa using ht.symm⟩
    obtain rfl : t ++ r = rest := by simpa using he
    have ht : (t ++ r).takeWhile (· != '\n') = t := by simpa using ht
    exact ⟨⟨_, rfl⟩, by simpa using (takeWhile_append_left.1 ht).2⟩
  · next rest he =>
    subst hf
    obtain ⟨t, rfl⟩ : ∃ t, tail = '*' :: t := ⟨_, by simpa using ht.symm⟩
    obtain rfl : t ++ r = rest := by simpa using he
    have ht : throughClose (t ++ r) = t := by simpa using ht
    rw [ht]
    exact spelled_blockComment ht
  · next rest he =>
    subst hf
    obtain ⟨t, rfl⟩ : ∃ t, tail = '"' :: '"' :: t := ⟨_, by simpa using ht.symm⟩
    obtain rfl : t ++ r = rest := by simpa using he
    have ht : throughLiteral [.block false 0] (t ++ r) = t := by simpa using ht
    rw [ht]
    exact spelled_quoted (w := ['"', '"']) (by decide) ht
  · subst hf
    have ht : throughLiteral [.quote false] (tail ++ r) = tail := by simpa using ht
    rw [ht]
    exact spelled_quoted (w := []) (by decide) ht
  · subst hf
    have ht : throughLiteral [.letter false] (tail ++ r) = tail := by simpa using ht
    rw [ht]
    exact spelled_quoted (w := []) (by decide) ht
  · subst hf
    exact isBlank_symbolAt (isBlank_eq_false (by simpa using hspace) (by simpa using hstray)) _

/-- A block comment before something else is closed. -/
theorem closed_of_before {l : Lexeme} {r : Text} (h : l.Before r) (hk : l.kind = .blockComment)
    (hr : r ≠ []) : l.Closed := by
  have hs := h.spelled
  rw [hk] at hs
  simpa [Closed, hk] using hs.2 hr

def isFence (c : Char) : Bool := [';', '\x7b', '\x7d', '(', ')', '[', ']'].contains c

theorem before_fence {c : Char} (hc : isFence c) (u : Text) :
    Before ⟨.symbol, [c]⟩ u := by
  refine ⟨c, [], rfl, ?_⟩
  have hall : [';', '\x7b', '\x7d', '(', ')', '[', ']'].all fun c =>
      !isSpace c && !isStray c && !c.isDigit && !isWordPart c && c != '/' && c != '"' &&
        c != '\'' && longSymbols.all fun s => s.head? != some c := by decide
  have hc := List.all_eq_true.1 hall c (by simpa [isFence] using hc)
  simp only [Bool.and_eq_true, Bool.not_eq_true', bne_iff_ne, List.all_eq_true] at hc
  obtain ⟨⟨⟨⟨⟨⟨⟨h₁, h₂⟩, h₃⟩, h₄⟩, h₅⟩, h₆⟩, h₇⟩, h₈⟩ := hc
  have hs : symbolAt c u = [c] := by
    rw [symbolAt, List.find?_eq_none.2]
    · rfl
    · intro s hs hp
      obtain ⟨t, ht⟩ := List.isPrefixOf_iff_prefix.1 hp
      refine h₈ s hs ?_
      cases s with
      | nil => simp [longSymbols] at hs
      | cons d s => simp_all
  rw [List.nil_append]
  unfold first
  rw [h₁, h₂, h₃, h₄]
  split <;> simp_all

/-- A lexeme that is one of the fences is read as such whatever follows. -/
theorem Before.fence {l : Lexeme} {r : Text} (h : l.Before r) {c : Char} (hl : l.text = [c])
    (hc : isFence c) : l = ⟨.symbol, [c]⟩ := by
  obtain ⟨d, tail, ht, hf⟩ := h
  obtain ⟨rfl, rfl⟩ : c = d ∧ tail = [] := by
    rw [hl] at ht
    simpa [eq_comm] using ht
  obtain ⟨d, tail, ht', hf'⟩ := before_fence hc r
  obtain ⟨rfl, rfl⟩ : c = d ∧ tail = [] := by simpa [eq_comm] using ht'
  rw [← hf, hf']

theorem before_blank {b u : Text} (hb : b ≠ []) (hs : ∀ c ∈ b, isSpace c)
    (hu : ∀ c ∈ u.head?, isSpace c = false) : Before ⟨.blank, b⟩ u := by
  obtain ⟨c, tail, rfl⟩ := List.exists_cons_of_ne_nil hb
  refine ⟨c, tail, rfl, ?_⟩
  have ht : (tail ++ u).takeWhile isSpace = tail :=
    takeWhile_append_left.2 ⟨fun d hd => hs d (List.mem_cons_of_mem _ hd), hu⟩
  unfold first
  rw [if_pos (hs c List.mem_cons_self), ht]

/-- A stray character is read as such whatever follows. -/
theorem before_stray {l : Lexeme} {r : Text} (h : l.Before r) (hk : l.kind = .stray) (u : Text) :
    l.Before u := by
  have hs := h.spelled
  rw [hk] at hs
  obtain ⟨c, ht, hc⟩ := hs
  have hl : l = ⟨.stray, [c]⟩ := by rw [← hk, ← ht]
  refine ⟨c, [], ht, ?_⟩
  rw [hl]
  unfold first
  rw [isSpace_of_isStray hc, hc]
  rfl

/-- A lexeme of the program itself does not start with a blank. -/
theorem Before.isBlank_head {l : Lexeme} {r : Text} (h : l.Before r) (hl : l.isTrivia = false) :
    ∀ c ∈ l.text.head?, Text.isBlank c = false := by
  intro c hc
  have hmem : c ∈ l.text := List.mem_of_mem_head? hc
  have hs := h.spelled
  cases hkind : l.kind <;> rw [hkind] at hs
  case blank | stray | lineComment | blockComment => simp [isTrivia, hkind] at hl
  case number | word => exact isBlank_of_isWordPart (hs c hmem)
  case quoted =>
    obtain ⟨⟨q, hq, hhead⟩, -⟩ := hs
    obtain rfl : q = c := by simpa [hhead] using hc
    have hall : ['"', '\''].all fun q => !Text.isBlank q := by decide
    simpa using List.all_eq_true.1 hall q hq
  case symbol => exact hs c hmem

/-- A lexeme that is neither blank nor comment does not end with a blank, unless it ends the text. -/
theorem Before.isBlank_last {l : Lexeme} {r : Text} (h : l.Before r) (hl : l.isTrivia = false)
    (hr : r ≠ []) : ∀ c ∈ l.text.getLast?, Text.isBlank c = false := by
  intro c hc
  have hmem : c ∈ l.text := List.mem_of_getLast? hc
  have hs := h.spelled
  cases hkind : l.kind <;> rw [hkind] at hs
  case blank | stray | lineComment | blockComment => simp [isTrivia, hkind] at hl
  case number | word => exact isBlank_of_isWordPart (hs c hmem)
  case quoted =>
    obtain ⟨q, hq, hlast⟩ := hs.2 hr
    obtain rfl : q = c := by simpa [hlast] using hc
    have hall : ['"', '\'', '\x7d'].all fun q => !Text.isBlank q := by decide
    simpa using List.all_eq_true.1 hall q hq
  case symbol => exact hs c hmem

theorem Before.word {l : Lexeme} {r : Text} (h : l.Before r) (hk : l.kind = .word) :
    ∀ c ∈ l.text, isWordPart c := by
  have hs := h.spelled
  rwa [hk] at hs

theorem Before.text_ne_nil {l : Lexeme} {r : Text} (h : l.Before r) : l.text ≠ [] := by
  obtain ⟨c, tail, ht, -⟩ := h
  simp [ht]

private theorem kind_of_isBlank_last {l : Lexeme} {r : Text} (h : l.Before r)
    (hl : l.kind = .stray → l.text = [mark]) (hr : r ≠ []) (hn : ∀ c ∈ r.head?, c ≠ '\n') {c : Char}
    (hc : c ∈ l.text.getLast?) (hb : Text.isBlank c) : l.kind = .blank := by
  have hs := h.spelled
  have hsolid (hk : l.isTrivia = false) : l.kind = .blank := by
    simp [h.isBlank_last hk hr c hc] at hb
  cases hkind : l.kind <;> rw [hkind] at hs
  case stray =>
    obtain rfl : mark = c := by simpa [hl hkind] using hc
    exact absurd hb (by decide)
  case lineComment =>
    obtain ⟨d, r, rfl⟩ := List.exists_cons_of_ne_nil hr
    exact absurd (hs.2 d rfl) (hn d rfl)
  case blockComment =>
    obtain ⟨-, inside, ht, -⟩ := hs.2 hr
    have hlast : l.text.getLast? = some '/' := by
      have : l.text = ('/' :: '*' :: inside ++ ['*']) ++ ['/'] := by simpa using ht
      rw [this, List.getLast?_concat]
    obtain rfl : '/' = c := by simpa [hlast] using hc
    exact absurd hb (by decide)
  all_goals exact hkind ▸ hsolid (by simp [isTrivia, hkind])

/-- The blanks of the line that lexemes end in are spaces, if nothing but marks strays. -/
theorem Reads.isSpace_of_suffix {ls : List Lexeme} {r s : Text} (h : Reads ls r)
    (hl : ∀ l ∈ ls, l.kind = .stray → l.text = [mark]) (hr : r ≠ [])
    (hn : ∀ c ∈ r.head?, c ≠ '\n') (hs : s <:+ ls.flatMap (·.text)) (hb : ∀ c ∈ s, Text.isBlank c)
    (hline : '\n' ∉ s) : ∀ c ∈ s, isSpace c := by
  induction ls using List.reverseRecOn generalizing r s with
  | nil =>
    rw [List.flatMap_nil, List.suffix_nil] at hs
    simp [hs]
  | append_singleton ls l ih =>
    rw [reads_append] at h
    have hlast : l.Before r := by simpa [Reads] using h.2
    have hspace {c : Char} (hc : c ∈ l.text.getLast?) (hb : Text.isBlank c) :
        ∀ d ∈ l.text, isSpace d := by
      have hs := hlast.spelled
      rw [kind_of_isBlank_last hlast (hl l (by simp)) hr hn hc hb] at hs
      exact hs.1
    obtain ⟨a, ha⟩ := hs
    rw [List.flatMap_append, List.flatMap_singleton, List.append_eq_append_iff] at ha
    rcases ha with ⟨b, hls, rfl⟩ | ⟨b, -, ht⟩
    · -- the line starts before the last lexeme
      obtain ⟨c, w, hw⟩ := List.exists_cons_of_ne_nil hlast.text_ne_nil
      have hall := hspace (List.getLast?_eq_some_getLast hlast.text_ne_nil)
        (hb _ (List.mem_append_right _ (List.getLast_mem _)))
      refine List.forall_mem_append.2 ⟨ih (r := l.text ++ r) ?_ ?_ ?_ ?_ ⟨a, hls.symm⟩ ?_ ?_, hall⟩
      · simpa using h.1
      · exact fun m hm => hl m (List.mem_append_left _ hm)
      · simp [hw]
      · rintro d hd rfl
        refine hline (List.mem_append_right _ (List.mem_of_mem_head? ?_))
        simpa [hw] using hd
      · exact fun d hd => hb d (List.mem_append_left _ hd)
      · exact fun hm => hline (List.mem_append_left _ hm)
    · rcases List.eq_nil_or_concat s with rfl | ⟨w, c, rfl⟩
      · simp
      · rw [List.concat_eq_append] at ht hb ⊢
        have hall := hspace (c := c) (by simp [ht]) (hb c (by simp))
        exact fun d hd => hall d (by rw [ht]; exact List.mem_append_right _ hd)

theorem Reads.text_ne_nil {ls : List Lexeme} {r : Text} (h : Reads ls r) : ∀ l ∈ ls, l.text ≠ [] := by
  induction ls with
  | nil => simp
  | cons l ls ih =>
    intro m hm
    rcases List.mem_cons.1 hm with rfl | hm
    · exact h.1.text_ne_nil
    · exact ih h.2 m hm

theorem Reads.congr {ls : List Lexeme} {r u : Text} (h : Reads ls r) (hr : SameStart r u) :
    Reads ls u := by
  induction ls with
  | nil => trivial
  | cons l ls ih => exact ⟨before_congr h.1 (hr.append _), ih h.2⟩

/-- Behind a lexeme that is read whatever follows, anything may follow. -/
theorem Reads.concat {ls : List Lexeme} {l : Lexeme} {r u : Text} (h : Reads (ls ++ [l]) r)
    (hl : l.Before u) (hd : l.text.head? ≠ some '.') : Reads (ls ++ [l]) u := by
  rw [reads_append] at h ⊢
  obtain ⟨c, tail, ht, -⟩ := id hl
  have hc : c ≠ '.' := by simpa [ht] using hd
  refine ⟨h.1.congr ?_, by simpa [Reads] using hl⟩
  simpa [ht] using SameStart.of_cons hc (tail ++ r) (tail ++ u)

/-- Behind a fence, anything may follow. -/
theorem Reads.fence {ls : List Lexeme} {l : Lexeme} {r : Text} (h : Reads (ls ++ [l]) r) {c : Char}
    (hl : l.text = [c]) (hc : isFence c) (u : Text) : Reads (ls ++ [l]) u := by
  refine h.concat ?_ ?_
  · rw [(reads_append.1 h).2.1.fence hl hc]
    exact before_fence hc u
  · rw [hl]
    rintro ⟨⟩
    cases hc

def Exchange (l m : Lexeme) : Prop := m = l ∨ (l.Closed ∧ m.Closed)

private theorem sameStart_exchange {ls ms : List Lexeme} (h : List.Forall₂ Exchange ls ms)
    (r : Text) :
    SameStart (ls.flatMap (·.text) ++ r) (ms.flatMap (·.text) ++ r) := by
  induction h with
  | nil => exact .refl r
  | @cons l m ls ms hl _ ih =>
    simp only [List.flatMap_cons, List.append_assoc]
    rcases hl with rfl | ⟨⟨-, _, hl, -⟩, ⟨-, _, hm, -⟩⟩
    · exact ih.append _
    · rw [hl, hm]
      exact .of_cons (by decide) _ _

/-- Exchanging closed comments for others leaves every lexeme as it is read. -/
theorem Reads.exchange {ls ms : List Lexeme} {r : Text} (hr : Reads ls r)
    (h : List.Forall₂ Exchange ls ms) : Reads ms r := by
  induction h with
  | nil => trivial
  | cons hl hs ih =>
    refine ⟨?_, ih hr.2⟩
    rcases hl with rfl | ⟨-, hm⟩
    · exact before_congr hr.1 (sameStart_exchange hs r)
    · exact hm.before _

end Javadoc.Java.Lexeme
