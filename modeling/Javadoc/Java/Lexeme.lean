import Javadoc.Text.Search

/-! The lexemes of a Java text: blanks, comments, words, numbers, quoted literals and symbols. They
are cut without loss, so that their texts put together are the text. -/
namespace Javadoc.Java

inductive LexemeKind where
  | blank
  | lineComment
  | blockComment
  | word
  | number
  | quoted
  | symbol
  /-- A blank beyond ASCII, or the mark that may open a file. Between lexemes it is an error, behind
  which reading goes on. -/
  | stray
  deriving DecidableEq, Repr

structure Lexeme where
  kind : LexemeKind
  text : Text
  deriving DecidableEq, Repr

namespace Lexeme

def isTrivia (l : Lexeme) : Bool :=
  match l.kind with
  | .blank | .lineComment | .blockComment | .stray => true
  | _ => false

def isSpace (c : Char) : Bool := (0x09 ≤ c.toNat && c.toNat ≤ 0x0D) || c == ' '

def mark : Char := '\uFEFF'

def isStray (c : Char) : Bool := (Text.isBlank c && !isSpace c) || c == mark

/-- What a word goes on with: ASCII letters and digits, underscores, dollar signs, and the
characters beyond ASCII that do not stray. -/
def isWordPart (c : Char) : Bool :=
  c.isAlphanum || c == '_' || c == '$' || (0x80 ≤ c.toNat && !isStray c)

/-- What is being read of a quoted literal. A literal in double quotes can embed expressions, which
hold literals and comments again, so that modes are stacked. -/
inductive Mode where
  | quote (escaped : Bool)
  | letter (escaped : Bool)
  /-- A text block, behind a number of quotes in a row. -/
  | block (escaped : Bool) (quotes : Nat)
  /-- An embedded expression, or the inside of braces in one. -/
  | code
  /-- Code behind a slash. -/
  | slash
  /-- Code behind quotes that may open a text block. -/
  | opening (quotes : Nat)
  | lineComment
  | blockComment (starred : Bool)
  deriving DecidableEq, Repr

namespace Mode

def quoteStep (c : Char) (under : List Mode) : List Mode :=
  if c = '\\' then quote true :: under
  else if c = '"' then under
  else quote false :: under

def codeStep (c : Char) (under : List Mode) : List Mode :=
  match c with
  | '\x7b' => code :: code :: under
  | '\x7d' => under
  | '"' => opening 1 :: under
  | '\'' => letter false :: code :: under
  | '/' => slash :: under
  | _ => code :: under

def step (c : Char) : List Mode → List Mode
  | [] => []
  | quote true :: under => if c = '\x7b' then code :: quote false :: under else quote false :: under
  | quote false :: under => quoteStep c under
  | letter true :: under => letter false :: under
  | letter false :: under =>
    if c = '\\' then letter true :: under
    else if c = '\'' then under
    else letter false :: under
  | block true _ :: under =>
    if c = '\x7b' then code :: block false 0 :: under else block false 0 :: under
  | block false quotes :: under =>
    if c = '\\' then block true 0 :: under
    else if c = '"' then if quotes = 2 then under else block false (quotes + 1) :: under
    else block false 0 :: under
  | code :: under => codeStep c under
  | slash :: under =>
    if c = '/' then lineComment :: under
    else if c = '*' then blockComment false :: under
    else codeStep c under
  | opening quotes :: under =>
    if c = '"' then if quotes = 2 then block false 0 :: code :: under else opening 2 :: under
    else if quotes = 2 then codeStep c under
    else quoteStep c (code :: under)
  | lineComment :: under => if c = '\n' then code :: under else lineComment :: under
  | blockComment starred :: under =>
    if starred ∧ c = '/' then code :: under else blockComment (c = '*') :: under

end Mode

def throughLiteral : List Mode → Text → Text
  | _, [] => []
  | modes, c :: cs =>
    match Mode.step c modes with
    | [] => [c]
    | m :: ms => c :: throughLiteral (m :: ms) cs

def throughClose (t : Text) : Text :=
  match Text.breakOn? ['*', '/'] t with
  | some (inside, _) => inside ++ ['*', '/']
  | none => t

def longSymbols : List Text := ["...".toList, "->".toList, "--".toList, "::".toList]

def symbolAt (c : Char) (cs : Text) : Text :=
  (longSymbols.find? (·.isPrefixOf (c :: cs))).getD [c]

def first (c : Char) (cs : Text) : Lexeme :=
  if isSpace c then ⟨.blank, c :: cs.takeWhile isSpace⟩
  else if isStray c then ⟨.stray, [c]⟩
  else if c.isDigit then ⟨.number, c :: cs.takeWhile isWordPart⟩
  else if isWordPart c then ⟨.word, c :: cs.takeWhile isWordPart⟩
  else
    match c, cs with
    | '/', '/' :: rest => ⟨.lineComment, '/' :: '/' :: rest.takeWhile (· != '\n')⟩
    | '/', '*' :: rest => ⟨.blockComment, '/' :: '*' :: throughClose rest⟩
    | '"', '"' :: '"' :: rest => ⟨.quoted, '"' :: '"' :: '"' :: throughLiteral [.block false 0] rest⟩
    | '"', rest => ⟨.quoted, '"' :: throughLiteral [.quote false] rest⟩
    | '\'', rest => ⟨.quoted, '\'' :: throughLiteral [.letter false] rest⟩
    | _, _ => ⟨.symbol, symbolAt c cs⟩

def scanFrom : Nat → Text → List Lexeme
  | _, [] => []
  | skip + 1, _ :: cs => scanFrom skip cs
  | 0, c :: cs => first c cs :: scanFrom ((first c cs).text.length - 1) cs

def scan (t : Text) : List Lexeme := scanFrom 0 t

private theorem throughLiteral_prefix (modes : List Mode) (t : Text) :
    throughLiteral modes t <+: t := by
  induction t generalizing modes with
  | nil => exact List.prefix_refl _
  | cons c cs ih =>
    rw [throughLiteral]
    cases Mode.step c modes with
    | nil => simp
    | cons m ms => exact (List.prefix_cons_inj c).2 (ih (m :: ms))

private theorem throughClose_prefix (t : Text) : throughClose t <+: t := by
  unfold throughClose
  split
  · next inside after h => rw [Text.breakOn?_eq_some h]; simp
  · exact List.prefix_refl t

private theorem symbolAt_prefix (c : Char) (cs : Text) : symbolAt c cs <+: c :: cs := by
  unfold symbolAt
  cases h : longSymbols.find? (·.isPrefixOf (c :: cs)) with
  | none => simp
  | some s => simpa using List.find?_some h

/-- The first lexeme is a non-empty start of the text. -/
theorem first_text (c : Char) (cs : Text) : ∃ tail, (first c cs).text = c :: tail ∧ tail <+: cs := by
  unfold first
  split
  · exact ⟨_, rfl, List.takeWhile_prefix _⟩
  split
  · exact ⟨_, rfl, List.nil_prefix⟩
  split
  · exact ⟨_, rfl, List.takeWhile_prefix _⟩
  split
  · exact ⟨_, rfl, List.takeWhile_prefix _⟩
  split
  · exact ⟨_, rfl, by simpa using List.takeWhile_prefix _⟩
  · exact ⟨_, rfl, by simpa using throughClose_prefix _⟩
  · exact ⟨_, rfl, by simpa using throughLiteral_prefix _ _⟩
  · exact ⟨_, rfl, throughLiteral_prefix _ _⟩
  · exact ⟨_, rfl, throughLiteral_prefix _ _⟩
  · have hp := symbolAt_prefix c cs
    cases hs : symbolAt c cs with
    | nil =>
      unfold symbolAt at hs
      cases h : longSymbols.find? (·.isPrefixOf (c :: cs)) with
      | none => simp [h] at hs
      | some s =>
        have hm := List.mem_of_find?_eq_some h
        simp only [h, Option.getD_some] at hs
        subst hs
        simp [longSymbols] at hm
    | cons d ds =>
      rw [hs] at hp
      obtain ⟨rfl, hds⟩ := List.cons_prefix_cons.1 hp
      exact ⟨ds, rfl, hds⟩

private theorem scanFrom_eq_drop (skip : Nat) (t : Text) :
    scanFrom skip t = scan (t.drop skip) := by
  induction t generalizing skip with
  | nil => cases skip <;> simp [scanFrom, scan]
  | cons c cs ih =>
    cases skip with
    | zero => rfl
    | succ n => simpa [scanFrom] using ih n

/-- A text starts with its first lexeme; its other lexemes are those of the rest. -/
theorem scan_cons (c : Char) (cs : Text) :
    ∃ rest, c :: cs = (first c cs).text ++ rest ∧ scan (c :: cs) = first c cs :: scan rest := by
  obtain ⟨tail, ht, r, hr⟩ := first_text c cs
  refine ⟨r, by simp [ht, hr], ?_⟩
  have h : cs.drop ((first c cs).text.length - 1) = r := by
    rw [ht, List.length_cons, Nat.add_sub_cancel, ← hr, List.drop_left]
  simp only [scan, scanFrom]
  rw [scanFrom_eq_drop, h]
  rfl

/-- Nothing is lost: the texts of the lexemes put together are the text. -/
theorem flatMap_text_scan (t : Text) : (scan t).flatMap (·.text) = t := by
  obtain ⟨n, hn⟩ : ∃ n, t.length ≤ n := ⟨_, Nat.le_refl _⟩
  induction n generalizing t with
  | zero =>
    have : t = [] := List.length_eq_zero_iff.1 (by omega)
    subst this; rfl
  | succ n ih =>
    cases t with
    | nil => rfl
    | cons c cs =>
      obtain ⟨rest, h₁, h₂⟩ := scan_cons c cs
      obtain ⟨tail, ht, _⟩ := first_text c cs
      have hl := congrArg List.length h₁
      simp only [ht, List.length_append, List.length_cons] at hl
      simp only [List.length_cons] at hn
      rw [h₂, List.flatMap_cons, ih rest (by omega), ← h₁]

end Lexeme
end Javadoc.Java
