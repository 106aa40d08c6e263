import Javadoc.Text.Basic

/-! Quoted strings of a configuration text. A string has four forms: basic ones know escapes and
literal ones do not, and each has a long form that spans lines. Writing picks the plainest form that
can hold the string; reading takes any of them. -/
namespace Javadoc.Toml

inductive Form where
  | basic
  | literal
  | longBasic
  | longLiteral
  deriving DecidableEq, Repr

def isPlain (c : Char) : Bool := c == '\t' || (0x20 ≤ c.toNat && c.toNat != 0x7F)

def longestRun (q : Char) (run : Nat) : Text → Nat
  | [] => run
  | c :: cs => if c = q then longestRun q (run + 1) cs else max run (longestRun q 0 cs)

namespace Form

def isUncoded (t : Text) : Bool := t.all fun c => isPlain c || c == '\n'

/-- The form that a string is written in: the first of the four that can hold it as it stands, and a
basic one with escapes if none can. -/
def choose (t : Text) : Form :=
  let multiline := t.contains '\n'
  let unescaped := isUncoded t && !t.contains '\\'
  if unescaped && !t.contains '"' && !multiline then basic
  else if isUncoded t && !t.contains '\'' && !multiline then literal
  else if unescaped && longestRun '"' 0 t ≤ 2 then longBasic
  else if isUncoded t && longestRun '\'' 0 t ≤ 2 then longLiteral
  else if multiline then longBasic
  else basic

end Form

/-! ## Writing -/

def hexDigits : Text := "0123456789ABCDEF".toList

def hexDigit (n : Nat) : Char := hexDigits.getD n '0'

def escapeChar (c : Char) : Text :=
  if c = '\x08' then ['\\', 'b']
  else if c = '\t' then ['\\', 't']
  else if c = '\n' then ['\\', 'n']
  else if c = '\x0C' then ['\\', 'f']
  else if c = '\r' then ['\\', 'r']
  else if c = '"' then ['\\', '"']
  else if c = '\\' then ['\\', '\\']
  else if isPlain c then [c]
  else ['\\', 'u', '0', '0', hexDigit (c.toNat / 16), hexDigit (c.toNat % 16)]

def escape (t : Text) : Text := t.flatMap escapeChar

/-- The inside of a long basic string, behind `quotes` quotes. Line feeds stand for themselves, and
so do quotes, but no three in a row. -/
def escapeLong (quotes : Nat) : Text → Text
  | [] => []
  | c :: cs =>
    if c = '"' && quotes < 2 then '"' :: escapeLong (quotes + 1) cs
    else if c = '\n' then '\n' :: escapeLong 0 cs
    else escapeChar c ++ escapeLong 0 cs

def openLong (q : Char) (t : Text) : Text := if t.contains '\n' then [q, q, q, '\n'] else [q, q, q]

def quote (t : Text) : Text :=
  match Form.choose t with
  | .basic => '"' :: escape t ++ ['"']
  | .literal => '\'' :: t ++ ['\'']
  | .longBasic => openLong '"' t ++ escapeLong 0 t ++ ['"', '"', '"']
  | .longLiteral => openLong '\'' t ++ t ++ ['\'', '\'', '\'']

/-! ## Reading -/

def afterBreak? : Text → Option Text
  | '\n' :: rest => some rest
  | '\r' :: '\n' :: rest => some rest
  | _ => none

def skipBreaks : Text → Text
  | [] => []
  | '\r' :: '\n' :: rest => skipBreaks rest
  | c :: rest => if c = '\n' || Text.isGap c then skipBreaks rest else c :: rest

def skipGaps (t : Text) : Text := t.dropWhile Text.isGap

def hexValue? (c : Char) : Option Nat :=
  let n := c.toNat
  if 0x30 ≤ n && n ≤ 0x39 then some (n - 0x30)
  else if 0x41 ≤ n && n ≤ 0x46 then some (n - 0x37)
  else if 0x61 ≤ n && n ≤ 0x66 then some (n - 0x57)
  else none

def hexNumber? (n : Nat) : Text → Option Nat
  | [] => some n
  | c :: cs =>
    match hexValue? c with
    | some d => hexNumber? (16 * n + d) cs
    | none => none

def numberedChar? (digits : Nat) (t : Text) : Option Char :=
  if t.length < digits then none
  else
    match hexNumber? 0 (t.take digits) with
    | some n => if n.isValidChar then some (Char.ofNat n) else none
    | none => none

def unescape? : Text → Option (Char × Nat)
  | [] => none
  | c :: rest =>
    if c = 'b' then some ('\x08', 1)
    else if c = 't' then some ('\t', 1)
    else if c = 'n' then some ('\n', 1)
    else if c = 'f' then some ('\x0C', 1)
    else if c = 'r' then some ('\r', 1)
    else if c = '"' then some ('"', 1)
    else if c = '\\' then some ('\\', 1)
    else if c = 'u' then (numberedChar? 4 rest).map fun d => (d, 5)
    else if c = 'U' then (numberedChar? 8 rest).map fun d => (d, 9)
    else none

def prepend (s : Text) : Option (Text × Text) → Option (Text × Text)
  | some (t, rest) => some (s ++ t, rest)
  | none => none

def readBasic (t : Text) : Option (Text × Text) :=
  match t with
  | [] => none
  | c :: rest =>
    if c = '"' then some ([], rest)
    else if c = '\\' then
      match unescape? rest with
      | some (d, n) => prepend [d] (readBasic (rest.drop n))
      | none => none
    else if isPlain c then prepend [c] (readBasic rest)
    else none
termination_by t.length
decreasing_by
  · simp only [List.length_drop, List.length_cons]; omega
  · simp only [List.length_cons]; omega

def readLiteral (t : Text) : Option (Text × Text) :=
  let inside := fun c => isPlain c && c != '\''
  match t.dropWhile inside with
  | '\'' :: rest => some (t.takeWhile inside, rest)
  | _ => none

def startsWithTwo (q : Char) (t : Text) : Bool := [q, q].isPrefixOf t

/-- What follows the three quotes that end a long string: up to two more quotes, which belong to the
string, and the text behind them. -/
def lateQuotes (q : Char) (t : Text) : Text × Text :=
  let n := min 2 (t.takeWhile (· == q)).length
  (t.take n, t.drop n)

private theorem length_skipBreaks_le (t : Text) : (skipBreaks t).length ≤ t.length := by
  fun_induction skipBreaks t with
  | case1 => simp
  | case2 rest ih => simp only [List.length_cons]; omega
  | case3 c rest _ _ ih => simp only [List.length_cons]; omega
  | case4 => simp

/-- The text after a line ending at the end of a line of a long basic string, where only gaps may
stand before it. All blanks that follow are left out. -/
def joinedLine? (t : Text) : Option Text := (afterBreak? (skipGaps t)).map skipBreaks

private theorem length_afterBreak?_lt {t rest : Text} (h : afterBreak? t = some rest) :
    rest.length < t.length := by
  unfold afterBreak? at h
  split at h
  · obtain rfl := Option.some.inj h
    simp
  · obtain rfl := Option.some.inj h
    simp only [List.length_cons]
    omega
  · cases h

private theorem length_skipGaps_le (t : Text) : (skipGaps t).length ≤ t.length :=
  (List.dropWhile_sublist _).length_le

private theorem length_joinedLine?_lt {t rest : Text} (h : joinedLine? t = some rest) :
    rest.length < t.length := by
  unfold joinedLine? at h
  obtain ⟨u, hu, rfl⟩ := Option.map_eq_some_iff.1 h
  have := length_afterBreak?_lt hu
  have := length_skipGaps_le t
  have := length_skipBreaks_le u
  omega

def readLongBasic (t : Text) : Option (Text × Text) :=
  match t with
  | [] => none
  | c :: rest =>
    if c = '"' then
      if startsWithTwo '"' rest then some (lateQuotes '"' (rest.drop 2))
      else prepend ['"'] (readLongBasic rest)
    else if c = '\\' then
      match _joined : joinedLine? rest with
      | some more => readLongBasic more
      | none =>
        match unescape? rest with
        | some (d, n) => prepend [d] (readLongBasic (rest.drop n))
        | none => none
    else if c = '\n' then prepend ['\n'] (readLongBasic rest)
    else if c = '\r' then
      match rest with
      | '\n' :: more => prepend ['\n'] (readLongBasic more)
      | _ => none
    else if isPlain c then prepend [c] (readLongBasic rest)
    else none
termination_by t.length
decreasing_by
  · simp only [List.length_cons]; omega
  · have := length_joinedLine?_lt _joined
    simp only [List.length_cons]; omega
  · simp only [List.length_drop, List.length_cons]; omega
  · simp only [List.length_cons]; omega
  · simp only [List.length_cons]; omega
  · simp only [List.length_cons]; omega

def readLongLiteral : Text → Option (Text × Text)
  | [] => none
  | '\r' :: '\n' :: rest => prepend ['\n'] (readLongLiteral rest)
  | c :: rest =>
    if c = '\'' then
      if startsWithTwo '\'' rest then some (lateQuotes '\'' (rest.drop 2))
      else prepend ['\''] (readLongLiteral rest)
    else if c = '\n' || isPlain c then prepend [c] (readLongLiteral rest)
    else none

def skipBreak (t : Text) : Text := (afterBreak? t).getD t

def unquote? : Text → Option (Text × Text)
  | '"' :: rest =>
    if startsWithTwo '"' rest then readLongBasic (skipBreak (rest.drop 2)) else readBasic rest
  | '\'' :: rest =>
    if startsWithTwo '\'' rest then readLongLiteral (skipBreak (rest.drop 2)) else readLiteral rest
  | _ => none

end Javadoc.Toml
