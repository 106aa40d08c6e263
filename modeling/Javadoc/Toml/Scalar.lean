import Javadoc.Text.Basic

/-! Numbers, dates and times of a configuration text. Templates hold none, so only their form is
checked: a text that is no such value is refused, and the value itself is not kept. -/
namespace Javadoc.Toml.Scalar

def isDigit (c : Char) : Bool := '0' ≤ c && c ≤ '9'

def digitValue (c : Char) : Nat :=
  if isDigit c then c.toNat - '0'.toNat
  else if 'a' ≤ c && c ≤ 'f' then c.toNat - 'a'.toNat + 10
  else if 'A' ≤ c && c ≤ 'F' then c.toNat - 'A'.toNat + 10
  else 16

def isGrouped (base : Nat) : Text → Bool
  | [] => false
  | [c] => digitValue c < base
  | c :: '_' :: rest => digitValue c < base && isGrouped base rest
  | c :: rest => digitValue c < base && isGrouped base rest

def numberOf (base : Nat) (t : Text) : Nat :=
  (t.filter fun c => c != '_').foldl (fun n c => base * n + digitValue c) 0

def splitSign : Text → Option Char × Text
  | '+' :: rest => (some '+', rest)
  | '-' :: rest => (some '-', rest)
  | t => (none, t)

def isWhole (t : Text) : Bool := isGrouped 10 t && (t.head? != some '0' || t == ['0'])

def integerLimit : Nat := Nat.pow 2 63

/-- What numbers of double precision stay below: halfway between the largest one and the next power
of two. -/
def decimalLimit : Nat := Nat.pow 2 1024 - Nat.pow 2 970

def isInteger (t : Text) : Bool :=
  match t with
  | '0' :: 'x' :: digits => isGrouped 16 digits && numberOf 16 digits < integerLimit
  | '0' :: 'o' :: digits => isGrouped 8 digits && numberOf 8 digits < integerLimit
  | '0' :: 'b' :: digits => isGrouped 2 digits && numberOf 2 digits < integerLimit
  | t =>
    let (sign, digits) := splitSign t
    isWhole digits && numberOf 10 digits < (if sign == some '-' then integerLimit + 1 else integerLimit)

def isFinite (mantissa up down : Nat) : Bool :=
  if mantissa == 0 then true
  else if mantissa.log2 + up < down then true
  else if down + 400 < up then false
  else mantissa * Nat.pow 10 (up - down) < decimalLimit * Nat.pow 10 (down - up)

def exponent? : Text → Option (Nat × Bool)
  | [] => some (0, false)
  | e :: rest =>
    let (sign, digits) := splitSign rest
    if (e == 'e' || e == 'E') && isGrouped 10 digits then
      some (numberOf 10 digits, sign == some '-')
    else none

/-- A decimal number with a fraction, an exponent, or both; or an infinity, or no number. A positive
number is refused when it is too large. -/
def isDecimal (t : Text) : Bool :=
  let (sign, t) := splitSign t
  let inNumber := fun c => isDigit c || c == '_'
  let whole := t.takeWhile inNumber
  let (fraction?, tail) :=
    match t.dropWhile inNumber with
    | '.' :: more => (some (more.takeWhile inNumber), more.dropWhile inNumber)
    | more => (none, more)
  let fraction := fraction?.getD []
  let places := (fraction.filter fun c => c != '_').length
  if t == "inf".toList || t == "nan".toList then true
  else if !isWhole whole || fraction?.any (fun f => !isGrouped 10 f) then false
  else if fraction?.isNone && tail.isEmpty then false
  else
    match exponent? tail with
    | none => false
    | some (size, negative) =>
      sign == some '-' ||
        if negative then isFinite (numberOf 10 (whole ++ fraction)) 0 (places + size)
        else isFinite (numberOf 10 (whole ++ fraction)) size places

def digits? (n : Nat) (t : Text) : Option (Nat × Text) :=
  if (t.take n).length == n && (t.take n).all isDigit then
    some (numberOf 10 (t.take n), t.drop n)
  else none

def mark? (c : Char) : Text → Option Text
  | d :: rest => if d = c then some rest else none
  | [] => none

def isLeap (year : Nat) : Bool := year % 4 == 0 && (year % 100 != 0 || year % 400 == 0)

def daysIn (year month : Nat) : Nat :=
  if month == 2 then (if isLeap year then 29 else 28)
  else if [4, 6, 9, 11].contains month then 30
  else 31

def afterDate? (t : Text) : Option Text := do
  let (year, t) ← digits? 4 t
  let (month, t) ← digits? 2 (← mark? '-' t)
  let (day, t) ← digits? 2 (← mark? '-' t)
  if 1 ≤ month && month ≤ 12 && 1 ≤ day && day ≤ daysIn year month then some t else none

def afterTime? (t : Text) : Option Text := do
  let (hour, t) ← digits? 2 t
  let (minute, t) ← digits? 2 (← mark? ':' t)
  let (second, t) ← digits? 2 (← mark? ':' t)
  if hour < 24 && minute < 60 && second ≤ 60 then
    match t with
    | '.' :: c :: rest => if isDigit c then some (rest.dropWhile isDigit) else some t
    | t => some t
  else none

def isOffset : Text → Bool
  | [] => true
  | [c] => c == 'Z' || c == 'z'
  | c :: rest =>
    (c == '+' || c == '-') &&
      (do let (hour, t) ← digits? 2 rest
          let (minute, t) ← digits? 2 (← mark? ':' t)
          some (hour < 24 && minute < 60 && t.isEmpty)) == some true

def isClock (t : Text) : Bool := (afterTime? t).any isOffset

def isDate (t : Text) : Bool := afterDate? t == some []

def isMoment (t : Text) : Bool :=
  afterTime? t == some [] ||
    match afterDate? t with
    | some [] => true
    | some (c :: rest) => (c == 'T' || c == 't') && isClock rest
    | none => false

def isInside (c : Char) : Bool := !(Text.isGap c || "\n\r,]\x7d#".toList.contains c)

def after? (t : Text) : Option Text :=
  let token := t.takeWhile isInside
  let rest := t.dropWhile isInside
  if isDate token then
    match rest with
    | ' ' :: more => if isClock (more.takeWhile isInside) then some (more.dropWhile isInside) else some rest
    | _ => some rest
  else if isInteger token || isDecimal token || isMoment token then some rest
  else none

end Javadoc.Toml.Scalar
