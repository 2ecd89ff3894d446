import Rill.Decimal.Reader
import Rill.Text.Glyph

/-!
# What a plain text would be read as

A YAML reader takes an unquoted scalar for null, a truth value, a number or a time if it looks like
one. `Scalar.isText` says that it is taken for a text; any other one has to be quoted to stay a
text.
-/

namespace Rill.Scalar

/-- The spellings of null, truth values and special numbers. -/
def words : List Bytes :=
  ["", "~", "null", "Null", "NULL", "true", "True", "TRUE", "false", "False", "FALSE",
    ".nan", ".NaN",
    ".NAN", ".inf", ".Inf", ".INF", "+.inf", "+.Inf", "+.INF", "-.inf", "-.Inf", "-.INF"].map text

/-- Truth values as they were spelled once. -/
def formerWords : List Bytes :=
  ["y", "Y", "yes", "Yes", "YES", "on", "On", "ON", "n", "N", "no", "No", "NO", "off", "Off",
    "OFF"].map text

/-- The value of a digit in any base. -/
def digitValue (b : UInt8) : Nat :=
  if 0x30 ≤ b && b ≤ 0x39 then (b - 0x30).toNat
  else if 0x61 ≤ b && b ≤ 0x7A then (b - 0x57).toNat
  else if 0x41 ≤ b && b ≤ 0x5A then (b - 0x37).toNat
  else 36

/-- The number that digits of a base stand for. -/
def digits? (base : Nat) (s : Bytes) : Option Nat :=
  if s.isEmpty || s.any (fun b => base ≤ digitValue b) then none
  else some (s.foldl (fun n b => base * n + digitValue b) 0)

/-- The sign of a number and what follows it. -/
def sign (s : Bytes) : Option Bool × Bytes :=
  match s with
  | 0x2B :: rest => (some false, rest)
  | 0x2D :: rest => (some true, rest)
  | _ => (none, s)

/-- Whether a magnitude fits into 64 bits, with the sign or without one. -/
def fits (negative : Option Bool) (n : Nat) : Bool :=
  match negative with
  | none => n < UInt64.size
  | some false => n < 0x8000000000000000
  | some true => n ≤ 0x8000000000000000

/-- Whether digits of a base with a sign stand for a number of 64 bits. -/
def isWhole (base : Nat) (s : Bytes) : Bool :=
  let (negative, rest) := sign s
  (digits? base rest).any (fits negative)

/-- Whether a text is a whole number of 64 bits whose base is told by its first characters. -/
def isPrefixed (s : Bytes) : Bool :=
  let (negative, rest) := sign s
  let fit (base : Nat) (digits : Bytes) := (digits? base digits).any (fits negative)
  match rest with
  | [0x30] => true
  | 0x30 :: c :: digits =>
    if c = 0x78 || c = 0x58 then fit 16 digits
    else if c = 0x62 || c = 0x42 then fit 2 digits
    else if c = 0x6F || c = 0x4F then fit 8 digits
    else fit 8 (c :: digits)
  | _ => fit 10 rest

/-- Whether a text has a second sign after its base, which is taken for the sign of the number. -/
def isLateSigned (s : Bytes) : Bool :=
  match s with
  | 0x30 :: 0x62 :: digits => isWhole 2 digits
  | 0x30 :: 0x6F :: digits => isWhole 8 digits
  | _ => false

/-- Whether a text has the form of a decimal number. -/
def isDecimalForm (s : Bytes) : Bool :=
  let rest := (sign s).2
  let whole := rest.takeWhile Bytes.isDigit
  let after := rest.dropWhile Bytes.isDigit
  let (fraction, tail) :=
    match after with
    | 0x2E :: t => (some (t.takeWhile Bytes.isDigit), t.dropWhile Bytes.isDigit)
    | _ => (none, after)
  let hasDigits := ! whole.isEmpty || fraction.any (! List.isEmpty ·)
  let exponentOk :=
    match tail with
    | [] => true
    | e :: t =>
      let digits := (sign t).2
      (e = 0x65 || e = 0x45) && ! digits.isEmpty && digits.all Bytes.isDigit
  hasDigits && exponentOk

/-- Whether a text is a number that is not too large for 64 bits. -/
def isFinite (s : Bytes) : Bool :=
  match Numeral.read? s with
  | some n =>
    match n with
    | .finite .. => n.toFloat.isFinite
    | _ => true
  | none => false

/-- Whether a text is a number. -/
def isNumber (s : Bytes) : Bool :=
  let plain := s.filter (· != 0x5F)
  isPrefixed plain || (isDecimalForm plain && isFinite plain) || isLateSigned plain

/-- Whether a text is a number in base sixty, such as a time of day. -/
def isSexagesimal (s : Bytes) : Bool :=
  let digit (b : UInt8) := Bytes.isDigit b
  let loose (b : UInt8) := digit b || b == 0x5F
  match (sign s).2 with
  | [] => false
  | b :: rest =>
    let after := rest.dropWhile loose
    let (places, tail) := (after.takeWhile (· != 0x2E), after.dropWhile (· != 0x2E))
    let groups := Bytes.splitOn 0x3A places
    let place (p : Bytes) : Bool :=
      match p with
      | [d] => digit d
      | [t, d] => 0x30 ≤ t && t ≤ 0x35 && digit d
      | _ => false
    digit b && groups.head? = some [] && 2 ≤ groups.length && (groups.drop 1).all place &&
      (tail.drop 1).all loose

/-- One or two digits and what follows them. -/
def field (s : Bytes) : Option (Nat × Bytes) :=
  match s with
  | a :: b :: rest =>
    if ! Bytes.isDigit a then none
    else if Bytes.isDigit b then some (Bytes.toNat [a, b], rest)
    else some (Bytes.toNat [a], b :: rest)
  | [a] => if Bytes.isDigit a then some (Bytes.toNat [a], []) else none
  | [] => none

/-- What follows a certain byte. -/
def expect (b : UInt8) (s : Bytes) : Option Bytes :=
  match s with
  | c :: rest => if c = b then some rest else none
  | [] => none

/-- The number of days of a month. -/
def daysIn (year month : Nat) : Nat :=
  if month = 2 then if year % 4 = 0 ∧ (year % 100 ≠ 0 ∨ year % 400 = 0) then 29 else 28
  else if month = 4 ∨ month = 6 ∨ month = 9 ∨ month = 11 then 30
  else 31

/-- What follows the fraction of a second, if there is one. -/
def skipFraction (s : Bytes) : Bytes :=
  match s with
  | p :: d :: rest =>
    if (p = 0x2E || p = 0x2C) && Bytes.isDigit d then rest.dropWhile Bytes.isDigit else s
  | _ => s

/-- What follows a time of day. -/
def clock (s : Bytes) : Option Bytes := do
  let (hour, s) ← field s
  let (minute, s) ← field (← expect 0x3A s)
  let (second, s) ← field (← expect 0x3A s)
  if hour < 24 ∧ minute < 60 ∧ second < 60 then some (skipFraction s) else none

/-- Whether a text is the offset of a time zone. -/
def isZone (s : Bytes) : Bool :=
  match s with
  | [0x5A] => true
  | [sign, a, b, 0x3A, c, d] =>
    (sign = 0x2B || sign = 0x2D) && [a, b, c, d].all Bytes.isDigit &&
      Bytes.toNat [a, b] ≤ 24 && Bytes.toNat [c, d] ≤ 60
  | _ => false

/-- Whether a text is a date, with or without a time of day. -/
def isTime (s : Bytes) : Bool :=
  let year := s.takeWhile Bytes.isDigit
  let read : Option Bool := do
    if year.length ≠ 4 then none
    let (month, s) ← field (← expect 0x2D (s.drop 4))
    let (day, s) ← field (← expect 0x2D s)
    if month < 1 ∨ 12 < month ∨ day < 1 ∨ daysIn (Bytes.toNat year) month < day then none
    match s with
    | [] => some true
    | 0x20 :: rest => return (clock (rest.dropWhile (· == 0x20))) = some []
    | c :: rest => if c = 0x54 || c = 0x74 then return isZone (← clock rest) else none
  read.getD false

/-- Whether a text that is written without quotes is read as a text, by every reader. -/
def isText (s : Bytes) : Bool :=
  match s with
  | [] => false
  | b :: _ =>
    let numeric := Bytes.isDigit b || b == 0x2B || b == 0x2D
    ! (words.elem s || formerWords.elem s || (b == 0x2E && isFinite s) ||
      (numeric && (isTime s || isNumber s || isSexagesimal s)))

end Rill.Scalar
