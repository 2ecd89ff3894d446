import Rill.Outline.Scalar

/-!
# Scalars of settings files

Strings, numbers and times as TOML writes them. A reader takes the bytes that follow the start of a
scalar and gives the scalar with what follows it; without a result the scalar is malformed.
-/

namespace Rill.Toml

/-- Whether a byte is a blank or a tab. -/
def isBlank (b : UInt8) : Bool := b == 0x20 || b == 0x09

/-- Whether a byte ends a line. -/
def isNewline (b : UInt8) : Bool := b == 0x0A || b == 0x0D

/-- The UTF-8 form of a character that is given in hexadecimal. -/
def unicode? (digits : Bytes) : Option Bytes := do
  let c ← Scalar.digits? 16 digits
  if c < 0xD800 ∨ (0xE000 ≤ c ∧ c < 0x110000) then some (encodeRune c) else none

/-- What the letter after a backslash stands for, if it needs no digits. -/
def escape? (b : UInt8) : Option UInt8 :=
  if b = Bytes.ascii 'b' then some 0x08
  else if b = Bytes.ascii 't' then some 0x09
  else if b = Bytes.ascii 'n' then some 0x0A
  else if b = Bytes.ascii 'f' then some 0x0C
  else if b = Bytes.ascii 'r' then some 0x0D
  else if b = Bytes.ascii 'e' then some 0x1B
  else if b = 0x22 then some 0x22
  else if b = 0x5C then some 0x5C
  else none

/-- Puts bytes in front of a string that was read. -/
def prepend (s : Bytes) (r : Option (Bytes × Bytes)) : Option (Bytes × Bytes) :=
  r.map fun (t, rest) => (s ++ t, rest)

/-- The quotes that a text starts with. -/
def quoteRun (quote : UInt8) (s : Bytes) : Nat := (s.takeWhile (· == quote)).length

/-- Whether nothing but blanks stands before the end of the line. -/
def blankLine (s : Bytes) : Bool := (s.dropWhile isBlank).head?.any isNewline

/-- A string after its opening quotes. With `long` it has three quotes and can go over several
lines; `skips` says that white space is passed over, as after a backslash at the end of a line. -/
def basic (long skips : Bool) : Bytes → Option (Bytes × Bytes)
  | [] => none
  | 0x22 :: rest =>
    if ! long then some ([], rest)
    else
      let run := quoteRun 0x22 (0x22 :: rest)
      if run < 3 then prepend [0x22] (basic long false rest)
      else if run < 6 then some (List.replicate (run - 3) 0x22, rest.drop (run - 1))
      else none
  | 0x5C :: rest =>
    match rest with
    | 0x75 :: a :: b :: c :: d :: rest' => do
      prepend (← unicode? [a, b, c, d]) (basic long false rest')
    | 0x55 :: a :: b :: c :: d :: e :: f :: g :: h :: rest' => do
      prepend (← unicode? [a, b, c, d, e, f, g, h]) (basic long false rest')
    | 0x78 :: a :: b :: rest' => do prepend (← unicode? [a, b]) (basic long false rest')
    | b :: rest' =>
      if long && blankLine rest then basic long true rest'
      else do prepend [← escape? b] (basic long false rest')
    | [] => none
  | b :: rest =>
    if isNewline b && ! long then none
    else if skips && (isBlank b || isNewline b) then basic long true rest
    else prepend [b] (basic long false rest)

/-- A string without escapes after its opening quotes. -/
def literal (long : Bool) : Bytes → Option (Bytes × Bytes)
  | [] => none
  | 0x27 :: rest =>
    if ! long then some ([], rest)
    else
      let run := quoteRun 0x27 (0x27 :: rest)
      if run < 3 then prepend [0x27] (literal long rest)
      else if run < 6 then some (List.replicate (run - 3) 0x27, rest.drop (run - 1))
      else none
  | b :: rest => if isNewline b && ! long then none else prepend [b] (literal long rest)

/-- A text without the line break that it starts with. -/
def dropNewline : Bytes → Bytes
  | 0x0A :: rest => rest
  | 0x0D :: 0x0A :: rest => rest
  | s => s

/-- Whether digits have underscores between digits only. -/
def isGrouped (isDigit : UInt8 → Bool) (s : Bytes) : Bool :=
  (Bytes.splitOn 0x5F s).all fun group => ! group.isEmpty && group.all isDigit

/-- Whether digits are a whole number without leading zeros. -/
def isCount (s : Bytes) : Bool :=
  isGrouped Bytes.isDigit s && (s.head? != some 0x30 || s.length == 1)

/-- Whether a text is a whole number of 64 bits. -/
def isInteger (s : Bytes) : Bool :=
  let (negative, digits) := Scalar.sign s
  let plain := digits.filter (· != 0x5F)
  let based (base : Nat) (digits : Bytes) : Bool :=
    negative.isNone && isGrouped (fun b => Scalar.digitValue b < base) digits &&
      (Scalar.digits? base (digits.filter (· != 0x5F))).any (· < 0x8000000000000000)
  match digits with
  | 0x30 :: 0x78 :: hex => based 16 hex
  | 0x30 :: 0x6F :: octal => based 8 octal
  | 0x30 :: 0x62 :: binary => based 2 binary
  | _ => isCount digits && Scalar.fits (some (negative.getD false)) (Bytes.toNat plain)

/-- Whether a text is a number with a fraction or an exponent. -/
def isFloat (s : Bytes) : Bool :=
  let digits := (Scalar.sign s).2
  if digits = text "inf" || digits = text "nan" then true
  else
    let inMantissa := fun b => b != 0x65 && b != 0x45
    let mantissa := digits.takeWhile inMantissa
    let exponentOk :=
      match digits.dropWhile inMantissa with
      | [] => true
      | _ :: exponent => isGrouped Bytes.isDigit (Scalar.sign exponent).2
    let isFraction := digits.any fun b => b == 0x2E || ! inMantissa b
    let mantissaOk :=
      match Bytes.cut 0x2E mantissa with
      | none => isCount mantissa
      | some (whole, fraction) => isCount whole && isGrouped Bytes.isDigit fraction
    isFraction && mantissaOk && exponentOk && Scalar.isFinite (s.filter (· != 0x5F))

/-- Two digits and what follows them. -/
def pair? : Bytes → Option (Nat × Bytes)
  | a :: b :: rest =>
    if Bytes.isDigit a && Bytes.isDigit b then some (Bytes.toNat [a, b], rest) else none
  | _ => none

/-- What follows a time of day; the seconds can be left out. -/
def clock (s : Bytes) : Option Bytes := do
  let (hour, s) ← pair? s
  let (minute, s) ← pair? (← Scalar.expect 0x3A s)
  if 24 ≤ hour ∨ 60 ≤ minute then none
  match s with
  | 0x3A :: rest =>
    let (second, rest) ← pair? rest
    if 60 ≤ second then none
    return Scalar.skipFraction rest
  | _ => return s

/-- What follows a date. -/
def date (s : Bytes) : Option Bytes := do
  let year := s.take 4
  if year.length < 4 || ! year.all Bytes.isDigit then none
  let (month, s) ← pair? (← Scalar.expect 0x2D (s.drop 4))
  let (day, s) ← pair? (← Scalar.expect 0x2D s)
  if month < 1 ∨ 12 < month ∨ day < 1 ∨ Scalar.daysIn (Bytes.toNat year) month < day then none
  return s

/-- Whether a text is a date, a time, or both with or without a zone. -/
def isMoment (raw : Bytes) : Bool :=
  let s := raw.map fun b => if b = 0x7A then 0x5A else if b = 0x74 || b = 0x20 then 0x54 else b
  match date s with
  | some [] => true
  | some (0x54 :: rest) => (clock rest).any fun zone => zone.isEmpty || Scalar.isZone zone
  | some _ => false
  | none => clock s == some []

/-- The bytes that a date or a time can have. -/
def inMoment (b : UInt8) : Bool := Bytes.isDigit b || (text "-:Tt .Zz+").elem b

/-- The bytes that a number can have. -/
def inNumber (b : UInt8) : Bool := Bytes.isDigit b || Bytes.isLetter b || (text "_+-.").elem b

/-- What follows a number, a time or a truth value. -/
def plain (s : Bytes) : Option Bytes :=
  let after := s.dropWhile Bytes.isDigit
  if after.length < s.length && (after.head? == some 0x2D || after.head? == some 0x3A) then
    let run := s.takeWhile inMoment
    if isMoment (Bytes.dropRight 0x20 run) then some (s.dropWhile inMoment) else none
  else
    let word := s.takeWhile inNumber
    if word = text "true" || word = text "false" || isInteger word || isFloat word then
      some (s.dropWhile inNumber)
    else none

end Rill.Toml
