import Rill.Text.Bytes

/-!
# Numbers from text

`Numeral.read?` reads the text of a number: an optional sign, then digits, or one of the words for
an infinity and for what is no number. Decimal digits have an optional point and an optional
exponent of ten. Hexadecimal digits stand behind `0x`, have an optional point, and an exponent of
two always follows them. Underscores can stand between digits. The value is kept exactly, so that
`Numeral.toFloat` and `Numeral.toFloat32` round once.
-/

namespace Rill

/-- The exact value of a number's text. -/
inductive Numeral where
  /-- Not a number. -/
  | nan
  /-- An infinity with its sign. -/
  | infinite (negative : Bool)
  /-- The number `± mantissa · 10 ^ exponent`. -/
  | finite (negative : Bool) (mantissa : Nat) (exponent : Int)
  deriving DecidableEq, Repr

namespace Numeral

/-- The magnitude `mantissa · 10 ^ exponent` without the digits that no binary number could show:
beyond these bounds every number is too large, or rounds to zero. -/
def clamp (mantissa : Nat) (exponent : Int) : Nat × Int :=
  let size : Int := (Bytes.ofNat mantissa).length
  if mantissa = 0 then (0, 0)
  else if exponent + size > 400 then (1, 400)
  else if exponent + size < -400 then (0, 0)
  else (mantissa, exponent)

/-- The nearest number of 64 bits. -/
def toFloat : Numeral → Float
  | nan => 0.0 / 0.0
  | infinite negative => if negative then -1.0 / 0.0 else 1.0 / 0.0
  | finite negative mantissa exponent =>
    let (m, e) := clamp mantissa exponent
    let x := Float.ofScientific m (e < 0) e.natAbs
    if negative then -x else x

/-- The nearest number of 32 bits. -/
def toFloat32 : Numeral → Float32
  | nan => 0.0 / 0.0
  | infinite negative => if negative then -1.0 / 0.0 else 1.0 / 0.0
  | finite negative mantissa exponent =>
    let (m, e) := clamp mantissa exponent
    let x := Float32.ofScientific m (e < 0) e.natAbs
    if negative then -x else x

/-- The number `± mantissa · 2 ^ exponent`, as `mantissa · 5 ^ k · 10 ^ -k` when the exponent is
`-k`. Beyond the bounds every number is too large, or rounds to zero. -/
def ofBinary (negative : Bool) (mantissa : Nat) (exponent : Int) : Numeral :=
  let size : Int := mantissa.log2 + exponent
  if mantissa = 0 ∨ size < -1200 then finite negative 0 0
  else if 1200 < size then finite negative 1 400
  else if 0 ≤ exponent then finite negative (mantissa <<< exponent.toNat) 0
  else finite negative (mantissa * Nat.pow 5 exponent.natAbs) exponent

/-- Whether a byte is a hexadecimal digit. -/
def isHexDigit (b : UInt8) : Bool := (Bytes.hexValue? b).isSome

/-- The number that a run of hexadecimal digits stands for. -/
def ofHexDigits (s : Bytes) : Nat :=
  s.foldl (fun n b => 16 * n + ((Bytes.hexValue? b).getD 0).toNat) 0

/-- Whether every underscore stands between two digits. `digitBefore` says that a digit precedes the
text. -/
def isGrouped (isDigit : UInt8 → Bool) : (digitBefore : Bool) → Bytes → Bool
  | _, [] => true
  | digitBefore, b :: rest =>
    if b = 0x5F then digitBefore && rest.head?.any isDigit && isGrouped isDigit false rest
    else isGrouped isDigit (isDigit b) rest

/-- The digits before and after the point, and what follows them. -/
def parts (isDigit : UInt8 → Bool) (s : Bytes) : Bytes × Bytes × Bytes :=
  match s.dropWhile isDigit with
  | 0x2E :: after => (s.takeWhile isDigit, after.takeWhile isDigit, after.dropWhile isDigit)
  | after => (s.takeWhile isDigit, [], after)

/-- The exponent behind a letter, which is given in lower case and can be in either. -/
def exponent? (letter : UInt8) : Bytes → Option Int
  | [] => none
  | e :: s =>
    if e = letter ∨ e = letter - 0x20 then
      let (negative, s) :=
        match s with
        | 0x2D :: s' => (true, s')
        | 0x2B :: s' => (false, s')
        | _ => (false, s)
      if s.isEmpty || !s.all Bytes.isDigit then none
      else some (if negative then -(Bytes.toNat s : Int) else Bytes.toNat s)
    else none

/-- A number in decimal digits. -/
def decimal? (negative : Bool) (s : Bytes) : Option Numeral :=
  let (whole, fraction, rest) := parts Bytes.isDigit (s.filter (· != 0x5F))
  if ! isGrouped Bytes.isDigit false s || (whole.isEmpty && fraction.isEmpty) then none
  else
    (if rest.isEmpty then some 0 else exponent? 0x65 rest).map fun e =>
      finite negative (Bytes.toNat (whole ++ fraction)) (e - fraction.length)

/-- A number in hexadecimal digits, without the mark of the base. An underscore can follow the
mark. -/
def hexadecimal? (negative : Bool) (s : Bytes) : Option Numeral :=
  let (whole, fraction, rest) := parts isHexDigit (s.filter (· != 0x5F))
  if ! isGrouped isHexDigit true s || (whole.isEmpty && fraction.isEmpty) then none
  else
    (exponent? 0x70 rest).map fun e =>
      ofBinary negative (ofHexDigits (whole ++ fraction)) (e - 4 * fraction.length)

/-- A number without a sign. -/
def magnitude? (negative : Bool) (s : Bytes) : Option Numeral :=
  let word := Bytes.toLower s
  if word = text "inf" ∨ word = text "infinity" then some (infinite negative)
  else
    match s with
    | 0x30 :: x :: digits =>
      if x = 0x78 ∨ x = 0x58 then hexadecimal? negative digits else decimal? negative s
    | _ => decimal? negative s

/-- The number that a text stands for. -/
def read? (s : Bytes) : Option Numeral :=
  if Bytes.toLower s = text "nan" then some nan
  else
    match s with
    | 0x2D :: s' => magnitude? true s'
    | 0x2B :: s' => magnitude? false s'
    | _ => magnitude? false s

end Numeral

/-- The number that decimal digits with an optional sign stand for. -/
def readInt? (s : Bytes) : Option Int :=
  let (negative, digits) :=
    match s with
    | 0x2D :: s' => (true, s')
    | 0x2B :: s' => (false, s')
    | _ => (false, s)
  if digits.isEmpty || !digits.all Bytes.isDigit then none
  else some (if negative then -(Bytes.toNat digits : Int) else Bytes.toNat digits)

end Rill
