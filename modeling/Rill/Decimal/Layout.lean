import Rill.Decimal.Shortest

/-!
# Numbers as text

A `Layout` says how the digits of a number are written: for which magnitudes an exponent is used,
how many digits the exponent has at least, and whether a whole number shows a fraction.
`Layout.float` and `Layout.float32` write a number in a layout with the fewest digits that read
back.
-/

namespace Rill

/-- The decisions of a number format. -/
structure Layout where
  /-- With the number `d.ddd · 10 ^ x`, an exponent is written when `x < least`. -/
  least : Int
  /-- An exponent is also written when `x ≥ bound`. -/
  bound : Int
  /-- The least number of digits in an exponent. -/
  exponentDigits : Nat
  /-- Whether a number without point and exponent gets `.0`. -/
  showsFraction : Bool
  deriving DecidableEq, Repr

namespace Layout

/-- Numbers as values show them: `35.0`, `1e+06`, `1e-05`. -/
def shown : Layout := ⟨-4, 6, 2, true⟩

/-- Numbers with no fraction added: `35`, `1e+06`. -/
def plain : Layout := ⟨-4, 6, 2, false⟩

/-- Numbers in JSON documents: an exponent below `1e-6` and from `1e21` on. -/
def json : Layout := ⟨-6, 21, 1, false⟩

/-- The digits with a point and an exponent. -/
def scientific (digits : Bytes) (x : Int) (exponentDigits : Nat) : Bytes :=
  let first := digits.headD 0x30
  let others := digits.tail
  let sign := if x < 0 then text "-" else text "+"
  first :: (if others.isEmpty then [] else 0x2E :: others) ++ text "e" ++ sign ++
    Bytes.padLeft 0x30 exponentDigits (Bytes.ofNat x.natAbs)

/-- The digits with a point and no exponent. -/
def positional (d : Digits) : Bytes :=
  if d.point ≤ 0 then
    if d.digits.isEmpty then text "0"
    else text "0." ++ List.replicate d.point.natAbs 0x30 ++ d.digits
  else
    let whole := d.point.toNat
    let padded := d.digits ++ List.replicate (whole - d.digits.length) 0x30
    let fraction := padded.drop whole
    padded.take whole ++ (if fraction.isEmpty then [] else 0x2E :: fraction)

/-- A magnitude in a layout. -/
def magnitude (l : Layout) (d : Digits) : Bytes :=
  let x := if d.digits.isEmpty then 0 else d.point - 1
  if x < l.least ∨ x ≥ l.bound then scientific d.digits x l.exponentDigits
  else
    let body := positional d
    if l.showsFraction && body.all (· != 0x2E) then body ++ text ".0" else body

/-- A binary number in a layout. -/
def render (l : Layout) : Binary → Bytes
  | .nan => text "NaN"
  | .infinite negative => if negative then text "-Inf" else text "+Inf"
  | .finite negative mantissa exponent even lonely =>
    let body := l.magnitude (Digits.shortest mantissa exponent even lonely)
    if negative then 0x2D :: body else body

/-- A number of 64 bits in a layout. -/
def float (l : Layout) (x : Float) : Bytes := l.render (.ofFloat x)

/-- A number of 32 bits in a layout. -/
def float32 (l : Layout) (x : Float32) : Bytes := l.render (.ofFloat32 x)

end Layout

end Rill
