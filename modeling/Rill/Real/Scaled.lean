import Rill.Decimal.Binary

/-!
# Scaled numbers

Binary fractions of 64 bits as `mantissa · 2 ^ exponent`, exactly. `scaled` goes back with a single
rounding to the nearest number, a tie to the one with an even last place. `fused` is a product and a
sum with one rounding.
-/

namespace Rill.Real

/-- The bits of the number nearest to `mantissa · 2 ^ exponent`, without its sign. -/
def scaledBits (mantissa : Nat) (exponent : Int) : Nat :=
  if mantissa = 0 then 0
  else
    let place : Int := max (exponent + mantissa.log2 - 52) (-1074)
    let kept :=
      if place ≤ exponent then mantissa <<< (exponent - place).toNat
      else
        let unit := 1 <<< (place - exponent).toNat
        let whole := mantissa / unit
        let part := mantissa % unit
        if 2 * part > unit ∨ (2 * part = unit ∧ whole % 2 = 1) then whole + 1 else whole
    -- A mantissa that was rounded up to the next power of two carries into the exponent.
    if kept < 1 <<< 52 then kept
    else
      let bits := ((place + 1074).toNat <<< 52) + kept
      min bits (2047 <<< 52)

/-- The number nearest to `± mantissa · 2 ^ exponent`. -/
def scaled (negative : Bool) (mantissa : Nat) (exponent : Int) : Float :=
  let magnitude := Float.ofBits (scaledBits mantissa exponent).toUInt64
  if negative then -magnitude else magnitude

/-- `x · y + z`, rounded once. -/
def fused (x y z : Float) : Float :=
  match Binary.ofFloat x, Binary.ofFloat y, Binary.ofFloat z with
  | .finite nx mx ex _ _, .finite ny my ey _ _, .finite nz mz ez _ _ =>
    let least := min (ex + ey) ez
    let signed (negative : Bool) (m : Nat) : Int := if negative then -(m : Int) else m
    let sum := signed (nx != ny) ((mx * my) <<< (ex + ey - least).toNat) +
      signed nz (mz <<< (ez - least).toNat)
    if sum = 0 then x * y + z else scaled (sum < 0) sum.natAbs least
  | _, _, _ => x * y + z

/-- A number as a fraction between one half and one, and the exponent of the power of two that it is
multiplied by. Zero and what is not finite stand for themselves. -/
def split (x : Float) : Float × Int :=
  match Binary.ofFloat x with
  | .finite negative mantissa exponent _ _ =>
    if mantissa = 0 then (x, 0)
    else
      let size : Int := mantissa.log2 + 1
      (scaled negative mantissa (-size), exponent + size)
  | _ => (x, 0)

/-- `x · 2 ^ n`, rounded once. -/
def shift (x : Float) (n : Int) : Float :=
  match Binary.ofFloat x with
  | .finite negative mantissa exponent _ _ => scaled negative mantissa (exponent + n)
  | _ => x

end Rill.Real
