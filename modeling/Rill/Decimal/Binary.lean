/-!
# Binary numbers taken apart

A number of 32 or 64 bits is not a number, infinite, or `± mantissa · 2 ^ exponent` with natural
mantissa. `Binary` holds these parts exactly, so that whatever is said about a number's digits or
its rounding to an integer is arithmetic on integers.

* `Binary.ofFloat`, `Binary.ofFloat32` take a number apart.
* `Binary.widen` puts a number of 32 bits together again in 64 bits, where every one of them has a
  place.
* `Binary.toInteger?` gives the integer that a number is rounded to, if there is one.
-/

namespace Rill

/-- The parts of a binary number. -/
inductive Binary where
  /-- Not a number. -/
  | nan
  /-- An infinity with its sign. -/
  | infinite (negative : Bool)
  /-- The number `± mantissa · 2 ^ exponent`; `even` says whether its last place holds a zero, and
  `lonely` whether the gap to the next smaller number is half as wide as to the next larger. -/
  | finite (negative : Bool) (mantissa : Nat) (exponent : Int) (even lonely : Bool)
  deriving DecidableEq, Repr

namespace Binary

/-- The parts of a bit pattern with `fractionBits` bits of fraction and `exponentBits` bits of
exponent. -/
def ofBits (fractionBits exponentBits : Nat) (bits : Nat) : Binary :=
  let fraction := bits % (1 <<< fractionBits)
  let biased := (bits >>> fractionBits) % (1 <<< exponentBits)
  let negative := (bits >>> (fractionBits + exponentBits)) % 2 == 1
  let bias : Int := ((1 <<< (exponentBits - 1) : Nat) : Int) - 1
  if biased = (1 <<< exponentBits) - 1 then
    if fraction = 0 then infinite negative else nan
  else if biased = 0 then
    finite negative fraction (1 - bias - fractionBits) (fraction % 2 == 0) false
  else
    finite negative (fraction + (1 <<< fractionBits)) (biased - bias - fractionBits)
      (fraction % 2 == 0) (fraction == 0 && biased > 1)

/-- The parts of a number of 64 bits. -/
def ofFloat (x : Float) : Binary := ofBits 52 11 x.toBits.toNat

/-- The parts of a number of 32 bits. -/
def ofFloat32 (x : Float32) : Binary := ofBits 23 8 x.toBits.toNat

/-- The bits of a number of 64 bits with a sign, an exponent field and a fraction. -/
def pattern (negative : Bool) (biased fraction : Nat) : Nat :=
  (if negative then 1 <<< 63 else 0) + (biased <<< 52) + fraction

/-- The bits of the parts in 64 bits. The mantissa has at most 53 bits, and its leading one a place
among those of the normal numbers. -/
def toBits : Binary → Nat
  | nan => pattern false 2047 (1 <<< 51)
  | infinite negative => pattern negative 2047 0
  | finite negative mantissa exponent _ _ =>
    if mantissa = 0 then pattern negative 0 0
    else
      -- The leading one of the mantissa is not stored.
      let lead := mantissa.log2
      pattern negative (exponent + lead + 1023).toNat ((mantissa <<< (52 - lead)) - (1 <<< 52))

/-- A number of 32 bits in 64 bits. -/
def widen (x : Float32) : Float := Float.ofBits (UInt64.ofNat (ofFloat32 x).toBits)

/-- How the part of a magnitude behind the point is dropped. -/
inductive Rounding where
  /-- Toward minus infinity. -/
  | down
  /-- Toward plus infinity. -/
  | up
  /-- To the nearest integer, a half away from zero. -/
  | nearest
  /-- Toward zero. -/
  | zero
  deriving DecidableEq, Repr

/-- The integer nearest to `± mantissa · 2 ^ exponent` in the direction of `mode`. -/
def toInteger (mode : Rounding) (negative : Bool) (mantissa : Nat) (exponent : Int) : Int :=
  let signed (n : Nat) : Int := if negative then -(n : Int) else n
  if 0 ≤ exponent then signed (mantissa <<< exponent.toNat)
  else
    let unit := 1 <<< exponent.natAbs
    let whole := mantissa / unit
    let part := mantissa % unit
    let grows : Bool :=
      match mode with
      | .down => negative && part != 0
      | .up => !negative && part != 0
      | .nearest => 2 * part ≥ unit
      | .zero => false
    signed (if grows then whole + 1 else whole)

/-- The integer that a finite number rounds to. -/
def toInteger? (mode : Rounding) : Binary → Option Int
  | finite negative mantissa exponent _ _ => some (toInteger mode negative mantissa exponent)
  | _ => none

end Binary

end Rill
