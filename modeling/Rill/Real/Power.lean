import Rill.Real.Exponential
import Rill.Real.Logarithm

/-!
# Powers

`power x y` on binary fractions of 64 bits. The whole part of the exponent is handled by repeated
squaring of the fraction of `x`, with its power of two kept apart, and the rest by `exp (f · log
x)`.

`wrappingPower` is the power of whole numbers of 64 bits. It multiplies in a loop, and every product
wraps around.
-/

namespace Rill.Real

/-- Multiplies a result by `base` for so many rounds. Each product wraps around at 64 bits. -/
def multiplyRounds (base : Int64) : (rounds : Nat) → (result : Int64) → Int64
  | 0, result => result
  | rounds + 1, result => multiplyRounds base rounds (result * base)

/-- The power of a whole number: one, multiplied by `base` in `n` rounds. -/
def wrappingPower (base : Int64) (n : Nat) : Int64 := multiplyRounds base n 1

/-- Whether a number is an odd integer. -/
def isOdd (y : Float) : Bool :=
  match Binary.ofFloat y with
  | .finite _ mantissa exponent _ _ =>
    if 0 < exponent then false
    else
      let unit := 1 <<< exponent.natAbs
      mantissa % unit = 0 && mantissa / unit % 2 = 1
  | _ => false

/-- The whole part of a finite number that is not negative. -/
def wholePart (y : Float) : Nat :=
  (((Binary.ofFloat y).toInteger? .zero).getD 0).toNat

/-- Multiplies `a · 2 ^ e` by the `n`-th power of `x · 2 ^ d`. The fraction `x` is kept between one
half and one, and an exponent beyond all numbers ends the work. -/
def powerLoop : Nat → Nat → Float → Int → Float → Int → Float × Int
  | 0, _, a, e, _, _ => (a, e)
  | bits + 1, n, a, e, x, d =>
    if n = 0 then (a, e)
    else if d < -4096 ∨ 4096 < d then (a, e + d)
    else
      let (a, e) := if n % 2 = 1 then (a * x, e + d) else (a, e)
      let x := x * x
      let d := d * 2
      let (x, d) := if x < 0.5 then (x + x, d - 1) else (x, d)
      powerLoop bits (n / 2) a e x d

/-- The positive infinity. -/
def infinity : Float := 1 / 0

/-- What is not a number. -/
def notANumber : Float := 0 / 0

/-- The power of a finite number that is not zero with a finite exponent. -/
def finitePower (x y : Float) : Float :=
  let size := y.abs
  let whole := wholePart size
  let part := size - Float.ofNat whole
  if part != 0 && x < 0 then notANumber
  else if 0x8000000000000000 ≤ whole then
    if x == -1 then 1
    else if (x.abs < 1) == (0 < y) then 0
    else infinity
  else
    let (whole, part) := if 0.5 < part then (whole + 1, part - 1) else (whole, part)
    let start := if part == 0 then 1 else exp (part * log x)
    let (fraction, exponent) := split x
    let (a, e) := powerLoop 64 whole start 0 fraction exponent
    if y < 0 then shift (1 / a) (-e) else shift a e

/-- The power of zero with an exponent that is neither zero nor not a number. -/
def zeroPower (x y : Float) : Float :=
  let signed := isOdd y
  if y < 0 then if signed && 1 / x < 0 then -infinity else infinity
  else if signed then x else 0

/-- The power of a number. -/
def power (x y : Float) : Float :=
  if y == 0 || x == 1 then 1
  else if y == 1 then x
  else if x.isNaN || y.isNaN then notANumber
  else if x == 0 then zeroPower x y
  else if y.isInf then
    if x == -1 then 1
    else if (x.abs < 1) == (0 < y) then 0
    else infinity
  else if x.isInf then
    if x < 0 then zeroPower (-0.0) (-y)
    else if y < 0 then 0 else infinity
  else if y == 0.5 then x.sqrt
  else if y == -0.5 then 1 / x.sqrt
  else finitePower x y

end Rill.Real
