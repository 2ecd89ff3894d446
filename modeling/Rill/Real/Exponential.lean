import Rill.Real.Scaled

/-!
# The exponential function

For `x = k · log 2 + r` the exponential is `2 ^ k · exp r`. The remainder `r` is divided by sixteen,
`exp - 1` of that is taken from the first eight terms of its power series, and doubling the argument
four times by `y ↦ y · (y + 2)` undoes the division. Every product that meets a sum is rounded once
with it.
-/

namespace Rill.Real

/-- The integer nearest to a number, a half to the even neighbour. -/
def nearestInteger (x : Float) : Int :=
  match Binary.ofFloat x with
  | .finite negative mantissa exponent _ _ =>
    let magnitude : Nat :=
      if 0 ≤ exponent then mantissa <<< exponent.toNat
      else
        let unit := 1 <<< exponent.natAbs
        let whole := mantissa / unit
        let part := mantissa % unit
        if 2 * part > unit ∨ (2 * part = unit ∧ whole % 2 = 1) then whole + 1 else whole
    if negative then -(magnitude : Int) else magnitude
  | _ => 0

/-- The coefficients of the power series of `(exp x - 1) / x` below the leading one, the smallest
first. -/
def expCoefficients : List Float :=
  [1.9841269841269841270e-4, 1.3888888888888888889e-3, 8.3333333333333333333e-3,
    4.1666666666666666667e-2, 1.6666666666666666667e-1, 0.5, 1.0]

/-- The exponential of a number that is small enough for the result to be neither huge nor tiny. -/
def exp (x : Float) : Float :=
  let n := nearestInteger (x * 1.4426950408889634073599246810018920)
  let k := Float.ofInt n
  let r := fused (-0.69314718055966295651160180568695068359375) k x
  let r := fused (-0.28235290563031577122588448175013436025525412068e-12) k r
  let r := r * 0.0625
  let series := expCoefficients.foldl (fun p c => fused r p c) 2.4801587301587301587e-5
  let y := r * series
  let y := y * (y + 2)
  let y := y * (y + 2)
  let y := y * (y + 2)
  shift (fused (y + 2) y 1) n

end Rill.Real
