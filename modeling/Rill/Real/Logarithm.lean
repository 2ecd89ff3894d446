import Rill.Real.Scaled

/-!
# The natural logarithm

For `x = 2 ^ k · (1 + f)` with `1 + f` between the square roots of one half and of two, the
logarithm is `k · log 2 + log (1 + f)`, and the second part is an even power series in `s = f / (2 +
f)` whose first seven coefficients are fitted to the interval. The order of the operations is part
of the result.

The fraction and the exponent are read off the bits (`fields`), where every number has a leading
one. A subnormal number has none, so it is taken for a number from `2 ^ -1023` up to `2 ^ -1022`
with the same fraction bits.
-/

namespace Rill.Real

/-- The fraction bits of a number behind a leading one, as a number between one half and one, and
its exponent. -/
def fields (x : Float) : Float × Int :=
  let bits := x.toBits
  (Float.ofBits ((bits &&& 0x000FFFFFFFFFFFFF) ||| 0x3FE0000000000000),
    (((bits >>> 52) &&& 0x7FF).toNat : Int) - 0x3FE)

/-- The natural logarithm of a positive finite number that is not subnormal. -/
def log (x : Float) : Float :=
  let (fraction, exponent) := fields x
  let low := fraction ≤ 7.07106781186547524401e-01
  let fraction := if low then fraction * 2 else fraction
  let k := Float.ofInt (if low then exponent - 1 else exponent)
  let f := fraction - 1
  let s := f / (2 + f)
  let s2 := s * s
  let s4 := s2 * s2
  let odd := s2 * (6.666666666666735130e-01 + s4 * (2.857142874366239149e-01 +
    s4 * (1.818357216161805012e-01 + s4 * 1.479819860511658591e-01)))
  let even := s4 * (3.999999999940941908e-01 + s4 * (2.222219843214978396e-01 +
    s4 * 1.531383769920937332e-01))
  let r := odd + even
  let half := 0.5 * f * f
  k * 6.93147180369123816490e-01 - ((half - (s * (half + r) + k * 1.90821492927058770002e-10)) - f)

end Rill.Real
