import Rill.Text.Bytes
import Rill.Decimal.Binary

/-!
# The fewest digits that read back

Among the decimal numbers that round to a given binary number there are some with the fewest digits,
and among those one is nearest to the binary number. `Digits.shortest` finds it by exact arithmetic
on natural numbers: the reals that round to `mantissa · 2 ^ exponent` form an interval, whose ends
belong to it exactly when the number is even in its last place; on the grid of decimals with one
digit, then two, and so on, the two neighbours of the number are tested against that interval.
-/

namespace Rill

/-- A decimal `0.d₁d₂…dₙ · 10 ^ point`, without a zero at either end of its digits; zero has no
digits. -/
structure Digits where
  /-- The digits, as ASCII bytes. -/
  digits : Bytes
  /-- Where the point stands. -/
  point : Int
  deriving DecidableEq, Repr

namespace Digits

/-- The fraction `num / den`, taken times `2 ^ exponent`. -/
def scale (num : Nat) (exponent : Int) : Nat × Nat :=
  if 0 ≤ exponent then (num <<< exponent.toNat, 1) else (num, 1 <<< exponent.natAbs)

/-- The least `k` with `num / den < 10 ^ k`, searched upward from `k`. -/
def orderUp (num den : Nat) : (fuel : Nat) → (k : Int) → Int
  | 0, k => k
  | fuel + 1, k =>
    let below : Bool :=
      if 0 ≤ k then num < den * Nat.pow 10 k.toNat else num * Nat.pow 10 k.natAbs < den
    if below then k else orderUp num den fuel (k + 1)

/-- A number below the least `k` with `num / den < 10 ^ k`, by at most four: it follows from the
lengths of the two numbers in binary, as `log₁₀ 2` is about `0.30103`. -/
def orderBelow (num den : Nat) : Int :=
  ((num.log2 : Int) - den.log2 - 1) * 30103 / 100000 - 1

/-- The decimal digits of `d` in a number of order `point`, without zeros at the end. -/
def ofGrid (d : Nat) (point : Int) : Digits :=
  let shown := Bytes.ofNat d
  ⟨Bytes.dropRight 0x30 shown, point⟩

/-- The number `value / den` on the grid of `n` digits: the nearest of the neighbours that lie
between `low` and `high`, both over `den`. The ends count when `closed` holds; of two equally near
ones the even one is taken. -/
def onGrid? (value low high den : Nat) (closed : Bool) (point : Int) (n : Nat) : Option Digits :=
  -- One step of the grid is `10 ^ (point - n)`. A number `d` of steps is compared as `d * unit`
  -- with the others taken times `factor`.
  let shift : Int := point - n
  let unit := if 0 ≤ shift then den * Nat.pow 10 shift.toNat else den
  let factor := if 0 ≤ shift then 1 else Nat.pow 10 shift.natAbs
  let inside (d : Nat) : Bool :=
    let x := d * unit
    let lo := low * factor
    let hi := high * factor
    if closed then lo ≤ x && x ≤ hi else lo < x && x < hi
  let target := value * factor
  let below := target / unit
  let above := below + 1
  let order (d : Nat) : Int := if d = Nat.pow 10 n then point + 1 else point
  let pick (d : Nat) : Option Digits := some (ofGrid d (order d))
  match inside below, inside above with
  | false, false => none
  | true, false => pick below
  | false, true => pick above
  | true, true =>
    let down := target - below * unit
    let up := above * unit - target
    if down < up then pick below
    else if up < down then pick above
    else if below % 2 = 0 then pick below else pick above

/-- The first hit on the grids of `n`, `n + 1`, … digits. -/
def search (value low high den : Nat) (closed : Bool) (point : Int) : (fuel n : Nat) → Digits
  | 0, n => ofGrid (value / den) (point + n)
  | fuel + 1, n =>
    match onGrid? value low high den closed point n with
    | some d => d
    | none => search value low high den closed point fuel (n + 1)

/-- The fewest digits that round to `mantissa · 2 ^ exponent`. -/
def shortest (mantissa : Nat) (exponent : Int) (even lonely : Bool) : Digits :=
  if mantissa = 0 then ⟨[], 0⟩
  else
    let (value, den) := scale (4 * mantissa) (exponent - 2)
    let (low, _) := scale (4 * mantissa - (if lonely then 1 else 2)) (exponent - 2)
    let (high, _) := scale (4 * mantissa + 2) (exponent - 2)
    let point := orderUp value den 8 (orderBelow value den)
    search value low high den even point 18 1

end Digits

end Rill
