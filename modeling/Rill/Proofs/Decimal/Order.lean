import Mathlib
import Rill.Decimal.Binary

/-!
# Order of binary numbers

Numbers of 64 bits are compared by sign, then by exponent, then by mantissa. What is not a number
stands in no order with anything, and both zeros stand at the same place.

* `Binary.lt_iff_standing_lt`: one number is less than another exactly if both are numbers and it
  stands before the other in a linear order.
* `Binary.isStrictWeakOrder_lt`, `Binary.isStrictWeakOrder_gt`: so comparison is a strict weak order
  where all are numbers.
-/

namespace Rill.Binary

open Float.Model

/-- Where an unpacked number stands: first by its sign and whether it is finite, then by its
exponent, then by its mantissa. -/
def unpackedStanding : UnpackedFloat → ℤ ×ₗ ℤ ×ₗ ℤ
  | .infinity .negative => toLex (-2, toLex (0, 0))
  | .finite .negative mantissa exponent _ => toLex (-1, toLex (-exponent, -mantissa))
  | .zero _ | .notANumber => toLex (0, toLex (0, 0))
  | .finite .positive mantissa exponent _ => toLex (1, toLex (exponent, mantissa))
  | .infinity .positive => toLex (2, toLex (0, 0))

/-- Numbers compared by exponent and then by significand, with the first one less. -/
theorem then_eq_lt_iff {e e' : Int} {m m' : Nat} :
    (compare e e').then (compare m m') = .lt ↔ e < e' ∨ e = e' ∧ m < m' := by
  rw [Ordering.then_eq_lt, compare_lt_iff_lt, compare_eq_iff_eq, compare_lt_iff_lt]

/-- Numbers compared by exponent and then by significand, with the first one greater. -/
theorem then_eq_gt_iff {e e' : Int} {m m' : Nat} :
    (compare e e').then (compare m m') = .gt ↔ e' < e ∨ e = e' ∧ m' < m := by
  rw [Ordering.then_eq_gt, compare_gt_iff_gt, compare_eq_iff_eq, compare_gt_iff_gt]

theorem negative_compare_positive : compare UnpackedFloat.Sign.negative .positive = .lt := rfl

/-- Unpacked numbers are less by their standing, unless one of them is not a number. -/
theorem unpacked_lt_iff (a b : UnpackedFloat) : a.lt b = true ↔
    a ≠ .notANumber ∧ b ≠ .notANumber ∧ unpackedStanding a < unpackedStanding b := by
  rw [UnpackedFloat.lt, beq_iff_eq]
  -- Only two finite numbers of one sign are compared by more than their signs.
  rcases a with ⟨_ | _⟩ | _ | _ | ⟨_ | _, m, e, _⟩ <;> rcases b with ⟨_ | _⟩ | _ | _ | ⟨_ | _,
    m', e', _⟩ <;>
    simp [UnpackedFloat.compare, unpackedStanding, Prod.Lex.toLex_lt_toLex, then_eq_lt_iff,
      then_eq_gt_iff, negative_compare_positive]

/-- Where a number stands. -/
def standing (x : Float) : ℤ ×ₗ ℤ ×ₗ ℤ := unpackedStanding x.toModel.unpack

/-- Numbers are less by their standing, unless one of them is not a number. -/
theorem lt_iff_standing_lt {x y : Float} :
    x < y ↔ x.isNaN = false ∧ y.isNaN = false ∧ standing x < standing y := by
  have hnumber (z : Float) : z.isNaN = false ↔ z.toModel.unpack ≠ .notANumber := by
    rw [ne_eq, ← UnpackedFloat.isNaN_iff, Bool.not_eq_true]
    rfl
  rw [hnumber, hnumber, standing, standing, ← unpacked_lt_iff]
  exact decide_eq_true_iff (p := x.toModel < y.toModel)

section StrictWeak

variable {xs : List Float} (hxs : ∀ x ∈ xs, x.isNaN = false)

include hxs

/-- Among numbers, less is the order of where they stand. -/
theorem lt_eq_onFun : (fun x y : {x // x ∈ xs} => decide (x.1 < y.1) = true) =
    Function.onFun (· < ·) fun x : {x // x ∈ xs} => standing x.1 := by
  funext x y
  rw [decide_eq_true_iff, lt_iff_standing_lt, eq_iff_iff]
  exact ⟨fun h => h.2.2, fun h => ⟨hxs x x.2, hxs y y.2, h⟩⟩

/-- Numbers other than the one that is not a number are weakly ordered by being less. -/
theorem isStrictWeakOrder_lt :
    IsStrictWeakOrder {x // x ∈ xs} fun x y => decide (x.1 < y.1) = true := by
  have hstanding : IsStrictWeakOrder (ℤ ×ₗ ℤ ×ₗ ℤ) (· < ·) := isStrictWeakOrder_of_isOrderConnected
  rw [lt_eq_onFun hxs]
  infer_instance

/-- Numbers other than the one that is not a number are weakly ordered by being greater. -/
theorem isStrictWeakOrder_gt :
    IsStrictWeakOrder {x // x ∈ xs} fun x y => decide (y.1 < x.1) = true := by
  have hlt := isStrictWeakOrder_lt hxs
  exact inferInstanceAs (IsStrictWeakOrder _ (Function.swap fun x y : {x // x ∈ xs} =>
    decide (x.1 < y.1) = true))

end StrictWeak

end Rill.Binary
