import Mathlib
import Rill.Builtin.Math

/-!
# Powers of whole numbers

The power of whole numbers is computed by a loop of as many multiplications as the exponent says,
and every product on the way wraps around at 64 bits. So what each round keeps is a congruence: the
result is the exact power modulo `2 ^ 64`.

* `Real.toInt_mul_modEq`, `Real.toInt_multiplyRounds_modEq`: what one round keeps, and what all
  keep.
* `Real.wrappingPower_eq`: the power of a whole number is the exact one, brought into 64 bits.
* `Builtin.pow_exact`: the builtin gives the number of 64 bits that is congruent to the exact power,
  and sums of exponents become products in the arithmetic of the language.
-/

namespace Rill

/-! ## Whole numbers modulo `2 ^ 64` -/

theorem toInt_ofInt_modEq (x : Int) : (Int64.ofInt x).toInt ≡ x [ZMOD 2 ^ 64] := by
  rw [Int64.toInt_ofInt]
  exact Int.bmod_emod

/-- Integers that are congruent are the same whole number of 64 bits. -/
theorem ofInt_eq_of_modEq {x y : Int} (h : x ≡ y [ZMOD 2 ^ 64]) :
    Int64.ofInt x = Int64.ofInt y := by
  rw [← Int64.toInt_inj, Int64.toInt_ofInt, Int64.toInt_ofInt, ← Int.emod_bmod x, ← Int.emod_bmod y]
  exact congrArg (Int.bmod · _) h

namespace Real

/-- One round: the product wraps around, and stays congruent to the exact product. -/
theorem toInt_mul_modEq (result base : Int64) :
    (result * base).toInt ≡ result.toInt * base.toInt [ZMOD 2 ^ 64] := by
  rw [Int64.toInt_mul]
  exact Int.bmod_emod

/-- All rounds: what comes out is congruent to the start times the exact power. The exact product
and the one that is kept drift apart with the first round that wraps around, so only the congruence
goes through. -/
theorem toInt_multiplyRounds_modEq (base : Int64) (rounds : Nat) (result : Int64) :
    (multiplyRounds base rounds result).toInt ≡ result.toInt *
      base.toInt ^ rounds [ZMOD 2 ^ 64] := by
  induction rounds generalizing result with
  | zero =>
    rw [multiplyRounds, pow_zero, mul_one]
  | succ rounds ih =>
    rw [multiplyRounds]
    calc (multiplyRounds base rounds (result * base)).toInt
      _ ≡ (result * base).toInt * base.toInt ^ rounds [ZMOD 2 ^ 64] := ih (result * base)
      _ ≡ result.toInt * base.toInt * base.toInt ^ rounds [ZMOD 2 ^ 64] :=
        (toInt_mul_modEq result base).mul_right _
      _ = result.toInt * base.toInt ^ (rounds + 1) := by rw [mul_assoc, pow_succ']

/-- The power of a whole number is congruent to the exact one. -/
theorem toInt_wrappingPower_modEq (base : Int64) (n : Nat) :
    (wrappingPower base n).toInt ≡ base.toInt ^ n [ZMOD 2 ^ 64] := by
  have hrounds := toInt_multiplyRounds_modEq base n 1
  rwa [show (1 : Int64).toInt = 1 from rfl, one_mul] at hrounds

/-- The power of a whole number is the exact one, brought into 64 bits. -/
theorem wrappingPower_eq (base : Int64) (n : Nat) :
    wrappingPower base n = Int64.ofInt (base.toInt ^ n) := by
  rw [← ofInt_eq_of_modEq (toInt_wrappingPower_modEq base n), Int64.ofInt_toInt]

end Real

namespace Builtin

theorem pow_integers {n : Int64} (hn : 0 ≤ n) (a : Int64) :
    pow [.integer a, .integer n] = .integer (Int64.ofInt (a.toInt ^ n.toInt.toNat)) := by
  rw [← Real.wrappingPower_eq]
  exact if_pos hn

/-- Exponents whose sum is a whole number of 64 bits add up as integers do. -/
theorem toInt_add_of_lt {m n : Int64} (hm : 0 ≤ m) (hn : 0 ≤ n)
    (hsum : m.toInt + n.toInt < 2 ^ 63) :
    (m + n).toInt = m.toInt + n.toInt := by
  have hm : 0 ≤ m.toInt := Int64.le_iff_toInt_le.mp hm
  have hn : 0 ≤ n.toInt := Int64.le_iff_toInt_le.mp hn
  rw [Int64.toInt_add]
  exact Int.bmod_eq_of_le (by omega) (by omega)

/-- The power of a whole number with an exponent that is not negative is the whole number of 64 bits
that is congruent to the exact power modulo `2 ^ 64`; so it is the exact power wherever that has 64
bits. A power with a sum as its exponent is the product of the powers. -/
theorem pow_exact (a : Int64) :
    (∀ n : Int64, 0 ≤ n → ∃ r : Int64, pow [.integer a, .integer n] = .integer r ∧
      r.toInt ≡ a.toInt ^ n.toInt.toNat [ZMOD 2 ^ 64] ∧ -2 ^ 63 ≤ r.toInt ∧ r.toInt < 2 ^ 63 ∧
      (-2 ^ 63 ≤ a.toInt ^ n.toInt.toNat ∧ a.toInt ^ n.toInt.toNat < 2 ^ 63 →
        r.toInt = a.toInt ^ n.toInt.toNat)) ∧
    ∀ m n : Int64, 0 ≤ m → 0 ≤ n → m.toInt + n.toInt < 2 ^ 63 →
      pow [.integer a, Value.infixed .add (.integer m) (.integer n)] =
        Value.infixed .mul (pow [.integer a, .integer m]) (pow [.integer a, .integer n]) := by
  refine ⟨fun n hn => ?_, fun m n hm hn hsum => ?_⟩
  · refine ⟨_, pow_integers hn a, toInt_ofInt_modEq _, Int64.le_toInt _, Int64.toInt_lt _, ?_⟩
    rintro ⟨hlow, hhigh⟩
    exact Int64.toInt_ofInt_of_le hlow hhigh
  · -- The sum of the exponents does not overflow, so it is one more exponent that is not negative.
    have hexponent := toInt_add_of_lt hm hn hsum
    have hnonneg : 0 ≤ m + n := by
      rw [Int64.le_iff_toInt_le] at hm hn ⊢
      rw [hexponent]
      exact Int.add_nonneg hm hn
    have htoNat : (m + n).toInt.toNat = m.toInt.toNat + n.toInt.toNat := by
      rw [hexponent, Int.toNat_add (Int64.le_iff_toInt_le.mp hm) (Int64.le_iff_toInt_le.mp hn)]
    show pow [.integer a, .integer (m + n)] = _
    rw [pow_integers hnonneg, pow_integers hm, pow_integers hn, htoNat, pow_add, Int64.ofInt_mul]
    rfl

/-- Powers of -3 that have more than 64 bits: the exact power of 41 is -36472996377170786403, and
adding twice `2 ^ 64` gives the result. -/
theorem pow_exact_wrapped : (0 : Int64) ≤ 41 ∧
    (∃ r : Int64, pow [.integer (-3), .integer 41] = .integer r ∧
      r.toInt ≡ (-3) ^ 41 [ZMOD 2 ^ 64]) ∧
    pow [.integer (-3), .integer 41] = .integer 420491770248316829 ∧
    pow [.integer (-3), Value.infixed .add (.integer 40) (.integer 1)] =
      Value.infixed .mul (pow [.integer (-3), .integer 40]) (pow [.integer (-3), .integer 1]) := by
  obtain ⟨hpow, hsum⟩ := pow_exact (-3)
  obtain ⟨r, hr, hmod, -⟩ := hpow 41 (by decide)
  exact ⟨by decide, ⟨r, hr, hmod⟩, rfl, hsum 40 1 (by decide) (by decide) (by decide)⟩

end Builtin

end Rill
