import Mathlib
import Rill.Decimal.Binary

/-!
# Equality of binary numbers

A number of 32 or 64 bits has two zeros. They are equal to each other, what is not a number is equal
to nothing, and apart from that two numbers are equal if they have the same bits.

* `Binary.Standard.cleared_inj`: with the bits of both zeros cleared, equal numbers are those with
  equal bits. It is stated once for the numbers of both widths.
* `Binary.widen_beq_zero`: a number of 32 bits is zero in 64 bits exactly if it is zero.
-/

namespace Rill

namespace Binary

open Float.Model

/-! ## Cleared zeros -/

section Cleared

variable {α : Type} [BEq α] {zero negative nan : α} {bits : α → UInt64}

/-- Equality of numbers as the standard has it, with `zero` and `negative` for the two zeros. -/
structure Standard (zero negative nan : α) : Prop where
  beq_iff : ∀ x y : α, (x == y) = true ↔
    x ≠ nan ∧ y ≠ nan ∧ (x = y ∨ (x = zero ∧ y = negative) ∨ (x = negative ∧ y = zero))
  zero_ne : zero ≠ nan
  negative_ne : negative ≠ nan

/-- In a standard format only the two zeros are equal to zero. -/
theorem Standard.beq_zero_iff (h : Standard zero negative nan) (x : α) :
    (x == zero) = true ↔ x = zero ∨ x = negative := by
  rw [h.beq_iff]
  constructor
  · rintro ⟨-, -, hx | ⟨hx, -⟩ | ⟨hx, -⟩⟩
    · exact .inl hx
    · exact .inl hx
    · exact .inr hx
  · rintro (rfl | rfl)
    · exact ⟨h.zero_ne, h.zero_ne, .inl rfl⟩
    · exact ⟨h.negative_ne, h.zero_ne, .inr (.inr ⟨rfl, rfl⟩)⟩

/-- What is equal to a zero is a zero. -/
theorem Standard.beq_iff_of_zero (h : Standard zero negative nan) {x y : α}
    (hx : (x == zero) = true) :
    (x == y) = true ↔ (y == zero) = true := by
  have hzero := h.zero_ne
  have hnegative := h.negative_ne
  rw [h.beq_zero_iff] at hx ⊢
  rw [h.beq_iff]
  grind

/-- Other numbers are equal if they are the same. -/
theorem Standard.beq_iff_of_not_zero (h : Standard zero negative nan) {x y : α}
    (hx : ¬ (x == zero) = true) (hy : y ≠ nan) : (x == y) = true ↔ x = y := by
  rw [h.beq_zero_iff] at hx
  rw [h.beq_iff]
  grind

/-- With the bits of both zeros cleared, numbers have the same bits exactly if they are equal. One
of them may be no number. -/
theorem Standard.cleared_inj (h : Standard zero negative nan) (hbits : Function.Injective bits)
    (hzero : bits zero = 0) {x y : α} (hy : y ≠ nan) :
    (if x == zero then 0 else bits x) = (if y == zero then 0 else bits y) ↔ (x == y) = true := by
  -- No bits are left of the positive zero, so all other numbers have some.
  have hsome : ∀ z : α, ¬ (z == zero) = true → bits z ≠ 0 := fun z hz hbz =>
    hz ((h.beq_zero_iff z).mpr (.inl (hbits (hbz.trans hzero.symm))))
  by_cases hx0 : (x == zero) = true
  · rw [if_pos hx0, h.beq_iff_of_zero hx0]
    by_cases hy0 : (y == zero) = true
    · exact iff_of_true (if_pos hy0).symm hy0
    · rw [if_neg hy0]
      exact iff_of_false (hsome y hy0).symm hy0
  · rw [if_neg hx0, h.beq_iff_of_not_zero hx0 hy]
    by_cases hy0 : (y == zero) = true
    · rw [if_pos hy0]
      refine iff_of_false (hsome x hx0) ?_
      rintro rfl
      exact hx0 hy0
    · rw [if_neg hy0, hbits.eq_iff]

end Cleared

/-- Numbers of 64 bits are a standard format. -/
theorem standard_double : Standard (0 : Float) (-0) Float.nan where
  beq_iff _ _ := Float.beq_iff_ne_nan_and_eq
  zero_ne := by rw [ne_eq, ← Float.toBits_inj]; decide
  negative_ne := by rw [ne_eq, ← Float.toBits_inj]; decide

/-- Numbers of 32 bits are a standard format. -/
theorem standard_single : Standard (0 : Float32) (-0) Float32.nan where
  beq_iff _ _ := Float32.beq_iff_ne_nan_and_eq
  zero_ne := by rw [ne_eq, ← Float32.toBits_inj]; decide
  negative_ne := by rw [ne_eq, ← Float32.toBits_inj]; decide

/-! ## Zeros in 64 bits -/

/-- A number of 32 bits is zero if all bits but its sign are. -/
theorem single_beq_zero_iff (x : Float32) : (x == 0) = true ↔ x.toBits.toNat % 2 ^ 31 = 0 := by
  have hpos : (0 : Float32).toBits = 0 := by decide
  have hneg : (-0 : Float32).toBits = 2147483648 := by decide
  have hlt := x.toBits.toNat_lt
  rw [standard_single.beq_zero_iff, ← Float32.toBits_inj, ← Float32.toBits_inj, hpos, hneg]
  simp only [← UInt32.toNat_inj, UInt32.reduceToNat]
  omega

/-- A number of 64 bits is zero if all bits but its sign are. -/
theorem double_beq_zero_iff (x : Float) : (x == 0) = true ↔ x.toBits.toNat % 2 ^ 63 = 0 := by
  have hpos : (0 : Float).toBits = 0 := by decide
  have hneg : (-0 : Float).toBits = 9223372036854775808 := by decide
  have hlt := x.toBits.toNat_lt
  rw [standard_double.beq_zero_iff, ← Float.toBits_inj, ← Float.toBits_inj, hpos, hneg]
  simp only [← UInt64.toNat_inj, UInt64.reduceToNat]
  omega

theorem ofBits_beq_zero_iff (b : UInt64) : (Float.ofBits b == 0) = true ↔ b.toNat % 2 ^ 63 = 0 := by
  have hbits : (Float.ofBits b).toBits.toBitVec =
      if @UnpackedFloat.isNaNBits .binary64 b.toBitVec then UnpackedFloat.packedNaN .binary64
        else b.toBitVec :=
    @UnpackedFloat.pack_unpack .binary64 b.toBitVec (by decide)
  by_cases hnan : @UnpackedFloat.isNaNBits .binary64 b.toBitVec = true
  · -- The bits of what is no number become those of the one NaN; neither is a zero.
    rw [if_pos hnan] at hbits
    have hb : ¬ b.toNat % 2 ^ 63 = 0 := by
      intro hb
      have hlt := b.toNat_lt
      obtain rfl | rfl : b = 0 ∨ b = 9223372036854775808 := by
        simp only [← UInt64.toNat_inj, UInt64.reduceToNat]
        omega
      · revert hnan; decide
      · revert hnan; decide
    rw [iff_false_right hb, double_beq_zero_iff, ← UInt64.toNat_toBitVec, hbits]
    decide
  · rw [if_neg hnan, UInt64.toBitVec_inj] at hbits
    rw [double_beq_zero_iff, hbits]

/-- The bits behind the sign. -/
theorem pattern_mod {biased fraction : Nat} (negative : Bool) (hbiased : biased < 2 ^ 11)
    (hfraction : fraction < 2 ^ 52) :
    pattern negative biased fraction % 2 ^ 63 = biased * 2 ^ 52 + fraction := by
  rw [pattern, Nat.shiftLeft_eq, Nat.shiftLeft_eq]
  cases negative with
  | false => simp only [Bool.false_eq_true, if_false]; omega
  | true => simp only [if_true]; omega

/-- A magnitude of 24 bits other than zero is not zero in 64 bits: it has a leading one there, and
an exponent field above the one of zero. -/
theorem toBits_finite_mod_ne_zero {mantissa : Nat} {exponent : Int} (negative even lonely : Bool)
    (hmantissa : mantissa ≠ 0) (hwidth : mantissa < 2 ^ 24) (hlow : -149 ≤ exponent)
    (hhigh : exponent ≤ 104) :
    (finite negative mantissa exponent even lonely).toBits % 2 ^ 63 ≠ 0 := by
  have hlead : mantissa.log2 < 24 := (Nat.log2_lt hmantissa).mpr hwidth
  -- The leading one goes to the last place before the point, so the rest is a fraction of 52 bits.
  have hfraction : mantissa <<< (52 - mantissa.log2) < 2 ^ 53 := by
    have hlt : mantissa < 2 ^ (mantissa.log2 + 1) := Nat.lt_log2_self
    calc mantissa <<< (52 - mantissa.log2)
        = mantissa * 2 ^ (52 - mantissa.log2) := Nat.shiftLeft_eq ..
      _ < 2 ^ (mantissa.log2 + 1) * 2 ^ (52 - mantissa.log2) := by gcongr
      _ = 2 ^ 53 := by rw [← pow_add]; congr 1; omega
  rw [toBits, if_neg hmantissa, pattern_mod]
  · have hbiased : 0 < (exponent + mantissa.log2 + 1023).toNat := by omega
    omega
  · omega
  · rw [Nat.shiftLeft_eq]
    omega

/-- In 64 bits the bits behind the sign are zero exactly if they are so in 32. -/
theorem toBits_ofBits_mod_eq_zero (bits : Nat) :
    (ofBits 23 8 bits).toBits % 2 ^ 63 = 0 ↔ bits % 2 ^ 31 = 0 := by
  simp only [ofBits, Nat.reduceShiftLeft, Nat.reduceSub, Nat.shiftRight_eq_div_pow]
  split
  next htop =>
    split
    next => rw [toBits, pattern_mod _ (by decide) (by decide)]; omega
    next => rw [toBits, pattern_mod _ (by decide) (by decide)]; omega
  next htop =>
    split
    next hbottom =>
      by_cases hzero : bits % 8388608 = 0
      · rw [hzero, toBits, if_pos rfl, pattern_mod _ (by decide) (by decide)]
        omega
      · -- A subnormal number of 32 bits is a normal one in 64.
        refine iff_of_false (toBits_finite_mod_ne_zero _ _ _ hzero (by omega) (by decide)
          (by decide)) ?_
        omega
    next hbottom =>
      refine iff_of_false (toBits_finite_mod_ne_zero _ _ _ (by omega) (by omega) (by omega)
        (by omega)) ?_
      omega

/-- A number of 32 bits is zero in 64 bits exactly if it is zero. -/
theorem widen_beq_zero (x : Float32) : (widen x == 0) = (x == 0) := by
  rw [Bool.eq_iff_iff, widen, ofBits_beq_zero_iff, UInt64.toNat_ofNat',
    Nat.mod_mod_of_dvd _ (by norm_num), ofFloat32, toBits_ofBits_mod_eq_zero, single_beq_zero_iff]

end Binary

end Rill
