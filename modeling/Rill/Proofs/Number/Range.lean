import Mathlib
import Rill.Builtin.Math

/-!
# Random numbers of a range

A random number is the remainder of a random word by the count of the range, added to the lower end.
The distance of the two ends, the count and the sum are all computed modulo `2 ^ 64`: the distance
need not be a whole number of 64 bits, the remainder need not be one either, and the count of the
widest range is zero.

* `Builtin.toInt_inRange`, `Builtin.full_of_count`: the number that a word stands for, as a sum of
  integers, and the one range that has no count.
* `Entropy.exists_draw`: every word can be drawn.
* `Builtin.randomRange_exact`: the random numbers of a range are its numbers, all of them and no
  others.
-/

namespace Rill

namespace Entropy

/-! ## Words and bytes -/

/-- A word that has room for one more byte takes it as its lowest digit to the base 256. -/
theorem toNat_push {w : UInt64} (hw : w.toNat < 2 ^ 56) (b : UInt8) :
    (w <<< 8 ||| b.toUInt64).toNat = 256 * w.toNat + b.toNat := by
  have hshift : (w <<< 8).toNat = w.toNat <<< 8 := by
    rw [UInt64.toNat_shiftLeft, UInt64.toNat_ofNat]
    simp only [Nat.shiftLeft_eq, Nat.reducePow, Nat.reduceMod]
    omega
  rw [UInt64.toNat_or, hshift, UInt8.toNat_toUInt64, ← Nat.shiftLeft_add_eq_or_of_lt b.toNat_lt,
    Nat.shiftLeft_eq, Nat.mul_comm]

/-- A word of bytes takes its last byte last. -/
theorem word_concat (bytes : Bytes) (b : UInt8) :
    word (bytes ++ [b]) = word bytes <<< 8 ||| b.toUInt64 := by
  rw [word, word, List.foldl_concat]

/-- A number that has room in some bytes is the word of as many bytes. -/
theorem exists_word {count n : Nat} (hcount : count ≤ 8) (hn : n < 256 ^ count) :
    ∃ bytes : Bytes, bytes.length = count ∧ (word bytes).toNat = n := by
  induction count generalizing n with
  | zero =>
    have hzero : n = 0 := by omega
    exact ⟨[], rfl, hzero.symm⟩
  | succ count ih =>
    have hroom : 256 ^ (count + 1) ≤ 256 ^ 8 := Nat.pow_le_pow_right (by norm_num) hcount
    have hhigh : n / 256 < 256 ^ count := by rw [pow_succ] at hn; omega
    obtain ⟨bytes, hlength, hword⟩ := ih (by omega) hhigh
    refine ⟨bytes ++ [UInt8.ofNat (n % 256)], by rw [List.length_append, hlength]; rfl, ?_⟩
    rw [word_concat, toNat_push (by omega), hword, UInt8.toNat_ofNat']
    omega

/-- A source that starts with given bytes. -/
def ofBytes (bytes : Bytes) : Entropy where
  byte i := bytes.getD i 0

/-- A source of given bytes gives these bytes. -/
theorem next_ofBytes (bytes : Bytes) : (ofBytes bytes).next bytes.length = bytes := by
  refine List.ext_getElem (by simp [next]) fun i _ hi => ?_
  simp [next, ofBytes, List.getElem?_eq_getElem hi]

/-- Every word can be drawn. -/
theorem exists_draw (w : UInt64) :
    ∃ bytes : Bytes, bytes.length = 8 ∧ (ofBytes bytes).draw.1 = w := by
  obtain ⟨bytes, hlength, hword⟩ := exists_word (le_refl 8) w.toNat_lt
  refine ⟨bytes, hlength, ?_⟩
  rw [draw, ← hlength, next_ofBytes]
  exact UInt64.toNat_inj.mp hword

end Entropy

namespace Builtin

/-! ## The number that a word stands for -/

variable {low high : Int64}

theorem toInt_toInt64 (w : UInt64) : w.toInt64.toInt = (w.toNat : Int).bmod (2 ^ 64) :=
  BitVec.toInt_eq_toNat_bmod w.toBitVec

/-- The distance of two numbers need not be a whole number of 64 bits with a sign. Without one it
is. -/
theorem toNat_distance (h : low ≤ high) :
    ((high - low).toUInt64.toNat : Int) = high.toInt - low.toInt := by
  have hlow := low.le_toInt
  have hhigh := high.toInt_lt
  have hlt := (high - low).toUInt64.toNat_lt
  have hdistance : ((high - low).toUInt64.toNat : Int).bmod (2 ^ 64) =
    (high.toInt - low.toInt).bmod (2 ^ 64) := by
    rw [← toInt_toInt64, Int64.toInt64_toUInt64, Int64.toInt_sub]
  rw [Int64.le_iff_toInt_le] at h
  simp only [Int.bmod_def] at hdistance
  omega

/-- The count of a range, which is zero for the widest one. -/
theorem toNat_count (h : low ≤ high) :
    (((high - low).toUInt64 + 1).toNat : Int) = (high.toInt - low.toInt + 1) % 2 ^ 64 := by
  rw [UInt64.toNat_add, ← toNat_distance h]
  rfl

/-- A remainder by the length of a range is between zero and the last offset of the range. -/
theorem remainder_mem (h : low ≤ high) (k : Int) :
    0 ≤ k % (high.toInt - low.toInt + 1) ∧
      k % (high.toInt - low.toInt + 1) ≤ high.toInt - low.toInt := by
  have hle := Int64.le_iff_toInt_le.mp h
  have hnonneg := Int.emod_nonneg k (b := high.toInt - low.toInt + 1) (by omega)
  have hlt := Int.emod_lt_of_pos k (b := high.toInt - low.toInt + 1) (by omega)
  omega

/-- Where the count is not zero, a word stands for the lower end and a remainder. The remainder may
be too large for a number with a sign; the sum is not. -/
theorem toInt_inRange (h : low ≤ high) (hcount : (high - low).toUInt64 + 1 ≠ 0) (bits : UInt64) :
    (inRange low high bits).toInt = low.toInt + bits.toNat % (high.toInt - low.toInt + 1) := by
  have hlow := low.le_toInt
  have hhigh := high.toInt_lt
  have hle := Int64.le_iff_toInt_le.mp h
  have hnat := toNat_count h
  have hpos : ((high - low).toUInt64 + 1).toNat ≠ 0 :=
    fun hzero => hcount (UInt64.toNat_inj.mp hzero)
  have hrest : ((bits % ((high - low).toUInt64 + 1)).toNat : Int) =
      bits.toNat % (high.toInt - low.toInt + 1) := by
    rw [UInt64.toNat_mod, Int.natCast_mod]
    congr 1
    omega
  obtain ⟨hnonneg, hmost⟩ := remainder_mem h bits.toNat
  -- The remainder and the sum wrap around together, and the exact sum is a number of the range.
  rw [inRange, if_neg hcount, Int64.toInt_add, toInt_toInt64, hrest, Int.add_bmod_bmod]
  exact Int.bmod_eq_of_le (by omega) (by omega)

/-- The count is zero for the range of all numbers only. -/
theorem full_of_count (h : low ≤ high) (hcount : (high - low).toUInt64 + 1 = 0) (v : Int64) :
    low ≤ v ∧ v ≤ high := by
  have hnat := toNat_count h
  have hlow := low.le_toInt
  have hhigh := high.toInt_lt
  have hv := v.le_toInt
  have hv' := v.toInt_lt
  rw [hcount] at hnat
  simp only [Int64.le_iff_toInt_le] at h ⊢
  have hzero : ((0 : UInt64).toNat : Int) = 0 := rfl
  omega

/-- Whatever the word is, it stands for a number of the range. -/
theorem inRange_mem (h : low ≤ high) (bits : UInt64) :
    low ≤ inRange low high bits ∧ inRange low high bits ≤ high := by
  by_cases hcount : (high - low).toUInt64 + 1 = 0
  · exact full_of_count h hcount _
  · obtain ⟨hnonneg, hmost⟩ := remainder_mem h bits.toNat
    rw [Int64.le_iff_toInt_le, Int64.le_iff_toInt_le, toInt_inRange h hcount]
    omega

/-- Every number of the range has a word that stands for it: its distance from the lower end or, in
the widest range, the number itself. -/
theorem exists_inRange {v : Int64} (hlow : low ≤ v) (hhigh : v ≤ high) :
    ∃ bits, inRange low high bits = v := by
  have h : low ≤ high := Int64.le_trans hlow hhigh
  by_cases hcount : (high - low).toUInt64 + 1 = 0
  · exact ⟨v.toUInt64, by rw [inRange, if_pos hcount, Int64.toInt64_toUInt64]⟩
  · refine ⟨(v - low).toUInt64, ?_⟩
    rw [← Int64.toInt_inj, toInt_inRange h hcount, toNat_distance hlow, Int.emod_eq_of_lt]
    · omega
    · rw [Int64.le_iff_toInt_le] at hlow
      omega
    · rw [Int64.le_iff_toInt_le] at hhigh
      omega

/-! ## Random numbers -/

/-- A random number of a range comes from one word of the source. -/
theorem randomRange_eq (h : low ≤ high) (w : World) :
    randomRange [.integer low, .integer high] w =
      some (.integer (inRange low high w.entropy.draw.1),
        { w with entropy := w.entropy.draw.2 }) := by
  have hlt : ¬ high < low := Int64.not_lt.mpr h
  rw [randomRange, if_neg hlt]
  rfl

/-- The random numbers of a range that is not empty are its numbers: whatever bytes come next, the
result is one of them, and each of them is the result for some eight bytes. -/
theorem randomRange_exact (low high : Int64) (h : low ≤ high) :
    (∀ w : World, ∃ v w', randomRange [.integer low, .integer high] w = some (.integer v, w') ∧
      low ≤ v ∧ v ≤ high) ∧
    ∀ v, low ≤ v → v ≤ high → ∃ bytes : Bytes, bytes.length = 8 ∧ ∀ w : World, ∃ w',
      randomRange [.integer low, .integer high]
        { w with entropy := .ofBytes bytes } = some (.integer v, w') := by
  refine ⟨fun w => ⟨_, _, randomRange_eq h w, inRange_mem h _⟩, fun v hlow hhigh => ?_⟩
  obtain ⟨bits, hbits⟩ := exists_inRange hlow hhigh
  obtain ⟨bytes, hlength, hdraw⟩ := Entropy.exists_draw bits
  refine ⟨bytes, hlength, fun w => ⟨{ w with entropy := (Entropy.ofBytes bytes).draw.2 }, ?_⟩⟩
  rw [randomRange_eq h]
  show some (Value.integer (inRange low high (Entropy.ofBytes bytes).draw.1), _) = _
  rw [hdraw, hbits]

/-- A world in which the highest word is drawn next. -/
def brimful : World where
  files := ⟨text "/", [], #[]⟩
  entropy := .ofBytes (List.replicate 8 0xFF)

/-- From the smallest number to 1 the distance is not a whole number of 64 bits, and the count is
above all of them. The highest word stands for -3 there. -/
theorem randomRange_exact_wide : Int64.minValue ≤ 1 ∧
    (∃ v w', randomRange [.integer Int64.minValue, .integer 1] brimful = some (.integer v, w') ∧
      Int64.minValue ≤ v ∧ v ≤ 1) ∧
    (∃ w', randomRange [.integer Int64.minValue, .integer 1] brimful = some (.integer (-3), w')) ∧
    ∃ bytes : Bytes, bytes.length = 8 ∧ ∀ w : World, ∃ w',
      randomRange [.integer Int64.minValue, .integer 1] { w with entropy := .ofBytes bytes } =
        some (.integer (-1), w') := by
  have h : Int64.minValue ≤ 1 := by decide
  obtain ⟨hbounds, honto⟩ := randomRange_exact Int64.minValue 1 h
  exact ⟨h, hbounds brimful, ⟨_, randomRange_eq h brimful⟩, honto (-1) (by decide) (by decide)⟩

end Builtin

end Rill
