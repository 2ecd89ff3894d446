import Rill.Arithmetic
import Rill.Proofs.Decimal.Zero
import Rill.Proofs.Run.Builtins

/-!
# Compound assignment

Plain arithmetic has the wider kind of its operands as the kind of its result, compound assignment
that of its target. Both come down to `Value.arithmetic`, which is told the kind.

* `Value.integers_eq`: on whole numbers the result is that on integers without bound, brought into
  64 bits.
* `Value.arithmetic_kind`: with the kind of the left operand for the result, the only fault is a
  whole number divided by zero.
* `Value.compound_agrees`: where the target is at least as wide, compound assignment is plain
  arithmetic, and it keeps the kind of the target everywhere.
-/

namespace Rill

namespace ArithOp

/-- The operator of the compound assignment that carries out an operation. -/
def assignOp : ArithOp → InfixOp
  | add => .addAssign
  | sub => .subAssign
  | mul => .mulAssign
  | div => .divAssign

/-- The operation on integers without bound. A quotient is cut off toward zero. -/
def unbounded (op : ArithOp) (a b : Int) : Int :=
  match op with
  | add => a + b
  | sub => a - b
  | mul => a * b
  | div => a.tdiv b

@[simp] theorem compoundOp?_assignOp (op : ArithOp) : op.assignOp.compoundOp? = some op := by
  cases op <;> rfl

@[simp] theorem numberOp?_infixOp (op : ArithOp) : op.infixOp.numberOp? = some (.arith op) := by
  cases op <;> rfl

/-- Whole numbers wrap around at 64 bits, the quotient of the smallest one by -1 included. -/
theorem onIntegers_eq {op : ArithOp} {a b : Int64} (h : ¬ (op = .div ∧ b = 0)) :
    op.onIntegers a b = some (Int64.ofInt (op.unbounded a.toInt b.toInt)) := by
  cases op with
  | add => rw [unbounded, Int64.ofInt_add, Int64.ofInt_toInt, Int64.ofInt_toInt, onIntegers]
  | sub => rw [unbounded, Int64.ofInt_sub, Int64.ofInt_toInt, Int64.ofInt_toInt, onIntegers]
  | mul => rw [unbounded, Int64.ofInt_mul, Int64.ofInt_toInt, Int64.ofInt_toInt, onIntegers]
  | div =>
    have hb : b ≠ 0 := fun hb => h ⟨rfl, hb⟩
    have hdiv : a / b = Int64.ofInt (a.toInt.tdiv b.toInt) := by
      rw [← Int64.toInt_inj, Int64.toInt_div, Int64.toInt_ofInt]
    rw [onIntegers, if_neg hb, unbounded, hdiv]

end ArithOp

namespace Value

variable {op : ArithOp} {left right : Value}

/-- Whether a number is zero. Both zeros of a binary fraction are. -/
def isZero : Value → Bool
  | integer n => n == 0
  | float x => x == 0
  | double x => x == 0
  | _ => false

theorem integers_eq (op : ArithOp) (a b : Int64) :
    integers op a b =
      if op = .div ∧ b = 0 then error .divisionByZero
      else integer (Int64.ofInt (op.unbounded a.toInt b.toInt)) := by
  rw [integers]
  split
  next => rfl
  next h => rw [ArithOp.onIntegers_eq h]

/-- A binary fraction is zero in 64 bits exactly if it is zero. -/
theorem beq_zero_of_number? {x : Float} (hkind : right.kind ≠ .integer)
    (hx : right.number? = some x) :
    (x == 0) = right.isZero := by
  cases right with
  | integer => exact absurd rfl hkind
  | float y =>
    cases hx
    exact Binary.widen_beq_zero y
  | double =>
    cases hx
    rfl
  | _ => cases hx

theorem kind_ofNumber {kind : Kind} (h : kind.isNumeric = true) (x : Float) :
    (ofNumber kind x).kind = kind := by
  cases kind with
  | integer | float | double => rfl
  | _ => cases h

/-- Operands that are not both whole numbers meet as binary fractions. -/
theorem arithmetic_of_not_integers {kind : Kind} {x y : Float}
    (hkind : ¬ (left.kind = .integer ∧ right.kind = .integer)) (hx : left.number? = some x)
    (hy : right.number? = some y) :
    arithmetic kind op left right =
      if op = .div ∧ kind = .integer ∧ y == 0 then error .divisionByZero
      else ofNumber kind (op.onFloats x y) := by
  rw [arithmetic, onNumbers, hx, hy]
  rintro a b rfl rfl
  exact hkind ⟨rfl, rfl⟩

/-- What comes of an operation whose result has the kind of the left operand. The check for a zero
is made on whole numbers and on binary fractions, and both times it is for the same reason. -/
theorem arithmetic_kind (op : ArithOp) (hleft : left.kind.isNumeric = true)
    (hright : right.kind.isNumeric = true) :
    if left.kind = .integer ∧ op = .div ∧ right.isZero = true
    then arithmetic left.kind op left right = error .divisionByZero
    else (arithmetic left.kind op left right).kind = left.kind := by
  by_cases hkind : left.kind = .integer ∧ right.kind = .integer
  · -- Whole numbers stay whole numbers, and the divisor itself is looked at.
    obtain ⟨a, rfl⟩ : ∃ a, left = integer a := by
      cases left with
      | integer a => exact ⟨a, rfl⟩
      | _ => cases hkind.1
    obtain ⟨b, rfl⟩ : ∃ b, right = integer b := by
      cases right with
      | integer b => exact ⟨b, rfl⟩
      | _ => cases hkind.2
    have hzero : (integer a).kind = .integer ∧ op = .div ∧ (integer b).isZero = true ↔
      op = .div ∧ b = 0 := by
      simp [kind, isZero]
    simp only [hzero, arithmetic, integers_eq]
    split
    next h => rfl
    next h => rfl
  · -- A whole number on the left meets a binary fraction, which is looked at in 64 bits.
    obtain ⟨x, hx⟩ := exists_number? hleft
    obtain ⟨y, hy⟩ := exists_number? hright
    have hzero : left.kind = .integer ∧ op = .div ∧ right.isZero = true ↔
        op = .div ∧ left.kind = .integer ∧ (y == 0) = true := by
      by_cases hint : left.kind = .integer
      · rw [beq_zero_of_number? (fun hr => hkind ⟨hint, hr⟩) hy]
        exact and_left_comm
      · simp [hint]
    simp only [hzero, arithmetic_of_not_integers hkind hx hy]
    split
    next => rfl
    next => exact kind_ofNumber hleft _

/-- Compound assignment is told the kind of its target. -/
theorem compound_eq (op : ArithOp) (hleft : left.kind.isNumeric = true)
    (hright : right.kind.isNumeric = true) :
    compound op.assignOp left right = arithmetic left.kind op left right := by
  rw [compound, ArithOp.compoundOp?_assignOp]
  cases left with
  | integer | float | double => exact if_pos hright
  | _ => cases hleft

/-- Plain arithmetic is told the wider kind. -/
theorem infixed_eq (op : ArithOp) (hleft : left.kind.isNumeric = true)
    (hright : right.kind.isNumeric = true) :
    infixed op.infixOp left right = arithmetic (left.kind.widest right.kind) op left right := by
  obtain ⟨x, hx⟩ := exists_number? hleft
  obtain ⟨y, hy⟩ := exists_number? hright
  rw [infixed.eq_def, if_pos (Bool.and_eq_true_iff.mpr ⟨hleft, hright⟩), numbers.eq_def]
  split
  next => rw [infixedIntegers, ArithOp.numberOp?_infixOp]; rfl
  next => rw [onNumbers, hx, hy, ArithOp.numberOp?_infixOp]

/-- Compound assignment and plain arithmetic on numbers: they agree where the target is at least as
wide as the operand, the result has the kind of the target but for a whole number divided by zero,
and on whole numbers both are exact up to 64 bits. -/
theorem compound_agrees (op : ArithOp) {m n : Nat} (hleft : left.kind.width? = some m)
    (hright : right.kind.width? = some n) :
    (n ≤ m → compound op.assignOp left right = infixed op.infixOp left right) ∧
      ((compound op.assignOp left right).kind = left.kind ∨
        compound op.assignOp left right = error .divisionByZero) ∧
      (compound op.assignOp left right = error .divisionByZero ↔
        left.kind = .integer ∧ op = .div ∧ right.isZero = true) ∧
      Fault.divisionByZero.message = text "Division by zero" ∧
      ∀ a b, left = integer a → right = integer b → ¬ (op = .div ∧ b = 0) →
        compound op.assignOp left right = integer (Int64.ofInt (op.unbounded a.toInt b.toInt)) ∧
          infixed op.infixOp left right = integer (Int64.ofInt (op.unbounded a.toInt b.toInt)) := by
  have hl : left.kind.isNumeric = true := by rw [Kind.isNumeric, hleft]; rfl
  have hr : right.kind.isNumeric = true := by rw [Kind.isNumeric, hright]; rfl
  have hcompound := compound_eq op hl hr
  have hinfixed := infixed_eq op hl hr
  have hkind := arithmetic_kind op hl hr
  rw [← hcompound] at hkind
  refine ⟨fun hwidth => ?_, ?_, ?_, rfl, ?_⟩
  · have hwidest : left.kind.widest right.kind = left.kind := by
      rw [Kind.widest, hleft, hright]
      exact if_pos hwidth
    rw [hcompound, hinfixed, hwidest]
  · split at hkind
    next => exact .inr hkind
    next => exact .inl hkind
  · split at hkind
    next hzero => exact iff_of_true hkind hzero
    next hzero =>
      -- A fault is no number, and the result has the kind of one.
      refine iff_of_false (fun herror => ?_) hzero
      rw [herror] at hkind
      rw [← hkind] at hl
      cases hl
  · rintro a b rfl rfl hdiv
    rw [hcompound, hinfixed, arithmetic, arithmetic, integers_eq, if_neg hdiv]
    exact ⟨rfl, rfl⟩

/-- The quotient of the smallest whole number by -1 does not fit into 64 bits, and comes out as that
number. -/
theorem compound_smallest :
    compound .divAssign (integer Int64.minValue) (integer (-1)) = integer Int64.minValue ∧
      infixed .div (integer Int64.minValue) (integer (-1)) = integer Int64.minValue := by
  obtain ⟨-, -, -, -, h⟩ :=
    @compound_agrees (integer Int64.minValue) (integer (-1)) .div _ _ rfl rfl
  exact h Int64.minValue (-1) rfl rfl (by decide)

end Value

end Rill
