import Rill.Arithmetic
import Rill.Builtin
import Rill.Decimal.Layout
import Rill.Real.Power

/-!
# Number builtins

Rounding gives whole numbers. The power of whole numbers with an exponent that is not negative is
exact modulo `2 ^ 64`; every other root and power is computed in 64 bits and narrowed to the kind of
the arguments.
-/

namespace Rill.Builtin

/-- The fault of an argument that is no number. -/
def notNumber (name : String) (v : Value) : Value := .error (.argumentNumber (text name) v.kind)

/-- The magnitude of a number. -/
def abs : List Value → Value
  | [.integer n] => .integer (if n < 0 then -n else n)
  | [.float x] => .float x.abs
  | [.double x] => .double x.abs
  | [v] => notNumber "abs" v
  | args => wrongCount (.exactly 1) args

/-- A number rounded to a whole one. -/
def roundFloat (name : String) (mode : Binary.Rounding) (x : Float) : Value :=
  match (Binary.ofFloat x).toInteger? mode with
  | some n =>
    if Int64.minValue.toInt ≤ n ∧ n ≤ Int64.maxValue.toInt then .integer (Int64.ofInt n)
    else .error (.integerRange (text name) (Layout.plain.float (Float.ofInt n)))
  | none => .error (.integerRange (text name) (Layout.plain.float x))

/-- Rounds a number. -/
def round (name : String) (mode : Binary.Rounding) : List Value → Value
  | [.integer n] => .integer n
  | [v] =>
    match v.number? with
    | some x => roundFloat name mode x
    | none => notNumber name v
  | args => wrongCount (.exactly 1) args

/-- The kind of a root or a power: whole numbers go to 64 bits. -/
def realKind : Kind → Kind
  | .integer => .double
  | k => k

/-- The square root of a number. -/
def sqrt : List Value → Run Value
  | [v] =>
    match v.number? with
    | some x => do
      if x < 0 then return .error (.negativeRoot (← Run.inspect v))
      return .ofNumber (realKind v.kind) x.sqrt
    | none => return notNumber "sqrt" v
  | args => return wrongCount (.exactly 1) args

/-- The power of two numbers. -/
def pow : List Value → Value
  | [base, exponent] =>
    match base.number?, exponent.number? with
    | none, _ => notNumber "pow" base
    | _, none => notNumber "pow" exponent
    | some x, some y =>
      match base, exponent with
      | .integer a, .integer n =>
        -- A negative exponent leads out of the whole numbers.
        if 0 ≤ n then .integer (Real.wrappingPower a n.toInt.toNat)
        else .double (Real.power x y)
      | _, _ => .ofNumber (realKind (base.kind.widest exponent.kind)) (Real.power x y)
  | args => wrongCount (.exactly 2) args

/-- The first of the numbers that no other one beats, starting from the best so far. -/
def pickFrom (name : String) (better : Float → Float → Bool) (best : Value) (x : Float) :
    List Value → Value
  | [] => best
  | v :: vs =>
    match v.number? with
    | none => notNumber name v
    | some y => if better y x then pickFrom name better v y vs else pickFrom name better best x vs

/-- The first of the arguments that no other one beats. -/
def pick (name : String) (better : Float → Float → Bool) : List Value → Value
  | [] => wrongCount (.atLeast 1) []
  | v :: vs =>
    match v.number? with
    | none => notNumber name v
    | some x => pickFrom name better v x vs

/-- The number of a range that 64 random bits stand for. The count of the range is zero when it has
all whole numbers of 64 bits. -/
def inRange (low high : Int64) (bits : UInt64) : Int64 :=
  let count := (high - low).toUInt64 + 1
  if count = 0 then bits.toInt64 else low + (bits % count).toInt64

/-- A random number of a range. -/
def randomRange : List Value → Run Value
  | [.integer low, .integer high] => do
    if high < low then return .error (.emptyRange low high)
    return .integer (inRange low high (← Run.draw))
  | [.integer _, v] => return wrongKind "randomRange" .integer v
  | [v, _] => return wrongKind "randomRange" .integer v
  | args => return wrongCount (.exactly 2) args

/-- The number builtins. -/
def math : List Builtin :=
  [plain "abs" abs, plain "floor" (round "floor" .down), plain "ceil" (round "ceil" .up),
    plain "round" (round "round" .nearest), effect "sqrt" sqrt, plain "pow" pow,
    plain "min" (pick "min" fun a b => a < b), plain "max" (pick "max" fun a b => b < a),
    effect "randomRange" randomRange]

end Rill.Builtin
