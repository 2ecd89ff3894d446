import Rill.Decimal.Binary
import Rill.Value.Key

/-!
# Operators on values

What the operators of the language do with values. Whole numbers are exact and wrap around at 64
bits, and division of them goes toward zero. Operands of different numeric kinds meet in the wider
kind: the operation is carried out on binary fractions of 64 bits and its result narrowed to that
kind.

* `Value.prefixed`, `Value.infixed` and `Value.index` are the operators of expressions.
* `Value.compound` is the operator in a compound assignment, whose result keeps the kind of the
  target.
-/

namespace Rill

/-- The four operations of arithmetic. -/
inductive ArithOp where
  /-- Addition. -/
  | add
  /-- Subtraction. -/
  | sub
  /-- Multiplication. -/
  | mul
  /-- Division. -/
  | div
  deriving DecidableEq, Repr, Inhabited

namespace ArithOp

/-- The infix operator of an operation. -/
def infixOp : ArithOp → InfixOp
  | add => .add
  | sub => .sub
  | mul => .mul
  | div => .div

/-- The operation on whole numbers; there is no quotient by zero. -/
def onIntegers (op : ArithOp) (a b : Int64) : Option Int64 :=
  match op with
  | add => some (a + b)
  | sub => some (a - b)
  | mul => some (a * b)
  | div => if b = 0 then none else some (a / b)

/-- The operation on binary fractions. -/
def onFloats (op : ArithOp) (x y : Float) : Float :=
  match op with
  | add => x + y
  | sub => x - y
  | mul => x * y
  | div => x / y

end ArithOp

/-- The comparisons. -/
inductive Comparison where
  /-- Less. -/
  | lt
  /-- Less or equal. -/
  | le
  /-- Greater. -/
  | gt
  /-- Greater or equal. -/
  | ge
  /-- Equal. -/
  | eq
  /-- Not equal. -/
  | ne
  deriving DecidableEq, Repr, Inhabited

/-- A comparison of binary fractions. -/
def Comparison.onFloats (c : Comparison) (x y : Float) : Bool :=
  match c with
  | lt => x < y
  | le => x ≤ y
  | gt => y < x
  | ge => y ≤ x
  | eq => x == y
  | ne => x != y

/-- What an infix operator does to numbers. -/
inductive NumberOp where
  /-- It computes. -/
  | arith (op : ArithOp)
  /-- It compares. -/
  | compare (c : Comparison)
  deriving DecidableEq, Repr, Inhabited

/-- What an infix operator does to numbers, if anything. -/
def InfixOp.numberOp? : InfixOp → Option NumberOp
  | .add => some (.arith .add)
  | .sub => some (.arith .sub)
  | .mul => some (.arith .mul)
  | .div => some (.arith .div)
  | .lt => some (.compare .lt)
  | .ltEq => some (.compare .le)
  | .gt => some (.compare .gt)
  | .gtEq => some (.compare .ge)
  | .eq => some (.compare .eq)
  | .notEq => some (.compare .ne)
  | _ => none

/-- The operation of a compound assignment. -/
def InfixOp.compoundOp? : InfixOp → Option ArithOp
  | .addAssign => some .add
  | .subAssign => some .sub
  | .mulAssign => some .mul
  | .divAssign => some .div
  | _ => none

/-- The whole number of 64 bits that a fraction is cut off to. A fraction outside of that range
gives the smallest one. -/
def truncate (x : Float) : Int64 :=
  match (Binary.ofFloat x).toInteger? .zero with
  | some n =>
    if Int64.minValue.toInt ≤ n ∧ n ≤ Int64.maxValue.toInt then Int64.ofInt n else Int64.minValue
  | none => Int64.minValue

namespace Value

/-- A number of a kind. -/
def ofNumber (kind : Kind) (x : Float) : Value :=
  match kind with
  | .integer => integer (truncate x)
  | .float => float x.toFloat32
  | _ => double x

/-- A prefix operator. -/
def prefixed : PrefixOp → Value → Value
  | .not, v => boolean (! v.isTruthy)
  | .negate, integer n => integer (-n)
  | .negate, float x => float (-x)
  | .negate, double x => double (-x)
  | .negate, v => error (.unknownPrefix .negate v.kind)

/-- An operation on whole numbers. -/
def integers (op : ArithOp) (a b : Int64) : Value :=
  if op = .div ∧ b = 0 then error .divisionByZero
  else
    match op.onIntegers a b with
    | some n => integer n
    | none => error (.breach .division)

/-- A comparison of whole numbers. Equality is exact, order goes by the nearest binary fractions. -/
def compareIntegers (c : Comparison) (a b : Int64) : Bool :=
  match c with
  | .eq => a == b
  | .ne => a != b
  | c => c.onFloats (Float.ofInt a.toInt) (Float.ofInt b.toInt)

/-- Takes two values for numbers. -/
def onNumbers (left right : Value) (f : Float → Float → Value) : Value :=
  match left.number?, right.number? with
  | some x, some y => f x y
  | none, _ => error (.breach (.number left.kind))
  | _, none => error (.breach (.number right.kind))

/-- An operation on two numbers, with a result of a kind. -/
def arithmetic (kind : Kind) (op : ArithOp) (left right : Value) : Value :=
  match left, right with
  | integer a, integer b => integers op a b
  | _, _ =>
    onNumbers left right fun x y =>
      -- A binary fraction divided by zero is infinite or no number, and no fault.
      if op = .div ∧ kind = .integer ∧ y == 0 then error .divisionByZero
      else ofNumber kind (op.onFloats x y)

/-- The fault of operands that an operator does not take. -/
def refuse (op : InfixOp) (left right : Value) : Value :=
  if left.kind = right.kind then error (.unknownInfix left.kind op right.kind)
  else error (.mismatch left.kind op right.kind)

/-- An infix operator between two whole numbers. -/
def infixedIntegers (op : InfixOp) (a b : Int64) : Value :=
  match op.numberOp? with
  | some (.arith op) => integers op a b
  | some (.compare c) => boolean (compareIntegers c a b)
  | none => error (.unknownInfix .integer op .integer)

/-- An infix operator between two numbers. -/
def numbers (op : InfixOp) (left right : Value) : Value :=
  match left, right with
  | integer a, integer b => infixedIntegers op a b
  | _, _ =>
    onNumbers left right fun x y =>
      match op.numberOp? with
      | some (.arith op) => arithmetic (left.kind.widest right.kind) op left right
      | some (.compare c) => boolean (c.onFloats x y)
      | none => refuse op left right

/-- An infix operator between values that are neither both numbers nor both texts. -/
def others (op : InfixOp) (left right : Value) : Value :=
  match op, left, right with
  | .and, boolean a, boolean b => boolean (a && b)
  | .or, boolean a, boolean b => boolean (a || b)
  | .eq, _, _ => boolean (left.same right)
  | .notEq, _, _ => boolean (! left.same right)
  | _, _, _ => refuse op left right

/-- An infix operator that is neither an assignment nor a member. -/
def infixed (op : InfixOp) (left right : Value) : Value :=
  if left.kind.isNumeric && right.kind.isNumeric then numbers op left right
  else
    match left, right with
    | string a, string b =>
      if op = .add then string (a ++ b) else error (.unknownInfix .string op .string)
    | _, _ => others op left right

/-- The new value of a name in a compound assignment. -/
def compound (op : InfixOp) (current right : Value) : Value :=
  match op.compoundOp? with
  | none => error (.compound op current.kind)
  | some arith =>
    match current with
    | string a =>
      if arith ≠ .add then error (.compound op .string)
      else
        match right with
        | string b => string (a ++ b)
        | _ => error (.mismatch .string op right.kind)
    -- The result is narrowed to the kind of the target, however wide the operand is.
    | integer _ | float _ | double _ =>
      if right.kind.isNumeric then arithmetic current.kind arith current right
      else error (.compoundOperand op right.kind)
    | _ => error (.compound op current.kind)

/-- An element of a collection. What is not there is null. -/
def index (collection key : Value) : Value :=
  match collection, key with
  | array _ elements, integer i =>
    if i.toInt < 0 ∨ elements.length ≤ i.toInt then null
    else (elements[i.toInt.toNat]?).getD (error (.breach (.bounds i.toInt elements.length)))
  | hash _ entries, key =>
    match key.key? with
    | none => error (.unusableKey key.kind)
    | some k => (Entries.lookup k entries).getD null
  | _, _ => error (.notIndexable collection.kind)

end Value

end Rill
