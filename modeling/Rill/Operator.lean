import Rill.Token

/-!
# Operators

The prefix and infix operators of the language, their spelling, and how tightly each token binds.
All infix operators of one strength group to the left.
-/

namespace Rill

/-- The operators that stand before their operand. -/
inductive PrefixOp where
  /-- Logical negation `!`. -/
  | not
  /-- Arithmetic negation `-`. -/
  | negate
  deriving DecidableEq, Repr, Inhabited

/-- The operators that stand between their operands. -/
inductive InfixOp where
  /-- `+=` -/
  | addAssign
  /-- `-=` -/
  | subAssign
  /-- `*=` -/
  | mulAssign
  /-- `/=` -/
  | divAssign
  /-- `=` -/
  | assign
  /-- `&&` -/
  | and
  /-- `||` -/
  | or
  /-- `==` -/
  | eq
  /-- `!=` -/
  | notEq
  /-- `<` -/
  | lt
  /-- `<=` -/
  | ltEq
  /-- `>` -/
  | gt
  /-- `>=` -/
  | gtEq
  /-- `+` -/
  | add
  /-- `-` -/
  | sub
  /-- `*` -/
  | mul
  /-- `/` -/
  | div
  /-- `.`, the member of a module -/
  | member
  deriving DecidableEq, Repr, Inhabited

/-- How tightly something binds, from the loosest to the tightest. -/
inductive Strength where
  /-- No operator. -/
  | lowest
  /-- `+=`, `-=`, `*=`, `/=` -/
  | compound
  /-- `=` -/
  | assignment
  /-- `&&`, `||` -/
  | logic
  /-- `==`, `!=` -/
  | equality
  /-- `<`, `<=`, `>`, `>=` -/
  | order
  /-- `+`, `-` -/
  | sum
  /-- `*`, `/` -/
  | product
  /-- A prefix operator. -/
  | prefixed
  /-- `.` -/
  | member
  /-- A call. -/
  | call
  /-- An index. -/
  | index
  deriving DecidableEq, Repr, Inhabited

/-- The place of a strength in the order. -/
def Strength.rank : Strength → Nat
  | lowest => 0
  | compound => 1
  | assignment => 2
  | logic => 3
  | equality => 4
  | order => 5
  | sum => 6
  | product => 7
  | prefixed => 8
  | member => 9
  | call => 10
  | index => 11

namespace PrefixOp

/-- The token of a prefix operator. -/
def kind : PrefixOp → TokenKind
  | not => .bang
  | negate => .minus

/-- The spelling of a prefix operator. -/
def symbol (op : PrefixOp) : Bytes := text op.kind.name

end PrefixOp

namespace InfixOp

/-- The token of an infix operator. -/
def kind : InfixOp → TokenKind
  | addAssign => .plusEq
  | subAssign => .minusEq
  | mulAssign => .asteriskEq
  | divAssign => .slashEq
  | assign => .assign
  | and => .and
  | or => .or
  | eq => .eq
  | notEq => .notEq
  | lt => .lt
  | ltEq => .ltEq
  | gt => .gt
  | gtEq => .gtEq
  | add => .plus
  | sub => .minus
  | mul => .asterisk
  | div => .slash
  | member => .period

/-- The spelling of an infix operator. -/
def symbol (op : InfixOp) : Bytes := text op.kind.name

/-- The infix operator of a token. -/
def ofKind? : TokenKind → Option InfixOp
  | .plusEq => some addAssign
  | .minusEq => some subAssign
  | .asteriskEq => some mulAssign
  | .slashEq => some divAssign
  | .assign => some assign
  | .and => some and
  | .or => some or
  | .eq => some eq
  | .notEq => some notEq
  | .lt => some lt
  | .ltEq => some ltEq
  | .gt => some gt
  | .gtEq => some gtEq
  | .plus => some add
  | .minus => some sub
  | .asterisk => some mul
  | .slash => some div
  | .period => some member
  | _ => none

/-- How tightly an infix operator binds. -/
def strength : InfixOp → Strength
  | addAssign | subAssign | mulAssign | divAssign => .compound
  | assign => .assignment
  | and | or => .logic
  | eq | notEq => .equality
  | lt | ltEq | gt | gtEq => .order
  | add | sub => .sum
  | mul | div => .product
  | member => .member

@[simp] theorem ofKind?_kind (op : InfixOp) : ofKind? op.kind = some op := by
  cases op <;> rfl

end InfixOp

/-- How tightly a token binds to what stands left of it. -/
def TokenKind.strength (kind : TokenKind) : Strength :=
  match InfixOp.ofKind? kind with
  | some op => op.strength
  | none =>
    match kind with
    | .lparen => .call
    | .lbracket => .index
    | _ => .lowest

end Rill
