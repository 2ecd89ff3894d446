import Rill.Operator

/-!
# Syntax trees

The tree of a program: statements and expressions, each with the byte offset of the token that it is
named after. A tree that was read from a malformed source can have gaps, which are `Expr.missing`;
`Program.IsComplete` says that there are none.

Numbers keep their spelling beside their value, because trees are printed with the spelling.
-/

namespace Rill

/-- A name with the offset at which it stands. -/
structure Name where
  /-- The offset of the name. -/
  pos : Nat
  /-- The spelling of the name. -/
  text : Bytes
  deriving DecidableEq, Repr, Inhabited

mutual

/-- An expression. -/
inductive Expr where
  /-- A gap where the source has no readable expression. -/
  | missing
  /-- A variable. -/
  | ident (name : Name)
  /-- A whole number of 64 bits. -/
  | integer (pos : Nat) (spelling : Bytes) (value : Int64)
  /-- A number of 32 bits. -/
  | float (pos : Nat) (spelling : Bytes) (value : Float32)
  /-- A number of 64 bits. -/
  | double (pos : Nat) (spelling : Bytes) (value : Float)
  /-- A truth value. -/
  | boolean (pos : Nat) (value : Bool)
  /-- A text. -/
  | string (pos : Nat) (value : Bytes)
  /-- A list of elements. -/
  | array (pos : Nat) (elements : List Expr)
  /-- Pairs of a key and a value. -/
  | hash (pos : Nat) (pairs : List (Expr × Expr))
  /-- A prefix operator and its operand. -/
  | prefixed (pos : Nat) (op : PrefixOp) (operand : Expr)
  /-- An infix operator between its operands. -/
  | infixed (pos : Nat) (op : InfixOp) (left right : Expr)
  /-- An element of a collection. -/
  | index (pos : Nat) (collection key : Expr)
  /-- A call. -/
  | call (pos : Nat) (callee : Expr) (arguments : List Expr)
  /-- A function. -/
  | function (pos : Nat) (parameters : List Name) (body : Block)
  /-- A condition with its block, further conditions with theirs, and what holds otherwise. -/
  | conditional (pos : Nat) (condition : Expr) (consequence : Block) (elifs : List (Expr × Block))
      (alternative : Option Block)
  /-- A loop: the variable and its first value, the condition, the step and the body. -/
  | loop (pos letPos : Nat) (counter : Name) (start condition : Expr) (step : Stmt) (body : Block)

/-- A statement. -/
inductive Stmt where
  /-- A new binding. -/
  | binding (pos : Nat) (name : Name) (value : Expr)
  /-- The end of a function with a value. -/
  | returned (pos : Nat) (value : Expr)
  /-- The end of a loop. -/
  | broken (pos : Nat)
  /-- An expression, with the first token of it. -/
  | expression (first : Token) (value : Expr)

/-- Statements between braces. -/
inductive Block where
  /-- The offset of the opening brace, and the statements. -/
  | mk (pos : Nat) (statements : List Stmt)

end

instance : Inhabited Expr := ⟨.missing⟩
instance : Inhabited Block := ⟨.mk 0 []⟩
instance : Inhabited Stmt := ⟨.broken 0⟩

/-- A program is a list of statements. -/
structure Program where
  /-- The statements in source order. -/
  statements : List Stmt
  deriving Inhabited

/-- The statements of a block. -/
def Block.statements : Block → List Stmt
  | mk _ statements => statements

/-- Whether an expression is a gap. -/
def Expr.isMissing : Expr → Bool
  | missing => true
  | _ => false

mutual

/-- Whether an expression has no gaps. -/
def Expr.isComplete : Expr → Bool
  | .missing => false
  | .ident _ | .integer .. | .float .. | .double .. | .boolean .. | .string .. => true
  | .array _ elements => areComplete elements
  | .hash _ pairs => pairsComplete pairs
  | .prefixed _ _ operand => operand.isComplete
  | .infixed _ _ left right => left.isComplete && right.isComplete
  | .index _ collection key => collection.isComplete && key.isComplete
  | .call _ callee arguments => callee.isComplete && areComplete arguments
  | .function _ _ body => body.isComplete
  | .conditional _ condition consequence elifs alternative =>
    condition.isComplete && consequence.isComplete && elifsComplete elifs &&
      alternativeComplete alternative
  | .loop _ _ _ start condition step body =>
    start.isComplete && condition.isComplete && step.isComplete && body.isComplete

/-- Whether expressions have no gaps. -/
def areComplete : List Expr → Bool
  | [] => true
  | e :: es => e.isComplete && areComplete es

/-- Whether the pairs of a hash have no gaps. -/
def pairsComplete : List (Expr × Expr) → Bool
  | [] => true
  | (k, v) :: pairs => k.isComplete && v.isComplete && pairsComplete pairs

/-- Whether further conditions and their blocks have no gaps. -/
def elifsComplete : List (Expr × Block) → Bool
  | [] => true
  | (c, b) :: elifs => c.isComplete && b.isComplete && elifsComplete elifs

/-- Whether the last block of a condition, if there is one, has no gaps. -/
def alternativeComplete : Option Block → Bool
  | none => true
  | some b => b.isComplete

/-- Whether a statement has no gaps. -/
def Stmt.isComplete : Stmt → Bool
  | .binding _ _ value => value.isComplete
  | .returned _ value => value.isComplete
  | .broken _ => true
  | .expression _ value => value.isComplete

/-- Whether statements have no gaps. -/
def statementsComplete : List Stmt → Bool
  | [] => true
  | s :: ss => s.isComplete && statementsComplete ss

/-- Whether a block has no gaps. -/
def Block.isComplete : Block → Bool
  | .mk _ statements => statementsComplete statements

end

/-- A program without gaps. -/
def Program.IsComplete (p : Program) : Prop := statementsComplete p.statements = true

end Rill
