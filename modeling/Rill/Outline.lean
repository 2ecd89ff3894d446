import Rill.Tree.Printer

/-!
# Outlines of trees

An outline is a tree as plain data: records with named fields, lists and scalars, without positions.
Outlines are what is written into dump files. The fields of a record stand in the order of their
names.
-/

namespace Rill

/-- Plain data. -/
inductive Outline where
  /-- A gap. -/
  | null
  /-- A truth value. -/
  | boolean (value : Bool)
  /-- A whole number. -/
  | integer (value : Int64)
  /-- A number of 32 bits. -/
  | float (value : Float32)
  /-- A number of 64 bits. -/
  | double (value : Float)
  /-- A text. -/
  | string (value : Bytes)
  /-- A list. -/
  | list (elements : List Outline)
  /-- Named fields in the order of their names. -/
  | record (fields : List (String × Outline))
  deriving Inhabited

namespace Outline

/-- A text that is known. -/
def word (s : String) : Outline := string (text s)

/-- The outline of a name. -/
def ofName (name : Name) : Outline :=
  record [("type", word "Identifier"), ("value", string name.text)]

end Outline

mutual

/-- The outline of an expression. -/
def Expr.outline : Expr → Outline
  | .missing => .null
  | .ident name => .ofName name
  | .integer _ spelling value =>
    .record [("token", .string spelling), ("type", .word "IntegerLiteral"),
      ("value", .integer value)]
  | .float _ spelling value =>
    .record [("token", .string spelling), ("type", .word "FloatLiteral"), ("value", .float value)]
  | .double _ spelling value =>
    .record [("token", .string spelling), ("type", .word "DoubleLiteral"), ("value", .double value)]
  | .boolean _ value => .record [("type", .word "Boolean"), ("value", .boolean value)]
  | .string _ value => .record [("type", .word "StringLiteral"), ("value", .string value)]
  | .array _ elements =>
    .record [("elements", .list (outlineAll elements)), ("type", .word "ArrayLiteral")]
  | .hash _ pairs => .record [("pairs", .list (outlinePairs pairs)), ("type", .word "HashLiteral")]
  | .prefixed _ op operand =>
    .record [("operator", .string op.symbol), ("right", operand.outline),
      ("type", .word "PrefixExpression")]
  | .infixed _ op left right =>
    .record [("left", left.outline), ("operator", .string op.symbol), ("right", right.outline),
      ("type", .word "InfixExpression")]
  | .index _ collection key =>
    .record [("index", key.outline), ("left", collection.outline),
      ("type", .word "IndexExpression")]
  | .call _ callee arguments =>
    .record [("arguments", .list (outlineAll arguments)), ("function", callee.outline),
      ("type", .word "CallExpression")]
  | .function _ parameters body =>
    .record [("body", body.outline), ("parameters", .list (parameters.map .ofName)),
      ("type", .word "FunctionLiteral")]
  | .conditional _ condition consequence elifs alternative =>
    .record [("alternative", outlineAlternative alternative), ("condition", condition.outline),
      ("consequence", consequence.outline), ("elif", .list (outlineElifs elifs)),
      ("type", .word "IfExpression")]
  | .loop _ _ counter start condition step body =>
    .record [("body", body.outline), ("condition", condition.outline),
      ("declare", .record [("name", .ofName counter), ("token", .word "let"),
        ("type", .word "LetStatement"), ("value", start.outline)]),
      ("step", step.outline), ("type", .word "ForExpression")]

/-- The outlines of expressions. -/
def outlineAll : List Expr → List Outline
  | [] => []
  | e :: es => e.outline :: outlineAll es

/-- The outlines of the pairs of a hash. -/
def outlinePairs : List (Expr × Expr) → List Outline
  | [] => []
  | (k, v) :: pairs => .record [("key", k.outline), ("value", v.outline)] :: outlinePairs pairs

/-- The outlines of further conditions with their blocks. -/
def outlineElifs : List (Expr × Block) → List Outline
  | [] => []
  | (c, b) :: elifs => .record [("body", b.outline), ("condition", c.outline)] :: outlineElifs elifs

/-- The outline of the last block of a condition, if there is one. -/
def outlineAlternative : Option Block → Outline
  | none => .null
  | some b => b.outline

/-- The outline of a statement. -/
def Stmt.outline : Stmt → Outline
  | .binding _ name value =>
    .record [("name", .ofName name), ("token", .word "let"), ("type", .word "LetStatement"),
      ("value", value.outline)]
  | .returned _ value =>
    .record [("returnValue", value.outline), ("token", .word "return"),
      ("type", .word "ReturnStatement")]
  | .broken _ => .record [("token", .word "break"), ("type", .word "BreakStatement")]
  | .expression first value =>
    .record [("expression", value.outline), ("token", .string first.literal),
      ("type", .word "ExpressionStatement")]

/-- The outlines of statements. -/
def outlineStatements : List Stmt → List Outline
  | [] => []
  | s :: ss => s.outline :: outlineStatements ss

/-- The outline of a block. -/
def Block.outline : Block → Outline
  | .mk _ statements =>
    .record [("statements", .list (outlineStatements statements)), ("token", .word "\x7b"),
      ("type", .word "BlockStatement")]

end

/-- The outline of a program. -/
def Program.outline (p : Program) : Outline :=
  .record [("statements", .list (outlineStatements p.statements)), ("type", .word "Program")]

end Rill
