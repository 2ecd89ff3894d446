import Rill.Tree

/-!
# Trees as text

`Program.render` writes a tree as source text in one canonical form: operators are put in
parentheses together with their operands, numbers are spelled as they were read, and statements
follow each other without a space. A gap is written as nothing.

`Stmt.label` and `Expr.label` give the text of the token that a node is named after.
-/

namespace Rill

mutual

/-- An expression in canonical form. -/
def Expr.render : Expr → Bytes
  | .missing => []
  | .ident name => name.text
  | .integer _ spelling _ => spelling
  | .float _ spelling _ => spelling
  | .double _ spelling _ => spelling
  | .boolean _ value => if value then text "true" else text "false"
  | .string _ value => text "\"" ++ value ++ text "\""
  | .array _ elements => text "[" ++ Bytes.join (text ", ") (renderAll elements) ++ text "]"
  | .hash _ pairs => text "\x7b" ++ Bytes.join (text ", ") (renderPairs pairs) ++ text "\x7d"
  | .prefixed _ op operand => text "(" ++ op.symbol ++ operand.render ++ text ")"
  | .infixed _ op left right =>
    text "(" ++ left.render ++ text " " ++ op.symbol ++ text " " ++ right.render ++ text ")"
  | .index _ collection key =>
    text "(" ++ collection.render ++ text "[" ++ key.render ++ text "])"
  | .call _ callee arguments =>
    callee.render ++ text "(" ++ Bytes.join (text ", ") (renderAll arguments) ++ text ")"
  | .function _ parameters body =>
    text "fn(" ++ Bytes.join (text ", ") (parameters.map Name.text) ++ text ") " ++ body.render
  | .conditional _ condition consequence elifs alternative =>
    text "if " ++ condition.render ++ text " " ++ consequence.render ++ renderElifs elifs ++
      renderAlternative alternative
  | .loop _ _ counter start condition step body =>
    text "for (let " ++ counter.text ++ text " = " ++ start.render ++ text "; " ++
      condition.render ++ text "; " ++ step.render ++ text ") " ++ body.render

/-- Expressions, each in canonical form. -/
def renderAll : List Expr → List Bytes
  | [] => []
  | e :: es => e.render :: renderAll es

/-- The pairs of a hash, each as key, colon and value. -/
def renderPairs : List (Expr × Expr) → List Bytes
  | [] => []
  | (k, v) :: pairs => (k.render ++ text ":" ++ v.render) :: renderPairs pairs

/-- Further conditions with their blocks. -/
def renderElifs : List (Expr × Block) → Bytes
  | [] => []
  | (c, b) :: elifs =>
    text " elif " ++ c.render ++ text " " ++ b.render ++ renderElifs elifs

/-- The last block of a condition, if there is one. -/
def renderAlternative : Option Block → Bytes
  | none => []
  | some b => text " else " ++ b.render

/-- A statement in canonical form. -/
def Stmt.render : Stmt → Bytes
  | .binding _ name value => text "let " ++ name.text ++ text " = " ++ value.render ++ text ";"
  | .returned _ value => text "return " ++ value.render ++ text ";"
  | .broken _ => text "break;"
  | .expression _ value => value.render

/-- Statements one after the other. -/
def renderStatements : List Stmt → Bytes
  | [] => []
  | s :: ss => s.render ++ renderStatements ss

/-- A block with its braces. -/
def Block.render : Block → Bytes
  | .mk _ statements => text "\x7b" ++ renderStatements statements ++ text "\x7d"

end

/-- A program in canonical form. -/
def Program.render (p : Program) : Bytes := renderStatements p.statements

/-- The text of the token that an expression is named after. -/
def Expr.label : Expr → Bytes
  | .missing => []
  | .ident name => name.text
  | .integer _ spelling _ => spelling
  | .float _ spelling _ => spelling
  | .double _ spelling _ => spelling
  | .boolean _ value => if value then text "true" else text "false"
  | .string _ value => value
  | .array .. => text "["
  | .hash .. => text "\x7b"
  | .prefixed _ op _ => op.symbol
  | .infixed _ op _ _ => op.symbol
  | .index .. => text "["
  | .call .. => text "("
  | .function .. => text "fn"
  | .conditional .. => text "if"
  | .loop .. => text "for"

/-- The text of the token that a statement starts with. -/
def Stmt.label : Stmt → Bytes
  | .binding .. => text "let"
  | .returned .. => text "return"
  | .broken _ => text "break"
  | .expression first _ => first.literal

/-- The text of the token that a program starts with. -/
def Program.label (p : Program) : Bytes :=
  match p.statements with
  | [] => []
  | s :: _ => s.label

end Rill
