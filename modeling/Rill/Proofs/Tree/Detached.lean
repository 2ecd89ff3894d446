import Rill.Tree.Printer

/-!
# Trees without their source

A tree that is detached from its source has no offsets, and of the first token of a statement it
keeps the literal only. Two trees that are the same when detached differ in nothing but where their
tokens stood and of what kind the first tokens of their statements were.

* `Program.detached`: the tree without its source.
* `Expr.render_detached`, `Program.render_detached`: the canonical form does not depend on the
  source.
-/

namespace Rill

/-- A name without its offset. -/
def Name.detached (name : Name) : Name := ⟨0, name.text⟩

/-- A token of which only the literal is known. -/
def Token.detached (t : Token) : Token := ⟨default, t.literal, 0⟩

mutual

/-- An expression without its source. -/
def Expr.detached : Expr → Expr
  | .missing => .missing
  | .ident name => .ident name.detached
  | .integer _ spelling value => .integer 0 spelling value
  | .float _ spelling value => .float 0 spelling value
  | .double _ spelling value => .double 0 spelling value
  | .boolean _ value => .boolean 0 value
  | .string _ value => .string 0 value
  | .array _ elements => .array 0 (detachedAll elements)
  | .hash _ pairs => .hash 0 (detachedPairs pairs)
  | .prefixed _ op operand => .prefixed 0 op operand.detached
  | .infixed _ op left right => .infixed 0 op left.detached right.detached
  | .index _ collection key => .index 0 collection.detached key.detached
  | .call _ callee arguments => .call 0 callee.detached (detachedAll arguments)
  | .function _ parameters body => .function 0 (parameters.map Name.detached) body.detached
  | .conditional _ condition consequence elifs alternative =>
    .conditional 0 condition.detached consequence.detached (detachedElifs elifs)
      (detachedAlternative alternative)
  | .loop _ _ counter start condition step body =>
    .loop 0 0 counter.detached start.detached condition.detached step.detached body.detached

/-- Expressions without their source. -/
def detachedAll : List Expr → List Expr
  | [] => []
  | e :: es => e.detached :: detachedAll es

/-- The pairs of a hash without their source. -/
def detachedPairs : List (Expr × Expr) → List (Expr × Expr)
  | [] => []
  | (k, v) :: pairs => (k.detached, v.detached) :: detachedPairs pairs

/-- Further conditions and their blocks without their source. -/
def detachedElifs : List (Expr × Block) → List (Expr × Block)
  | [] => []
  | (c, b) :: elifs => (c.detached, b.detached) :: detachedElifs elifs

/-- The last block of a conditional without its source. -/
def detachedAlternative : Option Block → Option Block
  | none => none
  | some b => some b.detached

/-- A statement without its source. -/
def Stmt.detached : Stmt → Stmt
  | .binding _ name value => .binding 0 name.detached value.detached
  | .returned _ value => .returned 0 value.detached
  | .broken _ => .broken 0
  | .expression first value => .expression first.detached value.detached

/-- Statements without their source. -/
def detachedStatements : List Stmt → List Stmt
  | [] => []
  | s :: ss => s.detached :: detachedStatements ss

/-- A block without its source. -/
def Block.detached : Block → Block
  | .mk _ statements => .mk 0 (detachedStatements statements)

end

/-- A program without its source. -/
def Program.detached (p : Program) : Program := ⟨detachedStatements p.statements⟩

@[simp]
theorem Name.text_detached (name : Name) : name.detached.text = name.text := rfl

@[simp]
theorem Block.statements_detached (b : Block) :
    b.detached.statements = detachedStatements b.statements := by
  cases b
  rfl

/-! ## Canonical forms -/

mutual

/-- The canonical form of an expression does not show offsets. -/
@[simp]
theorem Expr.render_detached : (e : Expr) → e.detached.render = e.render
  | .missing | .ident _ | .integer .. | .float .. | .double .. | .boolean .. | .string .. => rfl
  | .array _ elements => by simp only [Expr.detached, Expr.render, renderAll_detachedAll elements]
  | .hash _ pairs => by simp only [Expr.detached, Expr.render, renderPairs_detachedPairs pairs]
  | .prefixed _ _ operand => by simp only [Expr.detached, Expr.render, operand.render_detached]
  | .infixed _ _ left right => by
    simp only [Expr.detached, Expr.render, left.render_detached, right.render_detached]
  | .index _ collection key => by
    simp only [Expr.detached, Expr.render, collection.render_detached, key.render_detached]
  | .call _ callee arguments => by
    simp only [Expr.detached, Expr.render, callee.render_detached, renderAll_detachedAll arguments]
  | .function _ parameters body => by
    simp only [Expr.detached, Expr.render, body.render_detached, List.map_map, Function.comp_def,
      Name.text_detached]
  | .conditional _ condition consequence elifs alternative => by
    simp only [Expr.detached, Expr.render, condition.render_detached, consequence.render_detached,
      renderElifs_detachedElifs elifs, renderAlternative_detachedAlternative alternative]
  | .loop _ _ _ start condition step body => by
    simp only [Expr.detached, Expr.render, Name.text_detached, start.render_detached,
      condition.render_detached, step.render_detached, body.render_detached]

/-- The canonical forms of expressions in a row do not show offsets. -/
theorem renderAll_detachedAll : (es : List Expr) → renderAll (detachedAll es) = renderAll es
  | [] => rfl
  | e :: es => by simp only [detachedAll, renderAll, e.render_detached, renderAll_detachedAll es]

/-- The canonical forms of the pairs of a hash do not show offsets. -/
theorem renderPairs_detachedPairs : (pairs : List (Expr × Expr)) →
    renderPairs (detachedPairs pairs) = renderPairs pairs
  | [] => rfl
  | (k, v) :: pairs => by
    simp only [detachedPairs, renderPairs, k.render_detached, v.render_detached,
      renderPairs_detachedPairs pairs]

/-- The canonical forms of further conditions do not show offsets. -/
theorem renderElifs_detachedElifs : (elifs : List (Expr × Block)) →
    renderElifs (detachedElifs elifs) = renderElifs elifs
  | [] => rfl
  | (c, b) :: elifs => by
    simp only [detachedElifs, renderElifs, c.render_detached, b.render_detached,
      renderElifs_detachedElifs elifs]

/-- The canonical form of a last block does not show offsets. -/
theorem renderAlternative_detachedAlternative : (alternative : Option Block) →
    renderAlternative (detachedAlternative alternative) = renderAlternative alternative
  | none => rfl
  | some b => by simp only [detachedAlternative, renderAlternative, b.render_detached]

/-- The canonical form of a statement does not show offsets. -/
@[simp]
theorem Stmt.render_detached : (s : Stmt) → s.detached.render = s.render
  | .binding _ _ value => by
    simp only [Stmt.detached, Stmt.render, Name.text_detached, value.render_detached]
  | .returned _ value => by simp only [Stmt.detached, Stmt.render, value.render_detached]
  | .broken _ => rfl
  | .expression _ value => by simp only [Stmt.detached, Stmt.render, value.render_detached]

/-- The canonical form of statements in a row does not show offsets. -/
theorem renderStatements_detachedStatements : (ss : List Stmt) →
    renderStatements (detachedStatements ss) = renderStatements ss
  | [] => rfl
  | s :: ss => by
    simp only [detachedStatements, renderStatements, s.render_detached,
      renderStatements_detachedStatements ss]

/-- The canonical form of a block does not show offsets. -/
@[simp]
theorem Block.render_detached : (b : Block) → b.detached.render = b.render
  | .mk _ statements => by
    simp only [Block.detached, Block.render, renderStatements_detachedStatements statements]

end

/-- The canonical form of a program does not show offsets. -/
@[simp]
theorem Program.render_detached (p : Program) : p.detached.render = p.render :=
  renderStatements_detachedStatements p.statements

end Rill
