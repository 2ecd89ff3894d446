import Rill.Outline
import Rill.Proofs.Tree.Detached

/-!
# Trees from outlines

An outline has all of a tree but its source, so the tree can be read back from it.

* `Part`: what an outline stands for in a tree.
* `Outline.part?`: reads an outline, given what its fields and elements stand for.
* `Program.ofOutline?`: the tree of an outline.
* `Program.ofOutline?_outline`: the outline of a tree is read back as the tree without its source.
* `Program.outline_eq_iff`: trees have one outline exactly if they are the same without their
  source.
-/

namespace Rill

/-! ## Spellings -/

/-- The one of some things that is spelled in a way. -/
def ofSpelling? {α : Type} (all : List α) (spelling : α → Bytes) (s : Bytes) : Option α :=
  all.find? fun a => spelling a == s

/-- Things that are spelled differently are found by their spelling. -/
theorem ofSpelling?_spelling {α : Type} {all : List α} {spelling : α → Bytes} {a : α}
    (hdistinct : (all.map spelling).Nodup) (ha : a ∈ all) :
    ofSpelling? all spelling (spelling a) = some a := by
  induction all with
  | nil => cases ha
  | cons b all ih =>
    rw [List.map_cons, List.nodup_cons] at hdistinct
    rw [ofSpelling?, List.find?_cons]
    rcases List.mem_cons.mp ha with rfl | ha
    · rw [BEq.rfl]
    · -- What stands first is not found, as it is spelled in another way.
      have hne : (spelling b == spelling a) = false :=
        beq_false_of_ne fun h => hdistinct.1 (h ▸ List.mem_map_of_mem ha)
      rw [hne]
      exact ih hdistinct.2 ha

/-- The prefix operators. -/
def PrefixOp.all : List PrefixOp := [.not, .negate]

/-- A prefix operator is found by its symbol. -/
theorem PrefixOp.ofSpelling?_symbol (op : PrefixOp) : ofSpelling? all symbol op.symbol = some op :=
  ofSpelling?_spelling (by decide +kernel) (by cases op <;> decide)

/-- The infix operators. -/
def InfixOp.all : List InfixOp :=
  [.addAssign, .subAssign, .mulAssign, .divAssign, .assign, .and, .or, .eq, .notEq, .lt, .ltEq,
    .gt, .gtEq, .add, .sub, .mul, .div, .member]

/-- An infix operator is found by its symbol. -/
theorem InfixOp.ofSpelling?_symbol (op : InfixOp) : ofSpelling? all symbol op.symbol = some op :=
  ofSpelling?_spelling (by decide +kernel) (by cases op <;> decide)

/-- The kinds of records in outlines. -/
inductive Shape where
  | identifier
  | integer
  | float
  | double
  | boolean
  | string
  | array
  | hash
  | prefixed
  | infixed
  | index
  | call
  | function
  | conditional
  | loop
  | binding
  | returned
  | broken
  | expression
  | block
  | program
  deriving DecidableEq

namespace Shape

/-- The name of a kind of records. -/
def label : Shape → Bytes
  | identifier => text "Identifier"
  | integer => text "IntegerLiteral"
  | float => text "FloatLiteral"
  | double => text "DoubleLiteral"
  | boolean => text "Boolean"
  | string => text "StringLiteral"
  | array => text "ArrayLiteral"
  | hash => text "HashLiteral"
  | prefixed => text "PrefixExpression"
  | infixed => text "InfixExpression"
  | index => text "IndexExpression"
  | call => text "CallExpression"
  | function => text "FunctionLiteral"
  | conditional => text "IfExpression"
  | loop => text "ForExpression"
  | binding => text "LetStatement"
  | returned => text "ReturnStatement"
  | broken => text "BreakStatement"
  | expression => text "ExpressionStatement"
  | block => text "BlockStatement"
  | program => text "Program"

/-- The kinds of records. -/
def all : List Shape :=
  [identifier, integer, float, double, boolean, string, array, hash, prefixed, infixed, index,
    call, function, conditional, loop, binding, returned, broken, expression, block, program]

/-- A shape is found by its label. -/
theorem ofSpelling?_label (shape : Shape) : ofSpelling? all label shape.label = some shape :=
  ofSpelling?_spelling (by decide +kernel) (by cases shape <;> decide)

end Shape

/-! ## Parts of trees -/

/-- What an outline stands for in a tree. -/
inductive Part where
  /-- A gap, or the absence of a last block. -/
  | null
  /-- A truth value. -/
  | boolean (value : Bool)
  /-- A whole number. -/
  | integer (value : Int64)
  /-- A number of 32 bits. -/
  | float (value : Float32)
  /-- A number of 64 bits. -/
  | double (value : Float)
  /-- A text. -/
  | string (value : Bytes)
  /-- A list of parts. -/
  | list (parts : List Part)
  /-- A name, which is an expression as well. -/
  | name (name : Name)
  /-- An expression that is neither a gap nor a name. -/
  | expr (e : Expr)
  /-- A pair of a hash. -/
  | pair (key value : Expr)
  /-- A further condition with its block. -/
  | elif (condition : Expr) (body : Block)
  /-- A statement. -/
  | stmt (s : Stmt)
  /-- A block. -/
  | block (b : Block)
  /-- A program. -/
  | program (p : Program)

namespace Part

/-- A part that is a truth value. -/
@[simp]
def boolean? : Part → Option Bool
  | boolean value => some value
  | _ => none

/-- A part that is a whole number. -/
@[simp]
def integer? : Part → Option Int64
  | integer value => some value
  | _ => none

/-- A part that is a number of 32 bits. -/
@[simp]
def float? : Part → Option Float32
  | float value => some value
  | _ => none

/-- A part that is a number of 64 bits. -/
@[simp]
def double? : Part → Option Float
  | double value => some value
  | _ => none

/-- A part that is a text. -/
@[simp]
def string? : Part → Option Bytes
  | string value => some value
  | _ => none

/-- A part that is a list of parts of one sort. -/
@[simp]
def list? {α : Type} (sort : Part → Option α) : Part → Option (List α)
  | list parts => parts.mapM sort
  | _ => none

/-- A part that is a name. -/
@[simp]
def name? : Part → Option Name
  | name n => some n
  | _ => none

/-- A part that is an expression. -/
def expr? : Part → Option Expr
  | null => some .missing
  | name n => some (.ident n)
  | expr e => some e
  | _ => none

/-- A part that is a pair of a hash. -/
@[simp]
def pair? : Part → Option (Expr × Expr)
  | pair key value => some (key, value)
  | _ => none

/-- A part that is a further condition with its block. -/
@[simp]
def elif? : Part → Option (Expr × Block)
  | elif condition body => some (condition, body)
  | _ => none

/-- A part that is a statement. -/
@[simp]
def stmt? : Part → Option Stmt
  | stmt s => some s
  | _ => none

/-- A part that is a block. -/
@[simp]
def block? : Part → Option Block
  | block b => some b
  | _ => none

/-- A part that is the last block of a conditional, or the absence of one. -/
def alternative? : Part → Option (Option Block)
  | null => some none
  | block b => some (some b)
  | _ => none

/-- A part that is a program. -/
def program? : Part → Option Program
  | program p => some p
  | _ => none

end Part

/-- The parts that the fields of a record stand for. -/
abbrev Parts := List (String × Part)

namespace Parts

/-- The field of a name, if it is of a sort. -/
@[simp]
def get? {α : Type} (parts : Parts) (name : String) (sort : Part → Option α) : Option α :=
  (parts.lookup name).bind sort

/-- The part that a record of a kind stands for. -/
def assemble? (parts : Parts) : Shape → Option Part
  | .identifier => do return .name ⟨0, ← parts.get? "value" Part.string?⟩
  | .integer => do
    return .expr (.integer 0 (← parts.get? "token" Part.string?)
      (← parts.get? "value" Part.integer?))
  | .float => do
    return .expr (.float 0 (← parts.get? "token" Part.string?) (← parts.get? "value" Part.float?))
  | .double => do
    return .expr (.double 0 (← parts.get? "token" Part.string?) (← parts.get? "value" Part.double?))
  | .boolean => do return .expr (.boolean 0 (← parts.get? "value" Part.boolean?))
  | .string => do return .expr (.string 0 (← parts.get? "value" Part.string?))
  | .array => do return .expr (.array 0 (← parts.get? "elements" (Part.list? Part.expr?)))
  | .hash => do return .expr (.hash 0 (← parts.get? "pairs" (Part.list? Part.pair?)))
  | .prefixed => do
    let op ← ofSpelling? PrefixOp.all PrefixOp.symbol (← parts.get? "operator" Part.string?)
    return .expr (.prefixed 0 op (← parts.get? "right" Part.expr?))
  | .infixed => do
    let op ← ofSpelling? InfixOp.all InfixOp.symbol (← parts.get? "operator" Part.string?)
    return .expr (.infixed 0 op (← parts.get? "left" Part.expr?) (← parts.get? "right" Part.expr?))
  | .index => do
    return .expr (.index 0 (← parts.get? "left" Part.expr?) (← parts.get? "index" Part.expr?))
  | .call => do
    return .expr (.call 0 (← parts.get? "function" Part.expr?)
      (← parts.get? "arguments" (Part.list? Part.expr?)))
  | .function => do
    return .expr (.function 0 (← parts.get? "parameters" (Part.list? Part.name?))
      (← parts.get? "body" Part.block?))
  | .conditional => do
    return .expr (.conditional 0 (← parts.get? "condition" Part.expr?)
      (← parts.get? "consequence" Part.block?)
      (← parts.get? "elif" (Part.list? Part.elif?)) (← parts.get? "alternative" Part.alternative?))
  -- The counter of a loop is outlined as the statement that binds it.
  | .loop => do
    match ← parts.get? "declare" Part.stmt? with
    | .binding _ counter start =>
      return .expr (.loop 0 0 counter start (← parts.get? "condition" Part.expr?)
        (← parts.get? "step" Part.stmt?) (← parts.get? "body" Part.block?))
    | _ => none
  | .binding => do
    return .stmt (.binding 0 (← parts.get? "name" Part.name?) (← parts.get? "value" Part.expr?))
  | .returned => do return .stmt (.returned 0 (← parts.get? "returnValue" Part.expr?))
  | .broken => return .stmt (.broken 0)
  | .expression => do
    return .stmt (.expression ⟨default, ← parts.get? "token" Part.string?, 0⟩
      (← parts.get? "expression" Part.expr?))
  | .block => do return .block (.mk 0 (← parts.get? "statements" (Part.list? Part.stmt?)))
  | .program => do return .program ⟨← parts.get? "statements" (Part.list? Part.stmt?)⟩

/-- The part that a record stands for. A record without a kind is a pair of a hash or a further
condition. -/
def part? (parts : Parts) : Option Part :=
  match parts.lookup "type" with
  | some kind => do parts.assemble? (← ofSpelling? Shape.all Shape.label (← kind.string?))
  | none =>
    match parts.lookup "key" with
    | some key => do return .pair (← key.expr?) (← parts.get? "value" Part.expr?)
    | none => do
      return .elif (← parts.get? "condition" Part.expr?) (← parts.get? "body" Part.block?)

end Parts

mutual

/-- The part of a tree that an outline stands for. -/
@[simp]
def Outline.part? : Outline → Option Part
  | .null => some .null
  | .boolean value => some (.boolean value)
  | .integer value => some (.integer value)
  | .float value => some (.float value)
  | .double value => some (.double value)
  | .string value => some (.string value)
  | .list elements => (elementParts? elements).map .list
  | .record fields => (fieldParts? fields).bind Parts.part?

/-- The parts that outlines stand for. -/
@[simp]
def elementParts? : List Outline → Option (List Part)
  | [] => some []
  | o :: os => do return (← o.part?) :: (← elementParts? os)

/-- The parts that the fields of a record stand for. -/
@[simp]
def fieldParts? : List (String × Outline) → Option Parts
  | [] => some []
  | (name, o) :: fields => do return (name, ← o.part?) :: (← fieldParts? fields)

end

/-- The tree of an outline. -/
def Program.ofOutline? (o : Outline) : Option Program := o.part?.bind Part.program?

/-! ## Reading back -/

/-- A record with the name of its kind. -/
theorem Outline.part?_record {fields : List (String × Outline)} {parts : Parts} {part : Part}
    (shape : Shape) (hfields : fieldParts? fields = some parts)
    (htype : parts.lookup "type" = some (.string shape.label))
    (hpart : parts.assemble? shape = some part) : (Outline.record fields).part? = some part := by
  rw [Outline.part?, hfields, Option.bind_some, Parts.part?, htype]
  show (ofSpelling? Shape.all Shape.label shape.label).bind _ = _
  rw [Shape.ofSpelling?_label]
  exact hpart

/-- The outline of a name is decoded to the name. -/
theorem part?_ofName (name : Name) : (Outline.ofName name).part? = some (.name name.detached) :=
  Outline.part?_record .identifier rfl rfl rfl

/-- The outlines of parameters are decoded to the parameters. -/
theorem elementParts?_ofName : (names : List Name) →
    ∃ parts, elementParts? (names.map .ofName) = some parts ∧
      parts.mapM Part.name? = some (names.map Name.detached)
  | [] => ⟨[], rfl, rfl⟩
  | name :: names => by
    obtain ⟨parts, hnames, hnames'⟩ := elementParts?_ofName names
    exact ⟨.name name.detached :: parts, by simp [part?_ofName, hnames], by simp [hnames']⟩

/-- A binding, which is a statement or a part of a loop. -/
theorem part?_binding (name : Name) {o : Outline} {value : Part} {e : Expr}
    (ho : o.part? = some value) (hvalue : value.expr? = some e) :
    (Outline.record [("name", .ofName name), ("token", .word "let"), ("type", .word "LetStatement"),
      ("value", o)]).part? = some (.stmt (.binding 0 name.detached e)) := by
  refine Outline.part?_record .binding (by simp [part?_ofName, ho]; rfl) rfl ?_
  simp [Parts.assemble?, List.lookup_cons, hvalue]

mutual

/-- The outline of an expression is read back as the expression without its source. -/
theorem Expr.part?_outline :
    (e : Expr) → ∃ part, e.outline.part? = some part ∧ part.expr? = some e.detached
  | .missing => ⟨_, rfl, rfl⟩
  | .ident name => ⟨_, part?_ofName name, rfl⟩
  | .integer .. => ⟨_, Outline.part?_record .integer rfl rfl rfl, rfl⟩
  | .float .. => ⟨_, Outline.part?_record .float rfl rfl rfl, rfl⟩
  | .double .. => ⟨_, Outline.part?_record .double rfl rfl rfl, rfl⟩
  | .boolean .. => ⟨_, Outline.part?_record .boolean rfl rfl rfl, rfl⟩
  | .string .. => ⟨_, Outline.part?_record .string rfl rfl rfl, rfl⟩
  | .array _ elements => by
    obtain ⟨es, hes, hes'⟩ := elementParts?_outlineAll elements
    refine ⟨.expr _, Outline.part?_record .array (by simp [hes]; rfl) rfl ?_, rfl⟩
    simp [Parts.assemble?, Expr.detached, hes']
  | .hash _ pairs => by
    obtain ⟨ps, hps, hps'⟩ := elementParts?_outlinePairs pairs
    refine ⟨.expr _, Outline.part?_record .hash (by simp [hps]; rfl) rfl ?_, rfl⟩
    simp [Parts.assemble?, Expr.detached, hps']
  | .prefixed _ op operand => by
    obtain ⟨r, hr, hr'⟩ := operand.part?_outline
    refine ⟨.expr _, Outline.part?_record .prefixed (by simp [hr]; rfl) rfl ?_, rfl⟩
    simp [Parts.assemble?, List.lookup_cons, Expr.detached, hr', PrefixOp.ofSpelling?_symbol]
  | .infixed _ op left right => by
    obtain ⟨l, hl, hl'⟩ := left.part?_outline
    obtain ⟨r, hr, hr'⟩ := right.part?_outline
    refine ⟨.expr _, Outline.part?_record .infixed (by simp [hl, hr]; rfl) rfl ?_, rfl⟩
    simp [Parts.assemble?, List.lookup_cons, Expr.detached, hl', hr', InfixOp.ofSpelling?_symbol]
  | .index _ collection key => by
    obtain ⟨c, hc, hc'⟩ := collection.part?_outline
    obtain ⟨k, hk, hk'⟩ := key.part?_outline
    refine ⟨.expr _, Outline.part?_record .index (by simp [hc, hk]; rfl) rfl ?_, rfl⟩
    simp [Parts.assemble?, List.lookup_cons, Expr.detached, hc', hk']
  | .call _ callee arguments => by
    obtain ⟨c, hc, hc'⟩ := callee.part?_outline
    obtain ⟨es, hes, hes'⟩ := elementParts?_outlineAll arguments
    refine ⟨.expr _, Outline.part?_record .call (by simp [hc, hes]; rfl) rfl ?_, rfl⟩
    simp [Parts.assemble?, List.lookup_cons, Expr.detached, hc', hes']
  | .function _ parameters body => by
    obtain ⟨names, hnames, hnames'⟩ := elementParts?_ofName parameters
    have hbody := body.part?_outline
    refine ⟨.expr _, Outline.part?_record .function (by simp [hnames, hbody]; rfl) rfl ?_, rfl⟩
    simp [Parts.assemble?, List.lookup_cons, Expr.detached, hnames']
  | .conditional _ condition consequence elifs alternative => by
    obtain ⟨c, hc, hc'⟩ := condition.part?_outline
    have hbody := consequence.part?_outline
    obtain ⟨es, hes, hes'⟩ := elementParts?_outlineElifs elifs
    obtain ⟨a, ha, ha'⟩ := part?_outlineAlternative alternative
    refine ⟨.expr _, Outline.part?_record .conditional (by simp [hc, hbody, hes, ha]; rfl) rfl ?_,
      rfl⟩
    simp [Parts.assemble?, List.lookup_cons, Expr.detached, hc', hes', ha']
  | .loop _ _ counter start condition step body => by
    obtain ⟨v, hv, hv'⟩ := start.part?_outline
    have hdeclare := part?_binding counter hv hv'
    obtain ⟨c, hc, hc'⟩ := condition.part?_outline
    have hstep := step.part?_outline
    have hbody := body.part?_outline
    refine ⟨.expr _, Outline.part?_record .loop
      (by simp [-Outline.part?, hdeclare, hc, hstep, hbody]; rfl) rfl ?_,
      rfl⟩
    simp [Parts.assemble?, List.lookup_cons, Expr.detached, hc']

/-- The outlines of expressions in a row are decoded to the expressions. -/
theorem elementParts?_outlineAll : (es : List Expr) →
    ∃ parts, elementParts? (outlineAll es) = some parts ∧
      parts.mapM Part.expr? = some (detachedAll es)
  | [] => ⟨[], rfl, rfl⟩
  | e :: es => by
    obtain ⟨part, he, he'⟩ := e.part?_outline
    obtain ⟨parts, hes, hes'⟩ := elementParts?_outlineAll es
    exact ⟨part :: parts, by simp [outlineAll, he, hes], by simp [detachedAll, he', hes']⟩

/-- The outlines of the pairs of a hash are decoded to the pairs. -/
theorem elementParts?_outlinePairs : (pairs : List (Expr × Expr)) →
    ∃ parts, elementParts? (outlinePairs pairs) = some parts ∧
      parts.mapM Part.pair? = some (detachedPairs pairs)
  | [] => ⟨[], rfl, rfl⟩
  | (k, v) :: pairs => by
    obtain ⟨key, hk, hk'⟩ := k.part?_outline
    obtain ⟨value, hv, hv'⟩ := v.part?_outline
    obtain ⟨parts, hpairs, hpairs'⟩ := elementParts?_outlinePairs pairs
    refine ⟨.pair k.detached v.detached :: parts, ?_, by simp [detachedPairs, hpairs']⟩
    simp [outlinePairs, Parts.part?, List.lookup_cons, hk, hv, hpairs, hk', hv']

/-- The outlines of further conditions are decoded to the conditions and their blocks. -/
theorem elementParts?_outlineElifs : (elifs : List (Expr × Block)) →
    ∃ parts, elementParts? (outlineElifs elifs) = some parts ∧
      parts.mapM Part.elif? = some (detachedElifs elifs)
  | [] => ⟨[], rfl, rfl⟩
  | (c, b) :: elifs => by
    obtain ⟨condition, hc, hc'⟩ := c.part?_outline
    have hb := b.part?_outline
    obtain ⟨parts, helifs, helifs'⟩ := elementParts?_outlineElifs elifs
    refine ⟨.elif c.detached b.detached :: parts, ?_, by simp [detachedElifs, helifs']⟩
    simp [outlineElifs, Parts.part?, List.lookup_cons, hc, hb, helifs, hc']

/-- The outline of a last block, or of none, is decoded to it. -/
theorem part?_outlineAlternative : (alternative : Option Block) →
    ∃ part, (outlineAlternative alternative).part? = some part ∧
      part.alternative? = some (detachedAlternative alternative)
  | none => ⟨_, rfl, rfl⟩
  | some b => ⟨_, b.part?_outline, rfl⟩

/-- The outline of a statement is read back as the statement without its source. -/
theorem Stmt.part?_outline : (s : Stmt) → s.outline.part? = some (.stmt s.detached)
  | .binding _ name value => by
    obtain ⟨v, hv, hv'⟩ := value.part?_outline
    exact part?_binding name hv hv'
  | .returned _ value => by
    obtain ⟨v, hv, hv'⟩ := value.part?_outline
    refine Outline.part?_record .returned (by simp [hv]; rfl) rfl ?_
    simp [Parts.assemble?, Stmt.detached, hv']
  | .broken _ => Outline.part?_record .broken rfl rfl rfl
  | .expression first value => by
    obtain ⟨v, hv, hv'⟩ := value.part?_outline
    refine Outline.part?_record .expression (by simp [hv]; rfl) rfl ?_
    simp [Parts.assemble?, List.lookup_cons, Stmt.detached, Token.detached, hv']

/-- The outlines of statements in a row are decoded to the statements. -/
theorem elementParts?_outlineStatements : (ss : List Stmt) →
    ∃ parts, elementParts? (outlineStatements ss) = some parts ∧
      parts.mapM Part.stmt? = some (detachedStatements ss)
  | [] => ⟨[], rfl, rfl⟩
  | s :: ss => by
    have hs := s.part?_outline
    obtain ⟨parts, hss, hss'⟩ := elementParts?_outlineStatements ss
    exact ⟨.stmt s.detached :: parts, by simp [outlineStatements, hs, hss],
      by simp [detachedStatements, hss']⟩

/-- The outline of a block is read back as the block without its source. -/
theorem Block.part?_outline : (b : Block) → b.outline.part? = some (.block b.detached)
  | .mk _ statements => by
    obtain ⟨parts, hss, hss'⟩ := elementParts?_outlineStatements statements
    refine Outline.part?_record .block (by simp [hss]; rfl) rfl ?_
    simp [Parts.assemble?, Block.detached, hss']

end

/-- The outline of a program is read back as the program without its source. -/
theorem Program.ofOutline?_outline (p : Program) :
    Program.ofOutline? p.outline = some p.detached := by
  obtain ⟨parts, hss, hss'⟩ := elementParts?_outlineStatements p.statements
  have hpart : p.outline.part? = some (.program p.detached) := by
    refine Outline.part?_record .program (by simp [hss]; rfl) rfl ?_
    simp [Parts.assemble?, Program.detached, hss']
  rw [Program.ofOutline?, hpart]
  rfl

/-! ## Outlines without a source -/

@[simp]
theorem Outline.ofName_detached (name : Name) : ofName name.detached = ofName name := rfl

mutual

/-- The outline of an expression does not show offsets. -/
@[simp]
theorem Expr.outline_detached : (e : Expr) → e.detached.outline = e.outline
  | .missing | .ident _ | .integer .. | .float .. | .double .. | .boolean .. | .string .. => rfl
  | .array _ elements => by simp only [Expr.detached, Expr.outline, outlineAll_detachedAll elements]
  | .hash _ pairs => by simp only [Expr.detached, Expr.outline, outlinePairs_detachedPairs pairs]
  | .prefixed _ _ operand => by simp only [Expr.detached, Expr.outline, operand.outline_detached]
  | .infixed _ _ left right => by
    simp only [Expr.detached, Expr.outline, left.outline_detached, right.outline_detached]
  | .index _ collection key => by
    simp only [Expr.detached, Expr.outline, collection.outline_detached, key.outline_detached]
  | .call _ callee arguments => by
    simp only [Expr.detached, Expr.outline, callee.outline_detached,
      outlineAll_detachedAll arguments]
  | .function _ parameters body => by
    simp only [Expr.detached, Expr.outline, body.outline_detached, List.map_map, Function.comp_def,
      Outline.ofName_detached]
  | .conditional _ condition consequence elifs alternative => by
    simp only [Expr.detached, Expr.outline, condition.outline_detached,
      consequence.outline_detached,
      outlineElifs_detachedElifs elifs, outlineAlternative_detachedAlternative alternative]
  | .loop _ _ _ start condition step body => by
    simp only [Expr.detached, Expr.outline, Outline.ofName_detached, start.outline_detached,
      condition.outline_detached, step.outline_detached, body.outline_detached]

/-- The outlines of expressions in a row do not show offsets. -/
theorem outlineAll_detachedAll : (es : List Expr) → outlineAll (detachedAll es) = outlineAll es
  | [] => rfl
  | e :: es => by simp only [detachedAll, outlineAll, e.outline_detached, outlineAll_detachedAll es]

/-- The outlines of the pairs of a hash do not show offsets. -/
theorem outlinePairs_detachedPairs : (pairs : List (Expr × Expr)) →
    outlinePairs (detachedPairs pairs) = outlinePairs pairs
  | [] => rfl
  | (k, v) :: pairs => by
    simp only [detachedPairs, outlinePairs, k.outline_detached, v.outline_detached,
      outlinePairs_detachedPairs pairs]

/-- The outlines of further conditions do not show offsets. -/
theorem outlineElifs_detachedElifs : (elifs : List (Expr × Block)) →
    outlineElifs (detachedElifs elifs) = outlineElifs elifs
  | [] => rfl
  | (c, b) :: elifs => by
    simp only [detachedElifs, outlineElifs, c.outline_detached, b.outline_detached,
      outlineElifs_detachedElifs elifs]

/-- The outline of a last block does not show offsets. -/
theorem outlineAlternative_detachedAlternative : (alternative : Option Block) →
    outlineAlternative (detachedAlternative alternative) = outlineAlternative alternative
  | none => rfl
  | some b => by simp only [detachedAlternative, outlineAlternative, b.outline_detached]

/-- The outline of a statement does not show offsets. -/
@[simp]
theorem Stmt.outline_detached : (s : Stmt) → s.detached.outline = s.outline
  | .binding _ _ value => by
    simp only [Stmt.detached, Stmt.outline, Outline.ofName_detached, value.outline_detached]
  | .returned _ value => by simp only [Stmt.detached, Stmt.outline, value.outline_detached]
  | .broken _ => rfl
  | .expression _ value => by
    simp only [Stmt.detached, Stmt.outline, Token.detached, value.outline_detached]

/-- The outlines of statements in a row do not show offsets. -/
theorem outlineStatements_detachedStatements : (ss : List Stmt) →
    outlineStatements (detachedStatements ss) = outlineStatements ss
  | [] => rfl
  | s :: ss => by
    simp only [detachedStatements, outlineStatements, s.outline_detached,
      outlineStatements_detachedStatements ss]

/-- The outline of a block does not show offsets. -/
@[simp]
theorem Block.outline_detached : (b : Block) → b.detached.outline = b.outline
  | .mk _ statements => by
    simp only [Block.detached, Block.outline, outlineStatements_detachedStatements statements]

end

/-- The outline of a program does not show offsets. -/
@[simp]
theorem Program.outline_detached (p : Program) : p.detached.outline = p.outline := by
  rw [Program.outline, Program.outline, Program.detached, outlineStatements_detachedStatements]

/-- An outline says of a tree exactly what is left of it without its source. -/
theorem Program.outline_eq_iff (p q : Program) :
    p.outline = q.outline ↔ p.detached = q.detached := by
  refine ⟨fun h => ?_, fun h => ?_⟩
  · have hread := p.ofOutline?_outline
    rw [h, q.ofOutline?_outline] at hread
    exact (Option.some.inj hread).symm
  · rw [← p.outline_detached, h, q.outline_detached]

/-- A program has its offsets removed once and for all, as it is decoded from its outline. -/
@[simp]
theorem Program.detached_detached (p : Program) : p.detached.detached = p.detached :=
  (Program.outline_eq_iff _ _).mp p.outline_detached

-- The reader of outlines gives one tree for one outline, so detaching a tree twice is detaching it
-- once.
/-- An expression has its offsets removed once and for all. -/
@[simp]
theorem Expr.detached_detached (e : Expr) : e.detached.detached = e.detached := by
  obtain ⟨part, hpart, he⟩ := e.part?_outline
  obtain ⟨part', hpart', he'⟩ := e.detached.part?_outline
  rw [e.outline_detached, hpart] at hpart'
  cases hpart'
  exact Option.some.inj (he'.symm.trans he)

/-- A statement has its offsets removed once and for all. -/
@[simp]
theorem Stmt.detached_detached (s : Stmt) : s.detached.detached = s.detached := by
  have hs := s.detached.part?_outline
  rw [s.outline_detached, s.part?_outline] at hs
  exact (Part.stmt.inj (Option.some.inj hs)).symm

/-- A block has its offsets removed once and for all. -/
@[simp]
theorem Block.detached_detached (b : Block) : b.detached.detached = b.detached := by
  have hb := b.detached.part?_outline
  rw [b.outline_detached, b.part?_outline] at hb
  exact (Part.block.inj (Option.some.inj hb)).symm

end Rill
