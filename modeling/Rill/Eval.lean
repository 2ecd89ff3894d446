import Rill.Arithmetic
import Rill.Builtin.Core
import Rill.Builtin.Math
import Rill.Builtin.Sql
import Rill.Import

/-!
# Evaluation

`Interpreter.eval` evaluates a tree in a scope. The evaluation of a node is given in terms of the
evaluation of its parts: `evalNode` takes the latter as an argument, and `eval` ties the knot, with
a bound on how deep evaluations nest. The same bound limits how often a loop goes around.

The end of a function, the end of a loop and a runtime error travel as values of kinds of their own.
-/

namespace Rill

/-- Something that can be evaluated. -/
inductive Node where
  /-- A program. -/
  | program (program : Program)
  /-- A block. -/
  | block (block : Block)
  /-- A statement. -/
  | stmt (stmt : Stmt)
  /-- An expression. -/
  | expr (expr : Expr)
  deriving Inhabited

/-- The name of a node in the log. -/
def Node.label : Node → Bytes
  | program _ => text "*ast.Program"
  | block _ => text "*ast.BlockStatement"
  | stmt (.binding ..) => text "*ast.LetStatement"
  | stmt (.returned ..) => text "*ast.ReturnStatement"
  | stmt (.broken _) => text "*ast.BreakStatement"
  | stmt (.expression ..) => text "*ast.ExpressionStatement"
  | expr .missing => text "<nil>"
  | expr (.ident _) => text "*ast.Identifier"
  | expr (.integer ..) => text "*ast.IntegerLiteral"
  | expr (.float ..) => text "*ast.FloatLiteral"
  | expr (.double ..) => text "*ast.DoubleLiteral"
  | expr (.boolean ..) => text "*ast.Boolean"
  | expr (.string ..) => text "*ast.StringLiteral"
  | expr (.array ..) => text "*ast.ArrayLiteral"
  | expr (.hash ..) => text "*ast.HashLiteral"
  | expr (.prefixed ..) => text "*ast.PrefixExpression"
  | expr (.infixed ..) => text "*ast.InfixExpression"
  | expr (.index ..) => text "*ast.IndexExpression"
  | expr (.call ..) => text "*ast.CallExpression"
  | expr (.function ..) => text "*ast.FunctionLiteral"
  | expr (.conditional ..) => text "*ast.IfExpression"
  | expr (.loop ..) => text "*ast.ForExpression"

/-- Evaluates nodes in scopes. -/
abbrev Evaluator := Node → ScopeId → Run Value

/-- What stays the same during a run. -/
structure Interpreter where
  /-- The builtins. -/
  registry : Registry
  /-- The directory in which imports of the main program start. -/
  root : Bytes := text "."
  /-- The directory of the library; empty if there is none. -/
  home : Bytes := []
  /-- The format of dump files; empty if none are written. -/
  dump : Bytes := []
  /-- Writes an outline as YAML. -/
  toYaml : Outline → Bytes

namespace Interpreter

/-- What builtins see of an interpreter. -/
def host (it : Interpreter) (self : Evaluator) : Host where
  root := it.root
  home := it.home
  dump := it.dump
  toYaml := it.toYaml
  evaluate p scope := self (.program p) scope

/-- The statements of a program. A function that ends outside of a function ends the program with
its value, and a loop that ends outside of a loop is null. -/
def evalProgram (self : Evaluator) (scope : ScopeId) (result : Value) : List Stmt → Run Value
  | [] => return result
  | s :: ss => do
    match ← self (.stmt s) scope with
    | .returned _ v => return v
    | .error fault => return .error fault
    | .broken => evalProgram self scope .null ss
    | v => evalProgram self scope v ss

/-- The statements of a block, up to the first one that ends it. -/
def evalBlock (self : Evaluator) (scope : ScopeId) (result : Value) : List Stmt → Run Value
  | [] => return result
  | s :: ss => do
    match ← self (.stmt s) scope with
    | .returned stamp v => return .returned stamp v
    | .error fault => return .error fault
    | .broken => return .broken
    | v => evalBlock self scope v ss

/-- Expressions from left to right, up to the first one that fails. -/
def evalAll (self : Evaluator) (scope : ScopeId) : List Expr → Run (Except Fault (List Value))
  | [] => return .ok []
  | e :: es => do
    match ← self (.expr e) scope with
    | .error fault => return .error fault
    | v =>
      match ← evalAll self scope es with
      | .error fault => return .error fault
      | .ok vs => return .ok (v :: vs)

/-- The pairs of a hash from left to right, each key before its value. -/
def evalPairs (self : Evaluator) (scope : ScopeId) (entries : Entries) :
    List (Expr × Expr) → Run Value
  | [] => Run.hash entries
  | (k, v) :: pairs => do
    match ← self (.expr k) scope with
    | .error fault => return .error fault
    | key =>
      match key.key? with
      | none => return .error (.unusableKey key.kind)
      | some filed =>
        match ← self (.expr v) scope with
        | .error fault => return .error fault
        | value => evalPairs self scope (Entries.insert filed key value entries) pairs

/-- Binds parameters to arguments. -/
def bindAll (scope : ScopeId) : List Name → List Value → Run (Except Fault Unit)
  | [], _ => return .ok ()
  | p :: _, [] => return .error (.breach (.argument p.text))
  | p :: ps, v :: vs => do
    Run.create scope p.text v
    bindAll scope ps vs

/-- The result of a call: the value with which the function ended, and null where a loop ended. -/
def callResult : Value → Value
  | .returned _ v => v
  | .broken => .null
  | v => v

/-- Applies a function to arguments. -/
def apply (it : Interpreter) (self : Evaluator) (function : Value) (args : List Value) :
    Run Value := do
  match function with
  | .function _ parameters body outer =>
    if args.length ≠ parameters.length then
      return .error (.parameterCount parameters.length args.length)
    let scope ← Run.scope (some outer)
    match ← bindAll scope parameters args with
    | .error fault => return .error fault
    | .ok _ => return callResult (← self (.block body) scope)
  | .builtin name =>
    Run.log .debug "calling builtin" [("name", .word name), ("args", .count args.length)]
    match it.registry.lookup name with
    | some b => return (← b.run (it.host self) args).getD .null
    | none => return .error (.notFunction .builtin)
  | v => return .error (.notFunction v.kind)

/-- The value of a name: builtins come before the names of the program. -/
def evalName (it : Interpreter) (scope : ScopeId) (name : Bytes) : Run Value := do
  match it.registry.lookup name with
  | some b => return .builtin b.name
  | none =>
    match ← Run.get? scope name with
    | some v => return v
    | none => return .error (.unbound name)

/-- Further conditions, and what holds otherwise. -/
def evalElifs (self : Evaluator) (scope : ScopeId) (alternative : Option Block) :
    List (Expr × Block) → Run Value
  | [] =>
    match alternative with
    | some b => self (.block b) scope
    | none => return .null
  | (c, b) :: elifs => do
    match ← self (.expr c) scope with
    | .error fault => return .error fault
    | v => if v.isTruthy then self (.block b) scope else evalElifs self scope alternative elifs

/-- Goes on with the next round of a loop, in a scope of its own, in which the variable starts with
the value that it has now. -/
def nextRound (outer : ScopeId) (counter : Bytes) (scope : ScopeId) (round : ScopeId → Run Value) :
    Run Value := do
  match ← Run.get? scope counter with
  | none => return .error (.breach (.counter counter))
  | some value =>
    let next ← Run.scope (some outer)
    Run.create next counter value
    round next

/-- Goes around a loop at most so many times. -/
def evalRounds (self : Evaluator) (outer : ScopeId) (counter : Bytes)
    (condition : Expr) (step : Stmt) (body : Block) : Nat → ScopeId → Run Value
  | 0, _ => fun _ => none
  | rounds + 1, scope => do
    match ← self (.expr condition) scope with
    | .error fault => return .error fault
    | .boolean false => return .null
    | .boolean true =>
      match ← self (.block body) scope with
      | .error fault => return .error fault
      | .returned stamp v => return .returned stamp v
      | .broken => return .null
      | _ =>
        -- The step is made in the scope of this round, so that functions of the round see it.
        match ← self (.stmt step) scope with
        | .error fault => return .error fault
        | _ =>
          nextRound outer counter scope (evalRounds self outer counter condition step body rounds)
    | v => return .error (.loopCondition v.kind)

/-- An assignment to a name. The right side is evaluated first, and the value that a compound
assignment starts from is read after that. -/
def evalAssignment (self : Evaluator) (scope : ScopeId) (op : InfixOp) (left right : Expr) :
    Run Value := do
  match left with
  | .ident name =>
    match ← self (.expr right) scope with
    | .error fault => return .error fault
    | v =>
      if op = .assign then
        Run.assign scope name.text v
        return v
      match ← Run.get? scope name.text with
      | none => return .error (.unbound name.text)
      | some current =>
        match Value.compound op current v with
        | .error fault => return .error fault
        | result =>
          Run.assign scope name.text result
          return result
  | _ => return .error (.notAssignable left.render)

/-- A member of a module: a name, or the call of one with arguments from the scope of the caller. -/
def evalMember (it : Interpreter) (self : Evaluator) (scope : ScopeId) (left right : Expr) :
    Run Value := do
  match ← self (.expr left) scope with
  | .error fault => return .error fault
  | .module _ _ inner =>
    match right with
    | .ident name => return (← Run.get? inner name.text).getD (.error (.unbound name.text))
    | .call _ (.ident name) arguments =>
      -- A member is looked for in the scope of its module and not among the builtins.
      match ← Run.get? inner name.text with
      | none => return .error (.unbound name.text)
      | some function =>
        match ← evalAll self scope arguments with
        | .error fault => return .error fault
        | .ok args => it.apply self function args
    | _ => return .error (.memberForm right.render)
  | v => return .error (.notModule v.kind)

/-- An expression; `rounds` limits how often a loop goes around. -/
def evalExpr (it : Interpreter) (rounds : Nat) (self : Evaluator) (scope : ScopeId) :
    Expr → Run Value
  | .missing => return .error .gap
  | .ident name => it.evalName scope name.text
  | .integer _ _ n => return .integer n
  | .float _ _ x => return .float x
  | .double _ _ x => return .double x
  | .boolean _ b => return .boolean b
  | .string _ s => return .string s
  | .array _ elements => do
    match ← evalAll self scope elements with
    | .error fault => return .error fault
    | .ok vs => Run.array vs
  | .hash _ pairs => evalPairs self scope .empty pairs
  | .prefixed _ op operand => do
    match ← self (.expr operand) scope with
    | .error fault => return .error fault
    | v => return Value.prefixed op v
  | .infixed _ op left right =>
    match op with
    | .assign | .addAssign | .subAssign | .mulAssign | .divAssign =>
      evalAssignment self scope op left right
    | .member => it.evalMember self scope left right
    -- Both operands are evaluated, also those of `&&` and `||`.
    | op => do
      match ← self (.expr left) scope with
      | .error fault => return .error fault
      | a =>
        match ← self (.expr right) scope with
        | .error fault => return .error fault
        | b => return Value.infixed op a b
  | .index _ collection key => do
    match ← self (.expr collection) scope with
    | .error fault => return .error fault
    | c =>
      match ← self (.expr key) scope with
      | .error fault => return .error fault
      | k => return Value.index c k
  | .call _ callee arguments => do
    match ← self (.expr callee) scope with
    | .error fault => return .error fault
    | f =>
      match ← evalAll self scope arguments with
      | .error fault => return .error fault
      | .ok args => it.apply self f args
  | .function _ parameters body => return .function (← Run.stamp) parameters body scope
  | .conditional _ condition consequence elifs alternative =>
    evalElifs self scope alternative ((condition, consequence) :: elifs)
  | .loop _ letPos counter start condition step body => do
    -- The start is evaluated inside the scope of the loop, as the value of a binding there.
    let inner ← Run.scope (some scope)
    match ← self (.stmt (.binding letPos counter start)) inner with
    | .error fault => return .error fault
    | _ => evalRounds self scope counter.text condition step body rounds inner

/-- A statement. -/
def evalStmt (self : Evaluator) (scope : ScopeId) : Stmt → Run Value
  | .binding _ name value => do
    match ← self (.expr value) scope with
    | .error fault => return .error fault
    | v =>
      Run.create scope name.text v
      return .null
  | .returned _ value => do
    match ← self (.expr value) scope with
    | .error fault => return .error fault
    | v => return .returned (← Run.stamp) v
  | .broken _ => return .broken
  | .expression _ value => self (.expr value) scope

/-- A node in terms of its parts. -/
def evalNode (it : Interpreter) (rounds : Nat) (self : Evaluator) : Evaluator :=
  fun node scope => do
  Run.log .trace "eval" [("node", .word node.label)]
  match node with
  | .program p => evalProgram self scope .null p.statements
  | .block b => evalBlock self scope .null b.statements
  | .stmt s => evalStmt self scope s
  | .expr e => it.evalExpr rounds self scope e

/-- Evaluates a node; evaluations nest less than `bound` deep, and loops go around at most so
often. -/
def eval (it : Interpreter) : Nat → Evaluator
  | 0, _, _ => fun _ => none
  | bound + 1, node, scope => it.evalNode bound (it.eval bound) node scope

/-- The builtins of the language. -/
def standard : Registry :=
  (((Registry.ofList Builtin.core).merge (Registry.ofList [Import.builtin])).merge
    (Registry.ofList Builtin.math)).merge (Registry.ofList Builtin.sql)

end Interpreter

end Rill
