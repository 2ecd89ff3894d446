import Rill.Decimal.Reader
import Rill.Diagnostic
import Rill.Token.Scanner
import Rill.Tree

/-!
# Trees from source

`parse` reads a source into a tree and a list of diagnostics. Reading goes on after a fault, so that
the tree of a malformed source has gaps and one source can have many diagnostics.

Expressions are read by binding strength: an operand, then as many operators as bind more tightly
than the surrounding one. Everything that refers back to expressions and statements gets the readers
for them as a `Grammar`; `grammar n` is the one whose nesting is bounded by `n`, and `parse` chooses
a bound that the number of tokens never reaches.

The readers are written for every monad that has the steps of `Parse` and keeps an `Account` of the
readers that are called and of the rounds of their loops. `Parse` itself keeps none.
-/

namespace Rill

/-- Where reading stands. -/
structure ParserState where
  /-- The token being looked at. -/
  current : Token
  /-- The tokens behind it. The last token is the end of the source, which repeats forever. -/
  ahead : List Token
  /-- The faults found so far, the latest first. -/
  found : List Diagnostic

/-- The token after the current one. -/
def ParserState.next (s : ParserState) : Token :=
  s.ahead.headD s.current

/-- The state with the next token as the current one. -/
def ParserState.advance (s : ParserState) : ParserState :=
  match s.ahead with
  | [] => s
  | t :: ts => { s with current := t, ahead := ts }

/-- A step of reading; it has no result when the bound on nesting is reached. -/
abbrev Parse := StateT ParserState Option

namespace Parse

/-- The token being looked at. -/
def current : Parse Token := do return (← get).current

/-- The token after it. -/
def next : Parse Token := do return (← get).next

/-- Moves to the next token. -/
def advance : Parse Unit := modify ParserState.advance

/-- Reports a fault at an offset. -/
def report (offset : Nat) (fault : SyntaxFault) : Parse Unit :=
  modify fun s => { s with found := ⟨offset, fault⟩ :: s.found }

/-- Moves to the next token if it is of the wanted kind, and reports a fault otherwise. -/
def expect (wanted : TokenKind) : Parse Bool := do
  let t ← next
  if t.kind = wanted then
    advance
    return true
  else
    report t.pos (.expected wanted t.kind)
    return false

/-- Moves over one semicolon, if it comes next. -/
def skipSemicolon : Parse Unit := do
  if (← next).kind = .semicolon then advance

/-- The bound on nesting is reached. -/
def exhausted {α : Type} : Parse α := fun _ => none

end Parse

/-- What readers say of their work while they read: that a reader is called, and that a loop goes on
to its next round. -/
class Account (m : Type → Type) where
  /-- A reader is called. -/
  call : m Unit
  /-- How many tokens are ahead at the beginning of a round. -/
  tokensAhead : m Nat
  /-- A round that began with so many tokens ahead is over, and the loop goes on. -/
  goOn (before : Nat) : m Unit

/-- Reading alone keeps no account. -/
instance : Account Parse := ⟨pure (), pure 0, fun _ => pure ()⟩

/-- The readers for what can be nested. -/
structure Grammar (m : Type → Type) where
  /-- Reads an expression whose operators bind more tightly than a strength. -/
  expression : Strength → m Expr
  /-- Reads a statement; a binding without a name or `=` is none. -/
  statement : m (Option Stmt)

namespace Grammar

open Parse Account

variable {m : Type → Type} [Monad m] [MonadLiftT Parse m] [Account m]

/-- A binding behind its `let`: the name and the value. -/
def binding (g : Grammar m) : m (Option (Name × Expr)) := do
  call
  if !(← expect .ident) then return none
  let t ← current
  if !(← expect .assign) then return none
  advance
  let value ← g.expression .lowest
  skipSemicolon
  return some (⟨t.pos, t.literal⟩, value)

/-- Statements up to a token at which `stop` holds. -/
def statements (g : Grammar m) (stop : TokenKind → Bool) : (bound : Nat) → m (List Stmt)
  | 0 => exhausted
  | n + 1 => do
    if stop (← current).kind then return []
    let before ← tokensAhead
    let s ← g.statement
    -- A reader stops at the last token of what it reads.
    advance
    goOn before
    let ss ← g.statements stop n
    return s.toList ++ ss

/-- A block, from its opening brace on. -/
def block (g : Grammar m) (n : Nat) : m Block := do
  call
  let start ← current
  advance
  let body ← g.statements (fun k => k == .rbrace || k == .eof) n
  let t ← current
  if t.kind = .eof then report t.pos .openBlock
  return .mk start.pos body

/-- A condition in parentheses, up to the opening brace of its block. -/
def condition (g : Grammar m) : m Expr := do
  call
  if !(← expect .lparen) then return .missing
  advance
  let c ← g.expression .lowest
  if !(← expect .rparen) then return .missing
  if !(← expect .lbrace) then return .missing
  return c

/-- Further conditions with their blocks. -/
def elifs (g : Grammar m) (depth : Nat) : (bound : Nat) → m (Option (List (Expr × Block)))
  | 0 => exhausted
  | n + 1 => do
    if (← next).kind = .elif then
      let before ← tokensAhead
      advance
      let c ← g.condition
      if c.isMissing then return none
      let b ← g.block depth
      goOn before
      return (← g.elifs depth n).map ((c, b) :: ·)
    else return some []

/-- A conditional behind its `if`. -/
def conditional (g : Grammar m) (n : Nat) (pos : Nat) : m Expr := do
  call
  let c ← g.condition
  if c.isMissing then return .missing
  let consequence ← g.block n
  let some others ← g.elifs n n | return .missing
  if (← next).kind = .else_ then
    advance
    if !(← expect .lbrace) then return .missing
    let alternative ← g.block n
    return .conditional pos c consequence others (some alternative)
  else return .conditional pos c consequence others none

/-- A loop behind its `for`. -/
def loop (g : Grammar m) (n : Nat) (pos : Nat) : m Expr := do
  call
  if !(← expect .lparen) then return .missing
  advance
  let start ← current
  if start.kind != .let_ then
    report start.pos (.noCounter start.kind)
    return .missing
  let some (counter, first) ← g.binding | return .missing
  -- The binding has moved over its semicolon, if it has one.
  if (← current).kind != .semicolon then
    if !(← expect .semicolon) then return .missing
  advance
  let c ← g.expression .lowest
  if !(← expect .semicolon) then return .missing
  advance
  let some step ← g.statement | return .missing
  if !(← expect .rparen) then return .missing
  if !(← expect .lbrace) then return .missing
  let body ← g.block n
  return .loop pos start.pos counter first c step body

/-- Further parameters, each behind a comma. -/
def moreParameters : (bound : Nat) → m (Option (List Name))
  | 0 => exhausted
  | n + 1 => do
    if (← next).kind = .comma then
      let before ← tokensAhead
      advance
      if !(← expect .ident) then return none
      let t ← current
      goOn before
      return (← moreParameters n).map (⟨t.pos, t.literal⟩ :: ·)
    else if ← expect .rparen then return some []
    else return none

/-- The parameters of a function, behind the opening parenthesis. -/
def parameters (n : Nat) : m (Option (List Name)) := do
  call
  if (← next).kind = .rparen then
    advance
    return some []
  if !(← expect .ident) then return none
  let t ← current
  return (← moreParameters n).map (⟨t.pos, t.literal⟩ :: ·)

/-- A function behind its `fn`. -/
def function (g : Grammar m) (n : Nat) (pos : Nat) : m Expr := do
  call
  if !(← expect .lparen) then return .missing
  let some names ← parameters n | return .missing
  if !(← expect .lbrace) then return .missing
  return .function pos names (← g.block n)

/-- Further expressions, each behind a comma. -/
def moreExpressions (g : Grammar m) : (bound : Nat) → m (List Expr)
  | 0 => exhausted
  | n + 1 => do
    if (← next).kind = .comma then
      let before ← tokensAhead
      advance
      advance
      let e ← g.expression .lowest
      goOn before
      return e :: (← g.moreExpressions n)
    else return []

/-- Expressions between commas up to a closing token. Without that token there are none. -/
def expressions (g : Grammar m) (n : Nat) (close : TokenKind) : m (List Expr) := do
  call
  if (← next).kind = close then
    advance
    return []
  advance
  let e ← g.expression .lowest
  let es ← g.moreExpressions n
  if ← expect close then return e :: es else return []

/-- The pairs of a hash, each with a comma behind it unless the closing brace comes next. -/
def pairs (g : Grammar m) : (bound : Nat) → m (Option (List (Expr × Expr)))
  | 0 => exhausted
  | n + 1 => do
    if (← next).kind = .rbrace then
      advance
      return some []
    let before ← tokensAhead
    advance
    let key ← g.expression .lowest
    if !(← expect .colon) then return none
    advance
    let value ← g.expression .lowest
    -- A comma behind the last pair does no harm.
    if (← next).kind != .rbrace then
      if !(← expect .comma) then return none
    goOn before
    return (← g.pairs n).map ((key, value) :: ·)

/-- A whole number, unless it does not fit in 64 bits. -/
def integer (t : Token) : Parse Expr := do
  let value := Bytes.toNat t.literal
  if value < 0x8000000000000000 then return .integer t.pos t.literal (Int64.ofNat value)
  else
    report t.pos (.badInteger t.literal)
    return .missing

/-- The part of a number's spelling that is its value. -/
def numberBody (literal : Bytes) : Bytes :=
  literal.takeWhile fun b => Bytes.isDigit b || b == 0x2E

/-- A number of 32 bits, unless it is too large. -/
def float (t : Token) : Parse Expr := do
  match (Numeral.read? (numberBody t.literal)).map Numeral.toFloat32 with
  | some value =>
    if value.isFinite then return .float t.pos t.literal value
    else
      report t.pos (.badFloat t.literal)
      return .missing
  | none =>
    report t.pos (.badFloat t.literal)
    return .missing

/-- A number of 64 bits, unless it is too large. -/
def double (t : Token) : Parse Expr := do
  match (Numeral.read? (numberBody t.literal)).map Numeral.toFloat with
  | some value =>
    if value.isFinite then return .double t.pos t.literal value
    else
      report t.pos (.badDouble t.literal)
      return .missing
  | none =>
    report t.pos (.badDouble t.literal)
    return .missing

/-- The operand that starts with the current token `t`; none if no operand starts with it. -/
def operand (g : Grammar m) (n : Nat) (t : Token) : m (Option Expr) := do
  call
  match t.kind with
  | .ident => return some (.ident ⟨t.pos, t.literal⟩)
  | .int => some <$> integer t
  | .float => some <$> float t
  | .double => some <$> double t
  | .string => return some (.string t.pos t.literal)
  | .true_ => return some (.boolean t.pos true)
  | .false_ => return some (.boolean t.pos false)
  | .bang =>
    advance
    return some (.prefixed t.pos .not (← g.expression .prefixed))
  | .minus =>
    advance
    return some (.prefixed t.pos .negate (← g.expression .prefixed))
  | .lparen =>
    advance
    let e ← g.expression .lowest
    if ← expect .rparen then return some e else return some .missing
  | .if_ => some <$> g.conditional n t.pos
  | .for_ => some <$> g.loop n t.pos
  | .function => some <$> g.function n t.pos
  | .lbracket => return some (.array t.pos (← g.expressions n .rbracket))
  | .lbrace =>
    match ← g.pairs n with
    | some ps => return some (.hash t.pos ps)
    | none => return some .missing
  | _ => return none

/-- The expression that the current token `t` makes with what stands left of it. -/
def extend (g : Grammar m) (n : Nat) (t : Token) (left : Expr) : m Expr := do
  call
  match InfixOp.ofKind? t.kind with
  | some op =>
    advance
    return .infixed t.pos op left (← g.expression op.strength)
  | none =>
    if t.kind = .lparen then return .call t.pos left (← g.expressions n .rparen)
    -- Of the tokens that bind at all, only the bracket of an index is left.
    else
      advance
      let key ← g.expression .lowest
      if ← expect .rbracket then return .index t.pos left key else return .missing

/-- `left` together with all the operators behind it that bind more tightly than `strength`. -/
def operators (g : Grammar m) (depth : Nat) (strength : Strength) : (bound : Nat) → Expr → m Expr
  | 0, _ => exhausted
  | n + 1, left => do
    let t ← next
    if strength.rank < t.kind.strength.rank then
      let before ← tokensAhead
      advance
      let longer ← g.extend depth t left
      goOn before
      g.operators depth strength n longer
    else return left

/-- An expression: an operand and the operators behind it. -/
def expressionStep (g : Grammar m) (n : Nat) (strength : Strength) : m Expr := do
  call
  let t ← current
  match ← g.operand n t with
  | some left => g.operators n strength n left
  | none =>
    report t.pos (.noOperand t.kind t.literal)
    return .missing

/-- A statement. Each kind of statement has a reader of its own. -/
def statementStep (g : Grammar m) : m (Option Stmt) := do
  call
  let t ← current
  match t.kind with
  | .let_ => return (← g.binding).map fun (name, value) => .binding t.pos name value
  | .return_ =>
    call
    advance
    let value ← g.expression .lowest
    skipSemicolon
    return some (.returned t.pos value)
  | .break_ =>
    call
    skipSemicolon
    return some (.broken t.pos)
  | _ =>
    call
    let value ← g.expression .lowest
    skipSemicolon
    return some (.expression t value)

/-- The statements up to the end of a source. -/
def program (g : Grammar m) (n : Nat) : m (List Stmt) := do
  call
  g.statements (· == .eof) n

end Grammar

/-- The readers for expressions and statements that nest at most `n` deep. -/
def Grammar.nested (m : Type → Type) [Monad m] [MonadLiftT Parse m] [Account m] :
    (n : Nat) → Grammar m
  | 0 => ⟨fun _ => Parse.exhausted, Parse.exhausted⟩
  | n + 1 => ⟨(nested m n).expressionStep n, (nested m n).statementStep⟩

@[inherit_doc Grammar.nested]
def grammar : (n : Nat) → Grammar Parse := Grammar.nested Parse

/-- What a source was read as. -/
structure Parsed where
  /-- The tree, which has gaps if there are diagnostics. -/
  program : Program
  /-- The faults in the order in which they were found. -/
  diagnostics : List Diagnostic
  deriving Inhabited

/-- The bound on nesting for a number of tokens. -/
def nestingBound (count : Nat) : Nat := 2 * count + 4

/-- Reads tokens, the last of which is the end of the source; none if the bound on nesting is
reached. -/
def parseTokens? (ts : List Token) : Option Parsed :=
  match ts with
  | [] => some ⟨⟨[]⟩, []⟩
  | t :: rest =>
    let n := nestingBound ts.length
    match (grammar n).program n ⟨t, rest, []⟩ with
    | some (statements, s) => some ⟨⟨statements⟩, s.found.reverse⟩
    | none => none

/-- Reads a source. -/
def parse (src : Bytes) : Parsed :=
  (parseTokens? (tokens src)).getD ⟨⟨[]⟩, []⟩

end Rill
