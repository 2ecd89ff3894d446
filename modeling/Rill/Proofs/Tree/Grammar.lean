import Rill.Tree.Parser

/-!
# The grammar of programs

Which token sequences a tree stands for. Every token of the sequence belongs to a node of the tree,
except for parentheses around an expression, one semicolon behind a statement and one comma behind
the last pair of a hash.

* `Expr.Bare e low edge ts`: the tokens `ts` spell the expression `e` without parentheses around it,
  where the operators of `e` that stand outside of all brackets bind more tightly than `low`.
  Nothing that binds more tightly than `edge` can follow, since it would belong to the last operand
  of `ts` instead.
* `Grouped`: the same with any number of parentheses around it.
* `Stmt.Yields`, `Block.Yields`, `Program.Yields`: the sequences of statements, blocks and programs.
-/

namespace Rill

/-- The edge of an expression that ends with a bracket, a name or a literal: everything can
follow. -/
def closedEdge : Nat := 12

/-- An expression with any number of parentheses around it. -/
inductive Grouped (bare : Nat → Nat → List Token → Prop) : Nat → Nat → List Token → Prop
  | bare {low edge : Nat} {ts : List Token} : bare low edge ts → Grouped bare low edge ts
  | group {low edge : Nat} {o c : Token} {ts : List Token} :
      o.kind = .lparen → Grouped bare 0 edge ts → c.kind = .rparen →
        Grouped bare low closedEdge (o :: ts ++ [c])

/-- An expression where any operator may stand. -/
def Whole (bare : Nat → Nat → List Token → Prop) (ts : List Token) : Prop :=
  ∃ edge, Grouped bare 0 edge ts

/-- A token of a kind at an offset. -/
def Token.At (t : Token) (kind : TokenKind) (pos : Nat) : Prop := t.kind = kind ∧ t.pos = pos

/-- The token of a name. -/
def Name.token (name : Name) : Token := ⟨.ident, name.text, name.pos⟩

/-- At most one semicolon. -/
def OptionalSemicolon (ts : List Token) : Prop := ts = [] ∨ ∃ t, ts = [t] ∧ t.kind = .semicolon

/-- The names of parameters, each but the first behind a comma. -/
def parametersYield : List Name → List Token → Prop
  | [], ts => ts = []
  | name :: names, ts => ∃ rest, ts = name.token :: rest ∧ moreParametersYield names rest
where
  /-- Names that each stand behind a comma. -/
  moreParametersYield : List Name → List Token → Prop
    | [], ts => ts = []
    | name :: names, ts =>
      ∃ comma rest, ts = comma :: name.token :: rest ∧ comma.kind = .comma ∧
        moreParametersYield names rest

mutual

/-- The token sequences of an expression without parentheses around it. -/
def Expr.Bare : Expr → (low edge : Nat) → List Token → Prop
  | .missing, _, _, _ => False
  | .ident name, _, edge, ts => edge = closedEdge ∧ ts = [name.token]
  | .integer pos spelling value, _, edge, ts =>
    edge = closedEdge ∧ ts = [⟨.int, spelling, pos⟩] ∧ Bytes.toNat spelling < 0x8000000000000000 ∧
      value = Int64.ofNat (Bytes.toNat spelling)
  | .float pos spelling value, _, edge, ts =>
    edge = closedEdge ∧ ts = [⟨.float, spelling, pos⟩] ∧ value.isFinite ∧
      (Numeral.read? (Grammar.numberBody spelling)).map Numeral.toFloat32 = some value
  | .double pos spelling value, _, edge, ts =>
    edge = closedEdge ∧ ts = [⟨.double, spelling, pos⟩] ∧ value.isFinite ∧
      (Numeral.read? (Grammar.numberBody spelling)).map Numeral.toFloat = some value
  | .boolean pos value, _, edge, ts =>
    edge = closedEdge ∧ ∃ t, ts = [t] ∧ t.At (if value then .true_ else .false_) pos
  | .string pos value, _, edge, ts => edge = closedEdge ∧ ts = [⟨.string, value, pos⟩]
  | .array pos elements, _, edge, ts =>
    edge = closedEdge ∧ ∃ o inner c, ts = o :: inner ++ [c] ∧ o.At .lbracket pos ∧
      c.kind = .rbracket ∧ elementsYield elements inner
  | .hash pos pairs, _, edge, ts =>
    edge = closedEdge ∧ ∃ o inner c, ts = o :: inner ++ [c] ∧ o.At .lbrace pos ∧
      c.kind = .rbrace ∧ pairsYield pairs inner
  | .prefixed pos op operand, _, edge, ts =>
    ∃ t right inner, ts = t :: inner ∧ t.At op.kind pos ∧
      Grouped operand.Bare Strength.prefixed.rank right inner ∧
      edge = min Strength.prefixed.rank right
  -- The left operand ends where the operator can take all of it; the right one has only tighter
  -- operators.
  | .infixed pos op left right, low, edge, ts =>
    ∃ before mid after t tail, ts = before ++ t :: tail ∧ t.At op.kind pos ∧
      low < op.strength.rank ∧ op.strength.rank ≤ mid ∧ Grouped left.Bare low mid before ∧
      Grouped right.Bare op.strength.rank after tail ∧ edge = min op.strength.rank after
  | .index pos collection key, low, edge, ts =>
    edge = closedEdge ∧ ∃ before mid o inner c, ts = before ++ o :: inner ++ [c] ∧
      o.At .lbracket pos ∧ c.kind = .rbracket ∧ low < Strength.index.rank ∧
      Strength.index.rank ≤ mid ∧ Grouped collection.Bare low mid before ∧ Whole key.Bare inner
  | .call pos callee arguments, low, edge, ts =>
    edge = closedEdge ∧ ∃ before mid o inner c, ts = before ++ o :: inner ++ [c] ∧
      o.At .lparen pos ∧ c.kind = .rparen ∧ low < Strength.call.rank ∧ Strength.call.rank ≤ mid ∧
      Grouped callee.Bare low mid before ∧ elementsYield arguments inner
  | .function pos parameters body, _, edge, ts =>
    edge = closedEdge ∧ ∃ fn o names c block, ts = fn :: o :: names ++ c :: block ∧
      fn.At .function pos ∧ o.kind = .lparen ∧ c.kind = .rparen ∧
      parametersYield parameters names ∧ body.Yields block
  | .conditional pos condition consequence elifs alternative, _, edge, ts =>
    edge = closedEdge ∧ ∃ head o inner c block others last,
      ts = head :: o :: inner ++ c :: block ++ others ++ last ∧ head.At .if_ pos ∧
      o.kind = .lparen ∧ c.kind = .rparen ∧ Whole condition.Bare inner ∧
      consequence.Yields block ∧ elifsYield elifs others ∧ alternativeYields alternative last
  | .loop pos letPos counter start condition step body, _, edge, ts =>
    edge = closedEdge ∧ ∃ head o letToken eq first semi test semi' turn c block,
      ts = head :: o :: letToken :: counter.token :: eq :: first ++ semi :: test ++ semi' :: turn ++
        c :: block ∧ head.At .for_ pos ∧ o.kind = .lparen ∧ letToken.At .let_ letPos ∧
      eq.kind = .assign ∧ Whole start.Bare first ∧ semi.kind = .semicolon ∧
      Whole condition.Bare test ∧ semi'.kind = .semicolon ∧ step.Yields turn ∧
      c.kind = .rparen ∧ body.Yields block

/-- Expressions, each but the first behind a comma. -/
def elementsYield : List Expr → List Token → Prop
  | [], ts => ts = []
  | e :: es, ts => ∃ first rest, ts = first ++ rest ∧ Whole e.Bare first ∧ moreElementsYield es rest

/-- Expressions that each stand behind a comma. -/
def moreElementsYield : List Expr → List Token → Prop
  | [], ts => ts = []
  | e :: es, ts => ∃ comma first rest, ts = comma :: first ++ rest ∧ comma.kind = .comma ∧
      Whole e.Bare first ∧ moreElementsYield es rest

/-- Pairs with commas between them; another comma may stand behind the last one. -/
def pairsYield : List (Expr × Expr) → List Token → Prop
  | [], ts => ts = []
  | (k, v) :: pairs, ts => ∃ key colon value rest, ts = key ++ colon :: value ++ rest ∧
      colon.kind = .colon ∧ Whole k.Bare key ∧ Whole v.Bare value ∧
      (rest = [] ∧ pairs = [] ∨
        ∃ comma more, rest = comma :: more ∧ comma.kind = .comma ∧ pairsYield pairs more)

/-- Further conditions with their blocks. -/
def elifsYield : List (Expr × Block) → List Token → Prop
  | [], ts => ts = []
  | (condition, block) :: elifs, ts => ∃ head o inner c body rest,
      ts = head :: o :: inner ++ c :: body ++ rest ∧ head.kind = .elif ∧ o.kind = .lparen ∧
      c.kind = .rparen ∧ Whole condition.Bare inner ∧ block.Yields body ∧ elifsYield elifs rest

/-- The last block of a conditional, if there is one. -/
def alternativeYields : Option Block → List Token → Prop
  | none, ts => ts = []
  | some block, ts => ∃ head body, ts = head :: body ∧ head.kind = .else_ ∧ block.Yields body

/-- The token sequences of a statement. -/
def Stmt.Yields : Stmt → List Token → Prop
  | .binding pos name value, ts =>
    ∃ head eq inner semi, ts = head :: name.token :: eq :: inner ++ semi ∧
      head.At .let_ pos ∧ eq.kind = .assign ∧ Whole value.Bare inner ∧ OptionalSemicolon semi
  | .returned pos value, ts => ∃ head inner semi, ts = head :: inner ++ semi ∧
      head.At .return_ pos ∧ Whole value.Bare inner ∧ OptionalSemicolon semi
  | .broken pos, ts => ∃ head semi, ts = head :: semi ∧ head.At .break_ pos ∧ OptionalSemicolon semi
  | .expression first value, ts => ∃ inner semi, ts = inner ++ semi ∧ inner.head? = some first ∧
      Whole value.Bare inner ∧ OptionalSemicolon semi

/-- The token sequences of statements one after the other. -/
def statementsYield : List Stmt → List Token → Prop
  | [], ts => ts = []
  | s :: ss, ts => ∃ first rest, ts = first ++ rest ∧ s.Yields first ∧ statementsYield ss rest

/-- The token sequences of a block with its braces. -/
def Block.Yields : Block → List Token → Prop
  | .mk pos statements, ts => ∃ o inner c, ts = o :: inner ++ [c] ∧ o.At .lbrace pos ∧
      c.kind = .rbrace ∧ statementsYield statements inner

end

/-- The token sequences of a program. -/
def Program.Yields (p : Program) (ts : List Token) : Prop := statementsYield p.statements ts

/-! ## Trees with a token sequence have no gaps -/

/-- What is inside all the parentheses. -/
theorem Grouped.exists_bare {bare : Nat → Nat → List Token → Prop} {low edge : Nat}
    {ts : List Token} (h : Grouped bare low edge ts) : ∃ low edge ts, bare low edge ts := by
  induction h with
  | bare h => exact ⟨_, _, _, h⟩
  | group _ _ _ ih => exact ih

/-- What is read as a whole is read as an expression in its parentheses, or without any. -/
theorem Whole.exists_bare {bare : Nat → Nat → List Token → Prop} {ts : List Token}
    (h : Whole bare ts) :
    ∃ low edge ts, bare low edge ts :=
  h.choose_spec.exists_bare

mutual

/-- An expression that is read from tokens is complete. -/
theorem Expr.isComplete_of_bare :
    ∀ (e : Expr), (∃ low edge ts, e.Bare low edge ts) → e.isComplete = true
  | .missing, ⟨_, _, _, h⟩ => False.elim h
  | .ident _, _ | .integer .., _ | .float .., _ | .double .., _ | .boolean .., _ | .string .., _ =>
    rfl
  | .array _ elements, ⟨_, _, _, h⟩ => by
    obtain ⟨-, _, _, _, -, -, -, h⟩ := h
    exact areComplete_of_yield elements (.inl ⟨_, h⟩)
  | .hash _ pairs, ⟨_, _, _, h⟩ => by
    obtain ⟨-, _, _, _, -, -, -, h⟩ := h
    exact pairsComplete_of_yield pairs ⟨_, h⟩
  | .prefixed _ _ operand, ⟨_, _, _, h⟩ => by
    obtain ⟨_, _, _, -, -, h, -⟩ := h
    exact operand.isComplete_of_bare h.exists_bare
  | .infixed _ _ left right, ⟨_, _, _, h⟩ => by
    obtain ⟨_, _, _, _, _, -, -, -, -, hleft, hright, -⟩ := h
    rw [Expr.isComplete, left.isComplete_of_bare hleft.exists_bare,
      right.isComplete_of_bare hright.exists_bare, Bool.and_self]
  | .index _ collection key, ⟨_, _, _, h⟩ => by
    obtain ⟨-, _, _, _, _, _, -, -, -, -, -, hcollection, hkey⟩ := h
    rw [Expr.isComplete, collection.isComplete_of_bare hcollection.exists_bare,
      key.isComplete_of_bare hkey.exists_bare, Bool.and_self]
  | .call _ callee arguments, ⟨_, _, _, h⟩ => by
    obtain ⟨-, _, _, _, _, _, -, -, -, -, -, hcallee, harguments⟩ := h
    rw [Expr.isComplete, callee.isComplete_of_bare hcallee.exists_bare,
      areComplete_of_yield arguments (.inl ⟨_, harguments⟩), Bool.and_self]
  | .function _ _ body, ⟨_, _, _, h⟩ => by
    obtain ⟨-, _, _, _, _, _, -, -, -, -, -, hbody⟩ := h
    exact body.isComplete_of_yields ⟨_, hbody⟩
  | .conditional _ condition consequence elifs alternative, ⟨_, _, _, h⟩ => by
    obtain ⟨-, _, _, _, _, _, _, _, -, -, -, -, hcondition, hconsequence, helifs, halternative⟩ := h
    rw [Expr.isComplete, condition.isComplete_of_bare hcondition.exists_bare,
      consequence.isComplete_of_yields ⟨_, hconsequence⟩, elifsComplete_of_yield elifs ⟨_, helifs⟩,
      alternativeComplete_of_yields alternative ⟨_, halternative⟩]
    rfl
  | .loop _ _ _ start condition step body, ⟨_, _, _, h⟩ => by
    obtain ⟨-, _, _, _, _, _, _, _, _, _, _, _, -, -, -, -, -, hstart, -, hcondition, -, hstep,
      -, hbody⟩ := h
    rw [Expr.isComplete, start.isComplete_of_bare hstart.exists_bare,
      condition.isComplete_of_bare hcondition.exists_bare, step.isComplete_of_yields ⟨_, hstep⟩,
      body.isComplete_of_yields ⟨_, hbody⟩]
    rfl

/-- Expressions in a row that are read from tokens are complete. -/
theorem areComplete_of_yield : ∀ (es : List Expr),
    ((∃ ts, elementsYield es ts) ∨ ∃ ts, moreElementsYield es ts) → areComplete es = true
  | [], _ => rfl
  | e :: es, h => by
    obtain ⟨⟨_, hfirst⟩, hrest⟩ : (∃ ts, Whole e.Bare ts) ∧ ∃ ts, moreElementsYield es ts := by
      rcases h with ⟨_, _, _, -, hfirst, hrest⟩ | ⟨_, _, _, _, -, -, hfirst, hrest⟩
      · exact ⟨⟨_, hfirst⟩, _, hrest⟩
      · exact ⟨⟨_, hfirst⟩, _, hrest⟩
    rw [areComplete, e.isComplete_of_bare hfirst.exists_bare, areComplete_of_yield es (.inr hrest),
      Bool.and_self]

/-- The pairs of a hash that are read from tokens are complete. -/
theorem pairsComplete_of_yield : ∀ (pairs : List (Expr × Expr)),
    (∃ ts, pairsYield pairs ts) → pairsComplete pairs = true
  | [], _ => rfl
  | (k, v) :: pairs, ⟨_, h⟩ => by
    obtain ⟨_, _, _, _, -, -, hkey, hvalue, hrest⟩ := h
    have hpairs : pairsComplete pairs = true := by
      rcases hrest with ⟨-, rfl⟩ | ⟨_, _, -, -, hrest⟩
      · rfl
      · exact pairsComplete_of_yield pairs ⟨_, hrest⟩
    rw [pairsComplete, k.isComplete_of_bare hkey.exists_bare,
      v.isComplete_of_bare hvalue.exists_bare, hpairs]
    rfl

/-- Further conditions that are read from tokens are complete. -/
theorem elifsComplete_of_yield : ∀ (elifs : List (Expr × Block)),
    (∃ ts, elifsYield elifs ts) → elifsComplete elifs = true
  | [], _ => rfl
  | (c, b) :: elifs, ⟨_, h⟩ => by
    obtain ⟨_, _, _, _, _, _, -, -, -, -, hcondition, hblock, hrest⟩ := h
    rw [elifsComplete, c.isComplete_of_bare hcondition.exists_bare,
      b.isComplete_of_yields ⟨_, hblock⟩, elifsComplete_of_yield elifs ⟨_, hrest⟩]
    rfl

/-- The last block of a conditional that is read from tokens is complete. -/
theorem alternativeComplete_of_yields : ∀ (alternative : Option Block),
    (∃ ts, alternativeYields alternative ts) → alternativeComplete alternative = true
  | none, _ => rfl
  | some b, ⟨_, h⟩ => by
    obtain ⟨_, _, -, -, hblock⟩ := h
    exact b.isComplete_of_yields ⟨_, hblock⟩

/-- A statement that is read from tokens is complete. -/
theorem Stmt.isComplete_of_yields : ∀ (st : Stmt), (∃ ts, st.Yields ts) → st.isComplete = true
  | .binding _ _ value, ⟨_, h⟩ => by
    obtain ⟨_, _, _, _, -, -, -, hvalue, -⟩ := h
    exact value.isComplete_of_bare hvalue.exists_bare
  | .returned _ value, ⟨_, h⟩ => by
    obtain ⟨_, _, _, -, -, hvalue, -⟩ := h
    exact value.isComplete_of_bare hvalue.exists_bare
  | .broken _, _ => rfl
  | .expression _ value, ⟨_, h⟩ => by
    obtain ⟨_, _, -, -, hvalue, -⟩ := h
    exact value.isComplete_of_bare hvalue.exists_bare

/-- Statements that are read from tokens are complete. -/
theorem statementsComplete_of_yield : ∀ (ss : List Stmt),
    (∃ ts, statementsYield ss ts) → statementsComplete ss = true
  | [], _ => rfl
  | st :: ss, ⟨_, h⟩ => by
    obtain ⟨_, _, -, hfirst, hrest⟩ := h
    rw [statementsComplete, st.isComplete_of_yields ⟨_, hfirst⟩,
      statementsComplete_of_yield ss ⟨_, hrest⟩, Bool.and_self]

/-- A block that is read from tokens is complete. -/
theorem Block.isComplete_of_yields : ∀ (b : Block), (∃ ts, b.Yields ts) → b.isComplete = true
  | .mk _ statements, ⟨_, h⟩ => by
    obtain ⟨_, _, _, -, -, -, h⟩ := h
    exact statementsComplete_of_yield statements ⟨_, h⟩

end

/-- A program that has a token sequence has no gaps. -/
theorem Program.Yields.isComplete {p : Program} {ts : List Token} (h : p.Yields ts) :
    p.IsComplete :=
  statementsComplete_of_yield p.statements ⟨ts, h⟩

end Rill
