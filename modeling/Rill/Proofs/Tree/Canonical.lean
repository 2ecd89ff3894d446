import Rill.Proofs.Token.Lexeme
import Rill.Proofs.Tree.Grammar
import Rill.Tree.Printer

/-!
# Trees that survive their canonical form

The canonical form of a tree says less than a source: it has no offsets, it puts no semicolon behind
an expression, and it leaves the parentheses of a condition to the condition.

* `Program.unplaced`: a tree without offsets and without the first tokens of its statements.
* `Program.isRereadable`: in every list of statements only the last may be an expression, and every
  condition is an operator or an index, which is written in parentheses.
* `Program.Legible`: a rereadable tree whose names, numbers and texts are spelled as tokens are.
* `Expr.lexemes`, `statementsLexemes`: the lexemes of the canonical form.
-/

namespace Rill

/-! ## Trees without offsets -/

/-- A name without its offset. -/
def Name.unplaced (name : Name) : Name := ⟨0, name.text⟩

mutual

/-- An expression without offsets. -/
@[simp]
def Expr.unplaced : Expr → Expr
  | .missing => .missing
  | .ident name => .ident name.unplaced
  | .integer _ spelling value => .integer 0 spelling value
  | .float _ spelling value => .float 0 spelling value
  | .double _ spelling value => .double 0 spelling value
  | .boolean _ value => .boolean 0 value
  | .string _ value => .string 0 value
  | .array _ elements => .array 0 (unplacedAll elements)
  | .hash _ pairs => .hash 0 (unplacedPairs pairs)
  | .prefixed _ op operand => .prefixed 0 op operand.unplaced
  | .infixed _ op left right => .infixed 0 op left.unplaced right.unplaced
  | .index _ collection key => .index 0 collection.unplaced key.unplaced
  | .call _ callee arguments => .call 0 callee.unplaced (unplacedAll arguments)
  | .function _ parameters body => .function 0 (parameters.map Name.unplaced) body.unplaced
  | .conditional _ condition consequence elifs alternative =>
    .conditional 0 condition.unplaced consequence.unplaced (unplacedElifs elifs)
      (unplacedAlternative alternative)
  | .loop _ _ counter start condition step body =>
    .loop 0 0 counter.unplaced start.unplaced condition.unplaced step.unplaced body.unplaced

/-- Expressions without offsets. -/
@[simp]
def unplacedAll : List Expr → List Expr
  | [] => []
  | e :: es => e.unplaced :: unplacedAll es

/-- The pairs of a hash without offsets. -/
@[simp]
def unplacedPairs : List (Expr × Expr) → List (Expr × Expr)
  | [] => []
  | (k, v) :: pairs => (k.unplaced, v.unplaced) :: unplacedPairs pairs

/-- Further conditions and their blocks without offsets. -/
@[simp]
def unplacedElifs : List (Expr × Block) → List (Expr × Block)
  | [] => []
  | (c, b) :: elifs => (c.unplaced, b.unplaced) :: unplacedElifs elifs

/-- The last block of a conditional without offsets. -/
@[simp]
def unplacedAlternative : Option Block → Option Block
  | none => none
  | some b => some b.unplaced

/-- A statement without offsets and without its first token. -/
@[simp]
def Stmt.unplaced : Stmt → Stmt
  | .binding _ name value => .binding 0 name.unplaced value.unplaced
  | .returned _ value => .returned 0 value.unplaced
  | .broken _ => .broken 0
  | .expression _ value => .expression default value.unplaced

/-- Statements without offsets. -/
@[simp]
def unplacedStatements : List Stmt → List Stmt
  | [] => []
  | s :: ss => s.unplaced :: unplacedStatements ss

/-- A block without offsets. -/
@[simp]
def Block.unplaced : Block → Block
  | .mk _ statements => .mk 0 (unplacedStatements statements)

end

/-- A program without offsets. -/
def Program.unplaced (p : Program) : Program := ⟨unplacedStatements p.statements⟩

/-! ## Trees that can be read again -/

/-- Whether the canonical form has parentheses around the expression. -/
def Expr.isParenthesised : Expr → Bool
  | .prefixed .. | .infixed .. | .index .. => true
  | _ => false

/-- Whether a statement is an expression. -/
def Stmt.isExpression : Stmt → Bool
  | .expression .. => true
  | _ => false

/-- Whether only the last statement may be an expression. -/
def onlyLastIsExpression : List Stmt → Bool
  | [] | [_] => true
  | s :: ss => !s.isExpression && onlyLastIsExpression ss

mutual

/-- Whether the canonical form of an expression can be read again. -/
def Expr.isRereadable : Expr → Bool
  | .missing | .ident _ | .integer .. | .float .. | .double .. | .boolean .. | .string .. => true
  | .array _ elements => areRereadable elements
  | .hash _ pairs => pairsRereadable pairs
  | .prefixed _ _ operand => operand.isRereadable
  | .infixed _ _ left right => left.isRereadable && right.isRereadable
  | .index _ collection key => collection.isRereadable && key.isRereadable
  | .call _ callee arguments => callee.isRereadable && areRereadable arguments
  | .function _ _ body => body.isRereadable
  | .conditional _ condition consequence elifs alternative =>
    condition.isParenthesised && condition.isRereadable && consequence.isRereadable &&
      elifsRereadable elifs && alternativeRereadable alternative
  | .loop _ _ _ start condition step body =>
    start.isRereadable && condition.isRereadable && step.isRereadable && body.isRereadable

/-- Whether the canonical forms of expressions can be read again. -/
def areRereadable : List Expr → Bool
  | [] => true
  | e :: es => e.isRereadable && areRereadable es

/-- Whether the pairs of a hash can be read again. -/
def pairsRereadable : List (Expr × Expr) → Bool
  | [] => true
  | (k, v) :: pairs => k.isRereadable && v.isRereadable && pairsRereadable pairs

/-- Whether further conditions and their blocks can be read again. -/
def elifsRereadable : List (Expr × Block) → Bool
  | [] => true
  | (c, b) :: elifs =>
    c.isParenthesised && c.isRereadable && b.isRereadable && elifsRereadable elifs

/-- Whether the last block of a conditional can be read again. -/
def alternativeRereadable : Option Block → Bool
  | none => true
  | some b => b.isRereadable

/-- Whether the canonical form of a statement can be read again. -/
def Stmt.isRereadable : Stmt → Bool
  | .binding _ _ value => value.isRereadable
  | .returned _ value => value.isRereadable
  | .broken _ => true
  | .expression _ value => value.isRereadable

/-- Whether the canonical forms of statements can be read again, each for itself. -/
def statementsRereadable : List Stmt → Bool
  | [] => true
  | s :: ss => s.isRereadable && statementsRereadable ss

/-- Whether the canonical form of a block can be read again. -/
def Block.isRereadable : Block → Bool
  | .mk _ statements => onlyLastIsExpression statements && statementsRereadable statements

end

/-- Whether the canonical form of a program can be read again. -/
def Program.isRereadable (p : Program) : Bool :=
  onlyLastIsExpression p.statements && statementsRereadable p.statements

/-! ## Legible trees -/

mutual

/-- A rereadable expression whose leaves are spelled as tokens are. -/
def Expr.Legible : Expr → Prop
  | .missing => False
  | .ident name => name.token.Spelled
  | .integer _ spelling value =>
    NumberSpelling .int spelling ∧ Bytes.toNat spelling < 0x8000000000000000 ∧
      value = Int64.ofNat (Bytes.toNat spelling)
  | .float _ spelling value => NumberSpelling .float spelling ∧ value.isFinite ∧
      (Numeral.read? (Grammar.numberBody spelling)).map Numeral.toFloat32 = some value
  | .double _ spelling value => NumberSpelling .double spelling ∧ value.isFinite ∧
      (Numeral.read? (Grammar.numberBody spelling)).map Numeral.toFloat = some value
  | .boolean .. => True
  | .string _ value => ∀ b ∈ value, Cursor.isQuotedByte b
  | .array _ elements => allLegible elements
  | .hash _ pairs => pairsLegible pairs
  | .prefixed _ _ operand => operand.Legible
  | .infixed _ _ left right => left.Legible ∧ right.Legible
  | .index _ collection key => collection.Legible ∧ key.Legible
  | .call _ callee arguments => callee.Legible ∧ allLegible arguments
  | .function _ parameters body => (∀ name ∈ parameters, name.token.Spelled) ∧ body.Legible
  | .conditional _ condition consequence elifs alternative =>
    condition.isParenthesised ∧ condition.Legible ∧ consequence.Legible ∧ elifsLegible elifs ∧
      alternativeLegible alternative
  | .loop _ _ counter start condition step body =>
    counter.token.Spelled ∧ start.Legible ∧ condition.Legible ∧ step.Legible ∧ body.Legible

/-- Legible expressions. -/
def allLegible : List Expr → Prop
  | [] => True
  | e :: es => e.Legible ∧ allLegible es

/-- Legible pairs of a hash. -/
def pairsLegible : List (Expr × Expr) → Prop
  | [] => True
  | (k, v) :: pairs => k.Legible ∧ v.Legible ∧ pairsLegible pairs

/-- Legible further conditions and blocks. -/
def elifsLegible : List (Expr × Block) → Prop
  | [] => True
  | (c, b) :: elifs => c.isParenthesised ∧ c.Legible ∧ b.Legible ∧ elifsLegible elifs

/-- A legible last block. -/
def alternativeLegible : Option Block → Prop
  | none => True
  | some b => b.Legible

/-- A legible statement. -/
def Stmt.Legible : Stmt → Prop
  | .binding _ name value => name.token.Spelled ∧ value.Legible
  | .returned _ value => value.Legible
  | .broken _ => True
  | .expression _ value => value.Legible

/-- Legible statements, none of which stands behind an expression. -/
def statementsLegible : List Stmt → Prop
  | [] => True
  | s :: ss => s.Legible ∧ (s.isExpression → ss = []) ∧ statementsLegible ss

/-- A legible block. -/
def Block.Legible : Block → Prop
  | .mk _ statements => statementsLegible statements

end

/-- A legible program. -/
def Program.Legible (p : Program) : Prop := statementsLegible p.statements

/-! ## The lexemes of canonical forms -/

/-- The names of parameters with commas between them. -/
def parametersLexemes : List Name → List Lexeme
  | [] => []
  | name :: names => (.ident, name.text) :: names.flatMap fun n => [(.comma, []), (.ident, n.text)]

mutual

/-- The lexemes of an expression. -/
def Expr.lexemes : Expr → List Lexeme
  | .missing => []
  | .ident name => [(.ident, name.text)]
  | .integer _ spelling _ => [(.int, spelling)]
  | .float _ spelling _ => [(.float, spelling)]
  | .double _ spelling _ => [(.double, spelling)]
  | .boolean _ value => [(if value then .true_ else .false_, [])]
  | .string _ value => [(.string, value)]
  | .array _ elements => (.lbracket, []) :: elementsLexemes elements ++ [(.rbracket, [])]
  | .hash _ pairs => (.lbrace, []) :: pairsLexemes pairs ++ [(.rbrace, [])]
  | .prefixed _ op operand => (.lparen, []) :: (op.kind, []) :: operand.lexemes ++ [(.rparen, [])]
  | .infixed _ op left right =>
    (.lparen, []) :: left.lexemes ++ (op.kind, []) :: right.lexemes ++ [(.rparen, [])]
  | .index _ collection key =>
    (.lparen, []) :: collection.lexemes ++ (.lbracket, []) :: key.lexemes ++
      [(.rbracket, []), (.rparen, [])]
  | .call _ callee arguments =>
    callee.lexemes ++ (.lparen, []) :: elementsLexemes arguments ++ [(.rparen, [])]
  | .function _ parameters body =>
    (.function, []) :: (.lparen, []) :: parametersLexemes parameters ++
      (.rparen, []) :: body.lexemes
  | .conditional _ condition consequence elifs alternative =>
    (.if_, []) :: condition.lexemes ++ consequence.lexemes ++ elifsLexemes elifs ++
      alternativeLexemes alternative
  | .loop _ _ counter start condition step body =>
    (.for_, []) :: (.lparen, []) :: (.let_, []) :: (.ident, counter.text) :: (.assign, []) ::
      start.lexemes ++ (.semicolon, []) :: condition.lexemes ++ (.semicolon, []) :: step.lexemes ++
      (.rparen, []) :: body.lexemes

/-- The lexemes of expressions with commas between them. -/
def elementsLexemes : List Expr → List Lexeme
  | [] => []
  | e :: es => e.lexemes ++ moreElementsLexemes es

/-- The lexemes of expressions, each behind a comma. -/
def moreElementsLexemes : List Expr → List Lexeme
  | [] => []
  | e :: es => (.comma, []) :: e.lexemes ++ moreElementsLexemes es

/-- The lexemes of pairs with commas between them. -/
def pairsLexemes : List (Expr × Expr) → List Lexeme
  | [] => []
  | (k, v) :: pairs =>
    k.lexemes ++ (.colon, []) :: v.lexemes ++
      if pairs.isEmpty then [] else (.comma, []) :: pairsLexemes pairs

/-- The lexemes of further conditions with their blocks. -/
def elifsLexemes : List (Expr × Block) → List Lexeme
  | [] => []
  | (c, b) :: elifs => (.elif, []) :: c.lexemes ++ b.lexemes ++ elifsLexemes elifs

/-- The lexemes of the last block of a conditional. -/
def alternativeLexemes : Option Block → List Lexeme
  | none => []
  | some b => (.else_, []) :: b.lexemes

/-- The lexemes of a statement. -/
def Stmt.lexemes : Stmt → List Lexeme
  | .binding _ name value =>
    (.let_, []) :: (.ident, name.text) :: (.assign, []) :: value.lexemes ++ [(.semicolon, [])]
  | .returned _ value => (.return_, []) :: value.lexemes ++ [(.semicolon, [])]
  | .broken _ => [(.break_, []), (.semicolon, [])]
  | .expression _ value => value.lexemes

/-- The lexemes of statements. -/
def statementsLexemes : List Stmt → List Lexeme
  | [] => []
  | s :: ss => s.lexemes ++ statementsLexemes ss

/-- The lexemes of a block. -/
def Block.lexemes : Block → List Lexeme
  | .mk _ statements => (.lbrace, []) :: statementsLexemes statements ++ [(.rbrace, [])]

end

/-! ## Trees that were read are legible -/

/-- Some token sequence of an expression has only tokens that are spelled as their kinds demand. -/
def Expr.HasSpelling (e : Expr) : Prop := ∃ low edge ts, e.Bare low edge ts ∧ ∀ t ∈ ts, t.Spelled

/-- An expression that is read from spelled tokens, in parentheses or not, has a spelling. -/
theorem Grouped.hasSpelling {e : Expr} {low edge : Nat} {ts : List Token}
    (h : Grouped e.Bare low edge ts) (hts : ∀ t ∈ ts, t.Spelled) : e.HasSpelling := by
  induction h with
  | bare h => exact ⟨_, _, _, h, hts⟩
  | group _ _ _ ih => exact ih fun t ht => hts t (by simp [ht])

/-- An expression that is read as a whole from spelled tokens has a spelling. -/
theorem Whole.hasSpelling {e : Expr} {ts : List Token} (h : Whole e.Bare ts)
    (hts : ∀ t ∈ ts, t.Spelled) : e.HasSpelling :=
  h.choose_spec.hasSpelling hts

/-- The parameters of a function stand among its tokens. -/
theorem token_mem_of_parametersYield {names : List Name} {ts : List Token}
    (h : parametersYield names ts) : ∀ name ∈ names, name.token ∈ ts := by
  -- Behind the first name every name has a comma before it, so the induction is on those.
  have hmore : ∀ (names : List Name) (ts : List Token),
    parametersYield.moreParametersYield names ts →
      ∀ name ∈ names, name.token ∈ ts := by
    intro names
    induction names with
    | nil => simp
    | cons name names ih =>
      rintro ts ⟨comma, rest, rfl, -, hrest⟩ other hother
      rcases List.mem_cons.mp hother with rfl | hother
      · simp
      · simp [ih rest hrest other hother]
  cases names with
  | nil => simp
  | cons name names =>
    obtain ⟨rest, rfl, hrest⟩ := h
    intro other hother
    rcases List.mem_cons.mp hother with rfl | hother
    · simp
    · simp [hmore names rest hrest other hother]

mutual

/-- An expression with a spelling is legible if its canonical form can be read again. -/
theorem Expr.legible_of_hasSpelling : ∀ (e : Expr), e.HasSpelling → e.isRereadable → e.Legible
  -- The recursion follows the tree. Each part is spelled by some of the tokens of the whole, which
  -- is what `by simp [ht]` finds again and again.
  | .missing, ⟨_, _, _, h, _⟩, _ => h
  | .ident name, ⟨_, _, _, h, hts⟩, _ => hts _ (by simp [h.2])
  | .integer .., ⟨_, _, _, h, hts⟩, _ => by
    obtain ⟨-, rfl, hvalue⟩ := h
    exact ⟨hts _ List.mem_cons_self, hvalue⟩
  | .float .., ⟨_, _, _, h, hts⟩, _ => by
    obtain ⟨-, rfl, hvalue⟩ := h
    exact ⟨hts _ List.mem_cons_self, hvalue⟩
  | .double .., ⟨_, _, _, h, hts⟩, _ => by
    obtain ⟨-, rfl, hvalue⟩ := h
    exact ⟨hts _ List.mem_cons_self, hvalue⟩
  | .boolean .., _, _ => trivial
  | .string _ value, ⟨_, _, _, h, hts⟩, _ => by
    obtain ⟨-, rfl⟩ := h
    exact hts _ List.mem_cons_self
  | .array _ elements, ⟨_, _, _, h, hts⟩, hr => by
    obtain ⟨-, _, inner, _, rfl, -, -, h⟩ := h
    exact allLegible_of_yield elements inner (.inl h) (fun t ht => hts t (by simp [ht])) hr
  | .hash _ pairs, ⟨_, _, _, h, hts⟩, hr => by
    obtain ⟨-, _, inner, _, rfl, -, -, h⟩ := h
    exact pairsLegible_of_yield pairs inner h (fun t ht => hts t (by simp [ht])) hr
  | .prefixed _ _ operand, ⟨_, _, _, h, hts⟩, hr => by
    obtain ⟨_, _, inner, rfl, -, h, -⟩ := h
    exact operand.legible_of_hasSpelling (h.hasSpelling fun t ht => hts t (by simp [ht])) hr
  | .infixed _ _ left right, ⟨_, _, _, h, hts⟩, hr => by
    obtain ⟨before, _, _, _, tail, rfl, -, -, -, hleft, hright, -⟩ := h
    obtain ⟨hrleft, hrright⟩ := Bool.and_eq_true_iff.mp hr
    exact ⟨left.legible_of_hasSpelling (hleft.hasSpelling fun t ht => hts t (by simp [ht])) hrleft,
      right.legible_of_hasSpelling (hright.hasSpelling fun t ht => hts t (by simp [ht])) hrright⟩
  | .index _ collection key, ⟨_, _, _, h, hts⟩, hr => by
    obtain ⟨-, before, _, _, inner, _, rfl, -, -, -, -, hcollection, hkey⟩ := h
    obtain ⟨hrcollection, hrkey⟩ := Bool.and_eq_true_iff.mp hr
    exact ⟨collection.legible_of_hasSpelling (hcollection.hasSpelling fun t ht =>
      hts t (by simp [ht])) hrcollection,
      key.legible_of_hasSpelling (hkey.hasSpelling fun t ht => hts t (by simp [ht])) hrkey⟩
  | .call _ callee arguments, ⟨_, _, _, h, hts⟩, hr => by
    obtain ⟨-, before, _, _, inner, _, rfl, -, -, -, -, hcallee, harguments⟩ := h
    obtain ⟨hrcallee, hrarguments⟩ := Bool.and_eq_true_iff.mp hr
    exact ⟨callee.legible_of_hasSpelling (hcallee.hasSpelling fun t ht =>
      hts t (by simp [ht])) hrcallee,
      allLegible_of_yield arguments inner (.inl harguments)
        (fun t ht => hts t (by simp [ht])) hrarguments⟩
  | .function _ parameters body, ⟨_, _, _, h, hts⟩, hr => by
    obtain ⟨-, _, _, names, _, block, rfl, -, -, -, hparameters, hbody⟩ := h
    refine ⟨fun name hname => hts _ ?_,
      body.legible_of_yields block hbody (fun t ht => hts t (by simp [ht])) hr⟩
    -- Parameters are no expressions, so their tokens are found one by one.
    simp [token_mem_of_parametersYield hparameters name hname]
  | .conditional _ condition consequence elifs alternative, ⟨_, _, _, h, hts⟩, hr => by
    obtain ⟨-, _, _, inner, _, block, others, last, rfl, -, -, -, hcondition, hconsequence, helifs,
      halternative⟩ := h
    simp only [Expr.isRereadable, Bool.and_eq_true] at hr
    -- That the condition keeps its parentheses is no matter of tokens: it is asked for.
    obtain ⟨⟨⟨⟨hparen, hrcondition⟩, hrconsequence⟩, hrelifs⟩, hralternative⟩ := hr
    exact ⟨hparen,
      condition.legible_of_hasSpelling (hcondition.hasSpelling fun t ht =>
        hts t (by simp [ht])) hrcondition,
      consequence.legible_of_yields block hconsequence (fun t ht => hts t (by simp [ht]))
        hrconsequence,
      elifsLegible_of_yield elifs others helifs (fun t ht => hts t (by simp [ht])) hrelifs,
      alternativeLegible_of_yields alternative last halternative (fun t ht => hts t (by simp [ht]))
        hralternative⟩
  | .loop _ _ counter start condition step body, ⟨_, _, _, h, hts⟩, hr => by
    obtain ⟨-, _, _, _, _, first, _, test, _, turn, _, block, rfl, -, -, -, -, hstart, -,
      hcondition, -, hstep, -, hbody⟩ := h
    simp only [Expr.isRereadable, Bool.and_eq_true] at hr
    obtain ⟨⟨⟨hrstart, hrcondition⟩, hrstep⟩, hrbody⟩ := hr
    exact ⟨hts _ (by simp),
      start.legible_of_hasSpelling (hstart.hasSpelling fun t ht => hts t (by simp [ht])) hrstart,
      condition.legible_of_hasSpelling (hcondition.hasSpelling fun t ht =>
        hts t (by simp [ht])) hrcondition,
      step.legible_of_yields turn hstep (fun t ht => hts t (by simp [ht])) hrstep,
      body.legible_of_yields block hbody (fun t ht => hts t (by simp [ht])) hrbody⟩

/-- Expressions in a row that are read from spelled tokens are legible. -/
theorem allLegible_of_yield : ∀ (es : List Expr) (ts : List Token),
    (elementsYield es ts ∨ moreElementsYield es ts) → (∀ t ∈ ts, t.Spelled) → areRereadable es →
      allLegible es
  | [], _, _, _, _ => trivial
  | e :: es, _, h, hts, hr => by
    obtain ⟨hre, hres⟩ := Bool.and_eq_true_iff.mp hr
    -- The first element has no comma before it. This makes no difference to what is spelled.
    rcases h with ⟨first, rest, rfl, hfirst, hrest⟩ | ⟨_, first, rest, rfl, -, hfirst, hrest⟩ <;>
      exact ⟨e.legible_of_hasSpelling (hfirst.hasSpelling fun t ht => hts t (by simp [ht])) hre,
        allLegible_of_yield es rest (.inr hrest) (fun t ht => hts t (by simp [ht])) hres⟩

/-- The pairs of a hash that are read from spelled tokens are legible. -/
theorem pairsLegible_of_yield : ∀ (pairs : List (Expr × Expr)) (ts : List Token),
    pairsYield pairs ts → (∀ t ∈ ts, t.Spelled) → pairsRereadable pairs → pairsLegible pairs
  | [], _, _, _, _ => trivial
  | (k, v) :: pairs, _, h, hts, hr => by
    obtain ⟨key, _, value, rest, rfl, -, hkey, hvalue, hrest⟩ := h
    simp only [pairsRereadable, Bool.and_eq_true] at hr
    obtain ⟨⟨hrk, hrv⟩, hrpairs⟩ := hr
    refine ⟨k.legible_of_hasSpelling (hkey.hasSpelling fun t ht => hts t (by simp [ht])) hrk,
      v.legible_of_hasSpelling (hvalue.hasSpelling fun t ht => hts t (by simp [ht])) hrv, ?_⟩
    rcases hrest with ⟨-, rfl⟩ | ⟨_, more, rfl, -, hrest⟩
    · trivial
    · exact pairsLegible_of_yield pairs more hrest (fun t ht => hts t (by simp [ht])) hrpairs

/-- Further conditions that are read from spelled tokens are legible. -/
theorem elifsLegible_of_yield : ∀ (elifs : List (Expr × Block)) (ts : List Token),
    elifsYield elifs ts → (∀ t ∈ ts, t.Spelled) → elifsRereadable elifs → elifsLegible elifs
  | [], _, _, _, _ => trivial
  | (c, b) :: elifs, _, h, hts, hr => by
    obtain ⟨_, _, inner, _, body, rest, rfl, -, -, -, hcondition, hblock, hrest⟩ := h
    simp only [elifsRereadable, Bool.and_eq_true] at hr
    obtain ⟨⟨⟨hparen, hrc⟩, hrb⟩, hrelifs⟩ := hr
    exact ⟨hparen, c.legible_of_hasSpelling (hcondition.hasSpelling fun t ht =>
      hts t (by simp [ht])) hrc,
      b.legible_of_yields body hblock (fun t ht => hts t (by simp [ht])) hrb,
      elifsLegible_of_yield elifs rest hrest (fun t ht => hts t (by simp [ht])) hrelifs⟩

/-- The last block of a conditional that is read from spelled tokens is legible. -/
theorem alternativeLegible_of_yields : ∀ (alternative : Option Block) (ts : List Token),
    alternativeYields alternative ts → (∀ t ∈ ts, t.Spelled) → alternativeRereadable alternative →
      alternativeLegible alternative
  | none, _, _, _, _ => trivial
  | some b, _, h, hts, hr => by
    obtain ⟨_, body, rfl, -, hblock⟩ := h
    exact b.legible_of_yields body hblock (fun t ht => hts t (by simp [ht])) hr

/-- A statement that is read from spelled tokens is legible. -/
theorem Stmt.legible_of_yields : ∀ (st : Stmt) (ts : List Token),
    st.Yields ts → (∀ t ∈ ts, t.Spelled) → st.isRereadable → st.Legible
  | .binding _ name value, _, h, hts, hr => by
    obtain ⟨_, _, inner, _, rfl, -, -, hvalue, -⟩ := h
    exact ⟨hts _ (by simp),
      value.legible_of_hasSpelling (hvalue.hasSpelling fun t ht => hts t (by simp [ht])) hr⟩
  | .returned _ value, _, h, hts, hr => by
    obtain ⟨_, inner, _, rfl, -, hvalue, -⟩ := h
    exact value.legible_of_hasSpelling (hvalue.hasSpelling fun t ht => hts t (by simp [ht])) hr
  | .broken _, _, _, _, _ => trivial
  | .expression _ value, _, h, hts, hr => by
    obtain ⟨inner, _, rfl, -, hvalue, -⟩ := h
    exact value.legible_of_hasSpelling (hvalue.hasSpelling fun t ht => hts t (by simp [ht])) hr

/-- Statements that are read from spelled tokens are legible, as only the last one is an expression
without a semicolon. -/
theorem statementsLegible_of_yield : ∀ (ss : List Stmt) (ts : List Token), statementsYield ss ts →
    (∀ t ∈ ts, t.Spelled) → onlyLastIsExpression ss → statementsRereadable ss → statementsLegible ss
  | [], _, _, _, _, _ => trivial
  | st :: ss, _, h, hts, hlast, hr => by
    obtain ⟨first, rest, rfl, hfirst, hrest⟩ := h
    obtain ⟨hrst, hrss⟩ := Bool.and_eq_true_iff.mp hr
    refine ⟨st.legible_of_yields first hfirst (fun t ht => hts t (by simp [ht])) hrst,
      fun hst => ?_, ?_⟩
    -- An expression with a statement behind it would not be the last one.
    · cases ss with
      | nil => rfl
      | cons st' ss => simp [onlyLastIsExpression, hst] at hlast
    · refine statementsLegible_of_yield ss rest hrest (fun t ht => hts t (by simp [ht])) ?_ hrss
      cases ss with
      | nil => rfl
      | cons st' ss => exact (Bool.and_eq_true_iff.mp hlast).2

/-- A block that is read from spelled tokens is legible. -/
theorem Block.legible_of_yields : ∀ (b : Block) (ts : List Token),
    b.Yields ts → (∀ t ∈ ts, t.Spelled) → b.isRereadable → b.Legible
  | .mk _ statements, _, h, hts, hr => by
    obtain ⟨_, inner, _, rfl, -, -, h⟩ := h
    obtain ⟨hlast, hr⟩ := Bool.and_eq_true_iff.mp hr
    exact statementsLegible_of_yield statements inner h (fun t ht => hts t (by simp [ht])) hlast hr

end

/-- A rereadable program that was read from spelled tokens is legible. -/
theorem Program.Yields.legible {p : Program} {ts : List Token} (h : p.Yields ts)
    (hts : ∀ t ∈ ts, t.Spelled) (hr : p.isRereadable) : p.Legible :=
  have ⟨hlast, hr⟩ := Bool.and_eq_true_iff.mp hr
  statementsLegible_of_yield p.statements ts h hts hlast hr

end Rill
