import Rill.Proofs.Tree.Counting
import Rill.Proofs.Tree.Derivation

/-!
# The effort of reading

Reading a source takes a number of calls that is linear in the number of its tokens, and no loop
goes through a round without a token.

The bound is by accounting: every token that is moved over pays for eight units of work. A reader
has a small budget besides, for what it does before it takes its first token, and readers that are
called behind a token that was taken are paid for by that token. So the budgets do not add up along
the nesting.

* `keeps_binding`, …, `keeps_statementStep`: for each reader, how large a budget it needs.
* `keeps_countedGrammar`: the readers of every bound on nesting keep to their budgets.
* `parse_effort`: the effort of reading a source.
-/

namespace Rill

open Parse Counted ParserState

/-- The readers of `c` read what those of `g` read, and keep to their budgets. -/
structure Grammar.Keeps (c : Grammar Counted) (g : Grammar Parse) : Prop where
  /-- The reader of expressions. -/
  expression (p : Strength) {s : ParserState} : s.Terminated →
    (c.expression p).Keeps (g.expression p) s 4 fun _ => 0
  /-- The reader of statements. -/
  statement {s : ParserState} : s.Terminated → c.statement.Keeps g.statement s 6 fun _ => 0

variable {c : Grammar Counted} {g : Grammar Parse} {s : ParserState}

/-! ## Statements -/

/-- A binding takes two tokens in front of its value, unless there is none. -/
theorem keeps_binding (hg : c.Keeps g) (hs : s.Terminated) :
    c.binding.Keeps g.binding s 1 fun o => if o.isSome then 12 else 0 := by
  rw [Grammar.binding, Grammar.binding]
  refine .call_bind (.demand hs (by decide) (by simp) fun t₁ s₁ hs₁ _ => .current_bind ?_)
  refine .demand hs₁.terminated (by decide) (by simp) fun t₂ s₂ hs₂ heq => ?_
  refine .advance_bind_of_ne hs₂.terminated (by simp [hs₂.current, heq]) fun t₃ s₃ hs₃ => ?_
  refine .bind (by omega) hs₃.terminated (hg.expression .lowest hs₃.terminated)
    fun value s₄ hs₄ _ => ?_
  refine .skipSemicolon_bind hs₄ fun s₅ n _ hn => .pure ?_
  simp only [Option.isSome_some, if_true]
  omega

/-- There are no statements where they stop. -/
theorem keeps_statements_of_stop {stop : TokenKind → Bool} (hstop : stop s.current.kind = true)
    (bound : Nat) :
    (c.statements stop bound).Keeps (g.statements stop bound) s 0 fun _ => 0 := by
  cases bound with
  | zero => exact .exhausted
  | succ bound =>
    rw [Grammar.statements, Grammar.statements]
    refine .current_bind ?_
    rw [if_pos hstop, if_pos hstop]
    exact .pure (Nat.le_refl 0)

/-- Statements up to a token at which `stop` holds. -/
theorem keeps_statements (hg : c.Keeps g) (stop : TokenKind → Bool)
    (hstop : stop .eof = true) (bound : Nat) (hs : s.Terminated) :
    (c.statements stop bound).Keeps (g.statements stop bound) s 7 fun _ => 0 := by
  induction bound generalizing s with
  | zero => exact .exhausted
  | succ bound ih =>
    rw [Grammar.statements, Grammar.statements]
    refine .current_bind ?_
    split
    next => exact .pure (Nat.zero_le _)
    next hhere =>
      have hcurrent : s.current.kind ≠ .eof := fun h => hhere (h ▸ hstop)
      have hlength := List.length_pos_iff.mpr (hs.ahead_ne_nil hcurrent)
      refine .tokensAhead_bind (.bind (by omega) hs (hg.statement hs) fun o s₁ hs₁ hle => ?_)
      refine .advance_bind hs₁ (fun heof => ?_) fun t s₂ hs₂ => ?_
      · -- The statement went up to the end, so it took all tokens, and this round is the last one.
        refine .goOn_bind (by omega) (by simpa [hs₁.ahead_eq_nil heof] using hlength) ?_
        exact .bind (Nat.zero_le _) hs₁ (keeps_statements_of_stop (heof ▸ hstop) bound)
          fun ss s₂ _ _ => .pure (Nat.zero_le _)
      · have h₂ := hs₂.length_eq
        refine .goOn_bind (by omega) (by omega) ?_
        exact .bind (by omega) hs₂.terminated (ih hs₂.terminated) fun ss s₃ _ _ =>
          .pure (Nat.zero_le _)

/-- A block. -/
theorem keeps_block (hg : c.Keeps g) (n : Nat) (hs : s.Terminated) :
    (c.block n).Keeps (g.block n) s 8 fun _ => 0 := by
  -- The opening brace pays nothing if the source ends here, so the budget has to do without it.
  have hbody : ∀ (s₁ : ParserState) (k : Nat), 7 ≤ k → s₁.Terminated →
      Counted.Keeps (do
        let body ← c.statements (fun k => k == .rbrace || k == .eof) n
        let t ← (Parse.current : Parse Token)
        if t.kind = .eof then report t.pos .openBlock
        return Block.mk s.current.pos body) (do
        let body ← g.statements (fun k => k == .rbrace || k == .eof) n
        let t ← Parse.current
        if t.kind = .eof then report t.pos .openBlock
        return Block.mk s.current.pos body) s₁ k fun _ => 0 := by
    intro s₁ k hk hs₁
    refine .bind hk hs₁ (keeps_statements hg _ (by decide) n hs₁) fun ss s₂ hs₂ _ =>
      .current_bind ?_
    split
    next => exact .report_bind (.pure (Nat.zero_le _))
    next => exact .pure (Nat.zero_le _)
  rw [Grammar.block, Grammar.block]
  refine .call_bind (.current_bind (.advance_bind hs (fun _ => ?_) fun t s₁ hs₁ => ?_))
  · exact hbody s 7 (by omega) hs
  · exact hbody s₁ 15 (by omega) hs₁.terminated

/-! ## Conditionals and loops -/

/-- A condition takes three tokens besides what stands between its parentheses, unless it is
missing. -/
theorem keeps_condition (hg : c.Keeps g) (hs : s.Terminated) :
    c.condition.Keeps g.condition s 1 fun e => if e.isMissing then 0 else 20 := by
  rw [Grammar.condition, Grammar.condition]
  refine .call_bind (.demand hs (by decide) (by simp [Expr.isMissing]) fun o s₁ hs₁ ho => ?_)
  refine .advance_bind_of_ne hs₁.terminated (by simp [hs₁.current, ho]) fun t s₂ hs₂ => ?_
  refine .bind (by omega) hs₂.terminated (hg.expression .lowest hs₂.terminated) fun e s₃ hs₃ _ => ?_
  refine .demand hs₃ (by decide) (by simp [Expr.isMissing]) fun close s₄ hs₄ _ => ?_
  refine .demand hs₄.terminated (by decide)
    (by simp [Expr.isMissing]) fun brace s₅ hs₅ _ => .pure ?_
  split <;> omega

/-- Further conditions with their blocks. -/
theorem keeps_elifs (hg : c.Keeps g) (n bound : Nat) (hs : s.Terminated) :
    (c.elifs n bound).Keeps (g.elifs n bound) s 0 fun _ => 0 := by
  induction bound generalizing s with
  | zero => exact .exhausted
  | succ bound ih =>
    rw [Grammar.elifs, Grammar.elifs]
    refine .next_bind ?_
    split
    next helif =>
      refine .tokensAhead_bind
        (.advance_bind_of_ne hs (hs.current_ne_eof (by simp [helif])) fun t s₁ hs₁ => ?_)
      have h₁ := hs₁.length_eq
      refine .bind (by omega) hs₁.terminated (keeps_condition hg hs₁.terminated)
        fun e s₂ hs₂ h₂ => ?_
      split
      next => exact .pure (Nat.zero_le _)
      next =>
        -- The condition spared enough for the block behind it.
        refine .bind (by omega) hs₂ (keeps_block hg n hs₂) fun b s₃ hs₃ h₃ => ?_
        refine .goOn_bind (by omega) (by omega) ?_
        exact .bind (Nat.zero_le _) hs₃ (ih hs₃) fun o s₄ _ _ => .pure (Nat.zero_le _)
    next => exact .pure (Nat.zero_le _)

/-- A conditional. -/
theorem keeps_conditional (hg : c.Keeps g) (n pos : Nat) (hs : s.Terminated) :
    (c.conditional n pos).Keeps (g.conditional n pos) s 2 fun _ => 0 := by
  rw [Grammar.conditional, Grammar.conditional]
  refine .call_bind (.bind (by omega) hs (keeps_condition hg hs) fun e s₁ hs₁ _ => ?_)
  split
  next => exact .pure (Nat.zero_le _)
  next =>
    refine .bind (by omega) hs₁ (keeps_block hg n hs₁) fun b s₂ hs₂ _ => ?_
    refine .bind (Nat.zero_le _) hs₂ (keeps_elifs hg n n hs₂) fun o s₃ hs₃ _ => ?_
    cases o with
    | none => exact .pure (Nat.zero_le _)
    | some others =>
      refine .next_bind ?_
      split
      next helse =>
        -- The `else` pays for the block behind it.
        refine .advance_bind_of_ne hs₃ (hs₃.current_ne_eof (by simp [helse])) fun t s₄ hs₄ => ?_
        refine .demand hs₄.terminated (by decide) (Nat.zero_le _) fun brace s₅ hs₅ _ => ?_
        exact .bind (by omega) hs₅.terminated (keeps_block hg n hs₅.terminated)
          fun b s₆ _ _ => .pure (Nat.zero_le _)
      next => exact .pure (Nat.zero_le _)

/-- A loop. -/
theorem keeps_loop (hg : c.Keeps g) (n pos : Nat) (hs : s.Terminated) :
    (c.loop n pos).Keeps (g.loop n pos) s 1 fun _ => 0 := by
  rw [Grammar.loop, Grammar.loop]
  refine .call_bind (.demand hs (by decide) (Nat.zero_le _) fun o s₁ hs₁ ho => ?_)
  refine .advance_bind_of_ne hs₁.terminated (by simp [hs₁.current, ho]) fun t s₂ hs₂ =>
    .current_bind ?_
  split
  next => exact .report_bind (.pure (Nat.zero_le _))
  next =>
    refine .bind (by omega) hs₂.terminated (keeps_binding hg hs₂.terminated) fun b s₃ hs₃ _ => ?_
    cases b with
    | none => exact .pure (Nat.zero_le _)
    | some b =>
      refine .current_bind ?_
      dsimp only
      refine .demand_if _ hs₃ (by decide) (Nat.zero_le _) fun s₄ k hs₄ _ hk _ => ?_
      rw [Option.isSome_some, if_pos rfl] at hk
      -- What the binding spared pays for the rest, also where the source has ended.
      refine .advance_bind_skip hs₄ fun s₅ _ hs₅ _ hk₅ => ?_
      refine .bind (by omega) hs₅ (hg.expression .lowest hs₅) fun e s₆ hs₆ _ => ?_
      refine .demand hs₆ (by decide) (Nat.zero_le _) fun semi s₇ hs₇ _ => ?_
      refine .advance_bind_skip hs₇.terminated fun s₈ _ hs₈ _ hk₈ => ?_
      refine .bind (by omega) hs₈ (hg.statement hs₈) fun o s₉ hs₉ _ => ?_
      cases o with
      | none => exact .pure (Nat.zero_le _)
      | some step =>
        refine .demand hs₉ (by decide) (Nat.zero_le _) fun close s₁₀ hs₁₀ _ => ?_
        refine .demand hs₁₀.terminated (by decide) (Nat.zero_le _) fun brace s₁₁ hs₁₁ _ => ?_
        exact .bind (by omega) hs₁₁.terminated (keeps_block hg n hs₁₁.terminated)
          fun body s₁₂ _ _ => .pure (Nat.zero_le _)

/-! ## Functions and collections -/

/-- Further parameters. -/
theorem keeps_moreParameters (bound : Nat) (hs : s.Terminated) :
    (Grammar.moreParameters (m := Counted) bound).Keeps (Grammar.moreParameters bound) s 0
      fun _ => 0 := by
  induction bound generalizing s with
  | zero => exact .exhausted
  | succ bound ih =>
    rw [Grammar.moreParameters, Grammar.moreParameters]
    refine .next_bind ?_
    split
    next hcomma =>
      refine .tokensAhead_bind
        (.advance_bind_of_ne hs (hs.current_ne_eof (by simp [hcomma])) fun t s₁ hs₁ => ?_)
      refine .demand hs₁.terminated (by decide) (Nat.zero_le _) fun t s₂ hs₂ _ => .current_bind ?_
      have h₁ := hs₁.length_eq
      have h₂ := hs₂.length_eq
      -- Two tokens were taken, so the round went on and can be paid for.
      refine .goOn_bind (by omega) (by omega) ?_
      exact .bind (Nat.zero_le _) hs₂.terminated (ih hs₂.terminated) fun o s₃ _ _ =>
        .pure (Nat.zero_le _)
    next =>
      refine .expect_bind hs (by decide) (fun s₁ => .pure (Nat.zero_le _)) fun t s₁ _ _ =>
        .pure (Nat.zero_le _)

/-- The parameters of a function. -/
theorem keeps_parameters (n : Nat) (hs : s.Terminated) :
    (Grammar.parameters (m := Counted) n).Keeps (Grammar.parameters n) s 1 fun _ => 0 := by
  rw [Grammar.parameters, Grammar.parameters]
  refine .call_bind (.next_bind ?_)
  split
  next =>
    exact .advance_bind hs (fun _ => .pure (Nat.zero_le _)) fun t s₁ _ => .pure (Nat.zero_le _)
  next =>
    refine .demand hs (by decide) (Nat.zero_le _) fun t s₁ hs₁ _ => .current_bind ?_
    exact .bind (Nat.zero_le _) hs₁.terminated (keeps_moreParameters n hs₁.terminated)
      fun o s₂ _ _ => .pure (Nat.zero_le _)

/-- A function. -/
theorem keeps_function (hg : c.Keeps g) (n pos : Nat) (hs : s.Terminated) :
    (c.function n pos).Keeps (g.function n pos) s 1 fun _ => 0 := by
  rw [Grammar.function, Grammar.function]
  refine .call_bind (.demand hs (by decide) (Nat.zero_le _) fun o s₁ hs₁ _ => ?_)
  refine .bind (by omega) hs₁.terminated (keeps_parameters n hs₁.terminated)
    fun names s₂ hs₂ _ => ?_
  cases names with
  | none => exact .pure (Nat.zero_le _)
  | some names =>
    refine .demand hs₂ (by decide) (Nat.zero_le _) fun brace s₃ hs₃ _ => ?_
    exact .bind (by omega) hs₃.terminated (keeps_block hg n hs₃.terminated) fun b s₄ _ _ =>
      .pure (Nat.zero_le _)

/-- Further expressions. -/
theorem keeps_moreExpressions (hg : c.Keeps g) (bound : Nat) (hs : s.Terminated) :
    (c.moreExpressions bound).Keeps (g.moreExpressions bound) s 0 fun _ => 0 := by
  induction bound generalizing s with
  | zero => exact .exhausted
  | succ bound ih =>
    rw [Grammar.moreExpressions, Grammar.moreExpressions]
    refine .next_bind ?_
    split
    next hcomma =>
      refine .tokensAhead_bind
        (.advance_bind_of_ne hs (hs.current_ne_eof (by simp [hcomma])) fun t s₁ hs₁ => ?_)
      have h₁ := hs₁.length_eq
      -- The comma pays for the expression, which may be cut off by the end of the source.
      refine .advance_bind_skip hs₁.terminated fun s₂ k hs₂ h₂ hk => ?_
      refine .bind (by omega) hs₂ (hg.expression .lowest hs₂) fun e s₃ hs₃ h₃ => ?_
      refine .goOn_bind (by omega) (by omega) ?_
      exact .bind (Nat.zero_le _) hs₃ (ih hs₃) fun es s₄ _ _ => .pure (Nat.zero_le _)
    next => exact .pure (Nat.zero_le _)

/-- Expressions up to a closing token. They are behind an opening one, which pays for the first of
them. -/
theorem keeps_expressions (hg : c.Keeps g) (n : Nat) {close : TokenKind} (hclose : close ≠ .eof)
    (hs : s.Terminated) (hcurrent : s.current.kind ≠ .eof) :
    (c.expressions n close).Keeps (g.expressions n close) s 1 fun _ => 0 := by
  rw [Grammar.expressions, Grammar.expressions]
  refine .call_bind (.next_bind ?_)
  split
  next => exact .advance_bind_skip hs fun s₁ k _ _ _ => .pure (Nat.zero_le _)
  next =>
    refine .advance_bind_of_ne hs hcurrent fun t s₁ hs₁ => ?_
    refine .bind (by omega) hs₁.terminated (hg.expression .lowest hs₁.terminated)
      fun e s₂ hs₂ _ => ?_
    refine .bind (Nat.zero_le _) hs₂ (keeps_moreExpressions hg n hs₂) fun es s₃ hs₃ _ => ?_
    exact .expect_bind hs₃ hclose (fun s₄ => .pure (Nat.zero_le _)) fun t s₄ _ _ =>
      .pure (Nat.zero_le _)

/-- The pairs of a hash. What stands in front of a pair pays for its key. -/
theorem keeps_pairs (hg : c.Keeps g) (bound : Nat) (hs : s.Terminated)
    (hcurrent : s.current.kind ≠ .eof) :
    (c.pairs bound).Keeps (g.pairs bound) s 0 fun _ => 0 := by
  induction bound generalizing s with
  | zero => exact .exhausted
  | succ bound ih =>
    rw [Grammar.pairs, Grammar.pairs]
    refine .next_bind ?_
    split
    next => exact .advance_bind_skip hs fun s₁ k _ _ _ => .pure (Nat.zero_le _)
    next =>
      refine .tokensAhead_bind (.advance_bind_of_ne hs hcurrent fun t s₁ hs₁ => ?_)
      have h₁ := hs₁.length_eq
      refine .bind (by omega) hs₁.terminated (hg.expression .lowest hs₁.terminated)
        fun key s₂ hs₂ h₂ => ?_
      refine .demand hs₂ (by decide) (Nat.zero_le _) fun colon s₃ hs₃ _ => ?_
      have h₃ := hs₃.length_eq
      refine .advance_bind_skip hs₃.terminated fun s₄ k hs₄ h₄ hk => ?_
      refine .bind (by omega) hs₄ (hg.expression .lowest hs₄) fun value s₅ hs₅ h₅ => .next_bind ?_
      dsimp only
      refine .demand_if _ hs₅ (by decide) (Nat.zero_le _) fun s₆ k hs₆ h₆ hk hhere => ?_
      -- The next round needs a token to move on from: a comma, or the value before the closing
      -- brace.
      have hcurrent : s₆.current.kind ≠ .eof := by
        rcases hhere with hcomma | ⟨hlast, rfl⟩
        · simp [hcomma]
        · have hlast : s₆.next.kind = .rbrace := by simpa using hlast
          exact hs₆.current_ne_eof (by simp [hlast])
      refine .goOn_bind (by omega) (by omega) ?_
      exact .bind (Nat.zero_le _) hs₆ (ih hs₆ hcurrent) fun o s₇ _ _ => .pure (Nat.zero_le _)

/-! ## Operands and operators -/

/-- A prefix operator and its operand. -/
theorem keeps_prefixed (hg : c.Keeps g) (hs : s.Terminated)
    (hcurrent : s.current.kind ≠ .eof) {k pos : Nat} {op : PrefixOp} :
    Keeps (do
      liftM advance
      return some (Expr.prefixed pos op (← c.expression .prefixed))) (do
      advance
      return some (Expr.prefixed pos op (← g.expression .prefixed))) s k fun _ => 0 := by
  refine .advance_bind_of_ne hs hcurrent fun t s₁ hs₁ => ?_
  exact .bind (by omega) hs₁.terminated (hg.expression .prefixed hs₁.terminated)
    fun e s₂ _ _ => .pure (Nat.zero_le _)

/-- The operand that starts with the current token. -/
theorem keeps_operand (hg : c.Keeps g) (n : Nat) (hs : s.Terminated) :
    (c.operand n s.current).Keeps (g.operand n s.current) s 3 fun _ => 0 := by
  rw [Grammar.operand, Grammar.operand]
  -- One of the three pays for this call, and two are left for the reader that the token leads to.
  refine .call_bind ?_
  cases hkind : s.current.kind with
  | int => exact .weaken (by omega) (.map hs (.of_reads (reads_integer hkind)))
  | float => exact .weaken (by omega) (.map hs (.of_reads (reads_float hkind)))
  | double => exact .weaken (by omega) (.map hs (.of_reads (reads_double hkind)))
  | bang => exact keeps_prefixed hg hs (by simp [hkind])
  | minus => exact keeps_prefixed hg hs (by simp [hkind])
  | lparen =>
    refine .advance_bind_of_ne hs (by simp [hkind]) fun t s₁ hs₁ => ?_
    refine .bind (by omega) hs₁.terminated (hg.expression .lowest hs₁.terminated)
      fun e s₂ hs₂ _ => ?_
    exact .expect_bind hs₂ (by decide) (fun s₃ => .pure (Nat.zero_le _)) fun t s₃ _ _ =>
      .pure (Nat.zero_le _)
  | if_ => exact .map hs (keeps_conditional hg n _ hs)
  | for_ => exact .weaken (by omega) (.map hs (keeps_loop hg n _ hs))
  | function => exact .weaken (by omega) (.map hs (keeps_function hg n _ hs))
  | lbracket =>
    exact .bind (by omega) hs (keeps_expressions hg n (by decide) hs (by simp [hkind]))
      fun es s₁ _ _ => .pure (Nat.zero_le _)
  | lbrace =>
    refine .bind (Nat.zero_le _) hs (keeps_pairs hg n hs (by simp [hkind])) fun o s₁ _ _ => ?_
    cases o <;> exact .pure (Nat.zero_le _)
  | _ => exact .pure (Nat.zero_le _)

/-- The expression that the current token makes with what stands left of it. -/
theorem keeps_extend (hg : c.Keeps g) (n : Nat) (left : Expr) (hs : s.Terminated)
    (hcurrent : s.current.kind ≠ .eof) :
    (c.extend n s.current left).Keeps (g.extend n s.current left) s 2 fun _ => 0 := by
  rw [Grammar.extend, Grammar.extend]
  refine .call_bind ?_
  cases InfixOp.ofKind? s.current.kind with
  -- The operator's own token pays for the expression behind it.
  | some op =>
    refine .advance_bind_of_ne hs hcurrent fun t s₁ hs₁ => ?_
    exact .bind (by omega) hs₁.terminated (hg.expression op.strength hs₁.terminated)
      fun e s₂ _ _ => .pure (Nat.zero_le _)
  | none =>
    dsimp only
    split
    next =>
      exact .bind (by omega) hs (keeps_expressions hg n (by decide) hs hcurrent)
        fun es s₁ _ _ => .pure (Nat.zero_le _)
    next =>
      refine .advance_bind_of_ne hs hcurrent fun t s₁ hs₁ => ?_
      refine .bind (by omega) hs₁.terminated (hg.expression .lowest hs₁.terminated)
        fun key s₂ hs₂ _ => ?_
      exact .expect_bind hs₂ (by decide) (fun s₃ => .pure (Nat.zero_le _)) fun t s₃ _ _ =>
        .pure (Nat.zero_le _)

/-- The operators behind an operand. Each pays for what it makes of the operand. -/
theorem keeps_operators (hg : c.Keeps g) (n : Nat) (p : Strength) (bound : Nat) (left : Expr)
    (hs : s.Terminated) :
    (c.operators n p bound left).Keeps (g.operators n p bound left) s 0 fun _ => 0 := by
  induction bound generalizing s left with
  | zero => exact .exhausted
  | succ bound ih =>
    rw [Grammar.operators, Grammar.operators]
    refine .next_bind ?_
    split
    next hrank =>
      have hnext : s.next.kind ≠ .eof := by
        intro h
        rw [h] at hrank
        exact absurd hrank (Nat.not_lt_zero _)
      -- The operator is a token of its own, and it pays for the round.
      refine .tokensAhead_bind (.advance_bind_of_ne hs (hs.current_ne_eof hnext) fun t s₁ hs₁ => ?_)
      have h₁ := hs₁.length_eq
      rw [hs₁.next_eq] at hnext ⊢
      refine .bind (by omega) hs₁.terminated (keeps_extend hg n left hs₁.terminated hnext)
        fun longer s₂ hs₂ h₂ => ?_
      exact .goOn_bind (by omega) (by omega) (.weaken (Nat.zero_le _) (ih longer hs₂))
    next => exact .pure (Nat.zero_le _)

/-- An expression with a bound one higher. -/
theorem keeps_expressionStep (hg : c.Keeps g) (n : Nat) (p : Strength) (hs : s.Terminated) :
    (c.expressionStep n p).Keeps (g.expressionStep n p) s 4 fun _ => 0 := by
  rw [Grammar.expressionStep, Grammar.expressionStep]
  refine .call_bind (.current_bind
    (.bind (by omega) hs (keeps_operand hg n hs) fun o s₁ hs₁ _ => ?_))
  cases o with
  | some left => exact .weaken (Nat.zero_le _) (keeps_operators hg n p n left hs₁)
  | none => exact .report_bind (.pure (Nat.zero_le _))

/-- The value at the end of a statement. -/
theorem keeps_value (hg : c.Keeps g) (hs : s.Terminated) {k : Nat} (hk : 4 ≤ k)
    {f : Expr → Option Stmt} :
    Keeps (do
      let value ← c.expression .lowest
      liftM skipSemicolon
      return f value) (do
      let value ← g.expression .lowest
      skipSemicolon
      return f value) s k fun _ => 0 := by
  refine .bind hk hs (hg.expression .lowest hs) fun value s₁ hs₁ _ => ?_
  exact .skipSemicolon_bind hs₁ fun s₂ k _ _ => .pure (Nat.zero_le _)

/-- A statement with a bound one higher. -/
theorem keeps_statementStep (hg : c.Keeps g) (hs : s.Terminated) :
    c.statementStep.Keeps g.statementStep s 6 fun _ => 0 := by
  rw [Grammar.statementStep, Grammar.statementStep]
  refine .call_bind (.current_bind ?_)
  cases hkind : s.current.kind with
  | let_ =>
    exact .bind (by omega) hs (keeps_binding hg hs) fun o s₁ _ _ => .pure (Nat.zero_le _)
  | return_ =>
    refine .call_bind (.advance_bind_skip hs fun s₁ k hs₁ _ hk => ?_)
    exact keeps_value hg hs₁ hk
  | break_ =>
    exact .call_bind (.skipSemicolon_bind hs fun s₁ k _ _ => .pure (Nat.zero_le _))
  | _ => exact .call_bind (keeps_value hg hs (Nat.le_refl _))

/-- The readers of every bound keep to their budgets. -/
theorem keeps_countedGrammar (n : Nat) : (countedGrammar n).Keeps (grammar n) := by
  induction n with
  | zero => exact ⟨fun _ _ _ => .exhausted, fun _ => .exhausted⟩
  | succ n ih =>
    exact ⟨fun p _ hs => keeps_expressionStep ih n p hs, fun hs => keeps_statementStep ih hs⟩

/-! ## Sources -/

/-- Reading a source comes to its end. The number of calls of readers and of rounds of their loops
is at most eight times the number of tokens, the end token included, and no round goes by without a
token, so none of them begins at the end. The readers that count read what those that do not count
read, and these never reach the bound on nesting, which is twice the number of tokens and four. -/
theorem parse_effort (src : Bytes) :
    ∃ effort, parseCounted? (tokens src) = some (parse src, effort) ∧
      parseTokens? (tokens src) = some (parse src) ∧
      effort.calls + effort.rounds.length ≤ 8 * (tokens src).length ∧
      ∀ r ∈ effort.rounds, r.after < r.before := by
  obtain ⟨t, rest, ss, s', htokens, hterminated, hrun, hparse⟩ := exists_parse src
  -- The program starts with a budget of eight, and each token that is taken adds eight.
  have hkeeps : ((countedGrammar (nestingBound (rest.length + 1))).program _).Keeps
      ((grammar (nestingBound (rest.length + 1))).program (nestingBound (rest.length + 1)))
      ⟨t, rest, []⟩ 8 fun _ => 0 :=
    .call_bind (keeps_statements (keeps_countedGrammar _) _ (by decide) _ hterminated)
  obtain ⟨effort, hcounted, hwithin⟩ := hkeeps ss s' hrun
  refine ⟨effort, ?_, ?_, ?_, hwithin.rounds⟩
  · simp only [htokens, parseCounted?, List.length_cons, hcounted, Option.map_some, hparse]
  · simp only [htokens, parseTokens?, Grammar.program, Parse.call_bind,
      List.length_cons, hrun, hparse]
  · have hpaid := hwithin.paid
    rw [htokens, List.length_cons]
    rw [Effort.total] at hpaid
    dsimp only at hpaid
    omega

-- The program, its statement by two readers, the call as an expression, its callee, the call
-- itself, its list of arguments, and the argument as an expression and as an operand.
example : (parseCounted? (tokens (text "f(1)"))).map (·.2) = some ⟨9, [⟨4, 1⟩, ⟨4, 0⟩]⟩ := by
  decide +kernel

end Rill
