import Rill.Proofs.Token.Placement
import Rill.Proofs.Tree.Derivation

/-!
# The order of diagnostics

A fault is reported at the current token or at the one behind it. A reader that reports at the
current token has not yet looked further, so the faults of a source are found in the order of their
places.

* `ParserState.Orderly`: the faults so far are in order, and none is behind a given offset.
* `ParserState.Settled`, `ParserState.Pending`: this offset is that of the current token, or of the
  next one. Moving on leads from the second to the first.
* `Grammar.Orderly`: readers of expressions and statements that start settled and end pending.
* `orderly_grammar`: the readers of every bound are of this kind.
* `diagnostics_in_order`: where the diagnostics of a source are.
-/

namespace Rill

namespace ParserState

variable {P : Nat → Prop} {edge : Nat} {s : ParserState}

/-- The faults found so far are in order, the latest first, and none is behind the offset `edge`.
Their offsets have the property `P`, and so have those of the tokens to come, which are in order
too. -/
structure Orderly (P : Nat → Prop) (edge : Nat) (s : ParserState) : Prop where
  ascending : s.remaining.Pairwise (·.pos ≤ ·.pos)
  tokens : ∀ t ∈ s.remaining, P t.pos
  sorted : s.found.Pairwise fun later earlier => earlier.offset ≤ later.offset
  faults : ∀ d ∈ s.found, P d.offset ∧ d.offset ≤ edge

/-- No fault was found behind the current token. -/
def Settled (P : Nat → Prop) (s : ParserState) : Prop := s.Orderly P s.current.pos

/-- No fault was found behind the next token. -/
def Pending (P : Nat → Prop) (s : ParserState) : Prop := s.Orderly P s.next.pos

/-- The next token is among those that are still to be read. -/
theorem next_mem_remaining (s : ParserState) : s.next ∈ s.remaining := by
  rw [next, remaining]
  cases s.ahead <;> simp

/-- The current token does not stand behind the next one. -/
theorem Orderly.pos_le_next (h : s.Orderly P edge) : s.current.pos ≤ s.next.pos := by
  have hascending := (List.pairwise_cons.mp h.ascending).1
  rw [next]
  cases hahead : s.ahead with
  | nil => exact Nat.le_refl _
  | cons t ts => exact hascending t (by simp [hahead])

/-- A settled state is a pending one: no fault is behind the current token, hence none behind the
next. -/
theorem Settled.pending (h : s.Settled P) : s.Pending P :=
  ⟨h.ascending, h.tokens, h.sorted,
    fun d hd => ⟨(h.faults d hd).1, Nat.le_trans (h.faults d hd).2 h.pos_le_next⟩⟩

/-- Moving on from a pending state settles it. -/
theorem Pending.advance (h : s.Pending P) : s.advance.Settled P := by
  have hcurrent : s.advance.current = s.next := by
    rw [ParserState.advance, next]
    split <;> simp_all
  have hsuffix := remaining_advance_suffix s
  refine ⟨h.ascending.sublist hsuffix.sublist, fun t ht => h.tokens t (hsuffix.mem ht), ?_, ?_⟩
  · rw [found_advance]
    exact h.sorted
  · rw [found_advance, hcurrent]
    exact h.faults

/-- A fault at the edge leaves the faults in order. -/
theorem Orderly.blame (h : s.Orderly P edge) (hedge : P edge) (fault : SyntaxFault) :
    (s.blame edge fault).Orderly P edge :=
  ⟨h.ascending, h.tokens, List.pairwise_cons.mpr ⟨fun d hd => (h.faults d hd).2, h.sorted⟩,
    List.forall_mem_cons.mpr ⟨⟨hedge, Nat.le_refl _⟩, h.faults⟩⟩

/-- A fault at the current token leaves a settled state settled. -/
theorem Settled.blame (h : s.Settled P) (fault : SyntaxFault) :
    (s.blame s.current.pos fault).Settled P :=
  Orderly.blame h (h.tokens _ List.mem_cons_self) fault

/-- A fault at the next token leaves a pending state pending. -/
theorem Pending.blame (h : s.Pending P) (fault : SyntaxFault) :
    (s.blame s.next.pos fault).Pending P :=
  Orderly.blame h (h.tokens _ s.next_mem_remaining) fault

end ParserState

open ParserState Parse

/-! ## Single steps -/

namespace Parse.Ensures

variable {β : Type} {P : Nat → Prop} {Q : β → ParserState → Prop} {s : ParserState}

/-- What follows a move from a pending state starts in a settled one. -/
theorem advance_settled {f : Unit → Parse β} (hs : s.Pending P)
    (h : ∀ s', s'.Settled P → (f ()).Ensures s' Q) : (advance >>= f).Ensures s Q :=
  h s.advance hs.advance

/-- A demanded token. Where another one comes instead, the fault is at that one. -/
theorem demand_settled {wanted : TokenKind} {x : β} {rest : Parse β} (hs : s.Pending P)
    (hx : ∀ s', s'.Pending P → Q x s') (h : ∀ s', s'.Settled P → rest.Ensures s' Q) :
    (expect wanted >>= fun b => if (!b) = true then Pure.pure x else rest).Ensures s Q := by
  intro b s' hrun
  -- Where the token comes, it becomes the current one. Otherwise nothing moves, and the fault is at
  -- the next token.
  by_cases hkind : s.next.kind = wanted
  · simp only [Bind.bind, StateT.bind, expect_of_kind_eq hkind] at hrun
    exact h s.advance hs.advance b s' hrun
  · simp only [Bind.bind, StateT.bind, expect_of_kind_ne hkind] at hrun
    cases hrun
    exact hx _ (hs.blame _)

/-- A demanded token that ends the reader. -/
theorem demand_last_settled {wanted : TokenKind} {x y : β} (hs : s.Pending P)
    (hx : ∀ s', s'.Pending P → Q x s' ∧ Q y s') :
    (expect wanted >>= fun b => if b = true then Pure.pure y else Pure.pure x).Ensures s Q := by
  intro b s' hrun
  by_cases hkind : s.next.kind = wanted
  · simp only [Bind.bind, StateT.bind, expect_of_kind_eq hkind] at hrun
    cases hrun
    exact (hx _ hs.advance.pending).2
  · simp only [Bind.bind, StateT.bind, expect_of_kind_ne hkind] at hrun
    cases hrun
    exact (hx _ (hs.blame _)).1

/-- What follows a semicolon that may be skipped starts in a pending state. -/
theorem skipSemicolon_pending {f : Unit → Parse β} (hs : s.Pending P)
    (h : ∀ s', s'.Pending P → (f ()).Ensures s' Q) : (skipSemicolon >>= f).Ensures s Q := by
  intro b s' hrun
  simp only [Bind.bind, StateT.bind, skipSemicolon_eq] at hrun
  refine h _ ?_ b s' hrun
  split
  · exact hs.advance.pending
  · exact hs

/-- A fault at the current token. -/
theorem report_settled {f : Unit → Parse β} {fault : SyntaxFault} (hs : s.Settled P)
    (h : ∀ s', s'.Settled P → (f ()).Ensures s' Q) :
    (report s.current.pos fault >>= f).Ensures s Q :=
  h _ (hs.blame fault)

end Parse.Ensures

/-! ## Readers -/

/-- Readers of expressions and statements that keep the faults in order. They start where no fault
was found behind the current token, and leave none behind the next one. -/
structure Grammar.Orderly (P : Nat → Prop) (g : Grammar Parse) : Prop where
  expression : ∀ (p : Strength) {s : ParserState}, s.Settled P →
    (g.expression p).Ensures s fun _ => Pending P
  statement : ∀ {s : ParserState}, s.Settled P → g.statement.Ensures s fun _ => Pending P

variable {P : Nat → Prop} {g : Grammar Parse} {s : ParserState}

/-- A binding behind its `let` blames in order. -/
theorem orderly_binding (hg : g.Orderly P) (hs : s.Pending P) :
    g.binding.Ensures s fun _ => Pending P := by
  simp only [Grammar.binding, call_bind, liftM_eq]
  refine .demand_settled hs (fun _ hs => hs) fun s hs => .current_bind ?_
  refine .demand_settled hs.pending (fun _ hs => hs) fun s hs => ?_
  refine .advance_settled hs.pending fun s hs =>
    .bind (hg.expression .lowest hs) fun value s hs => ?_
  exact .skipSemicolon_pending hs fun s hs => .pure hs

/-- Statements blame in order, one after the other. -/
theorem orderly_statements (hg : g.Orderly P) (stop : TokenKind → Bool) (bound : Nat)
    (hs : s.Settled P) :
    (g.statements stop bound).Ensures s fun _ => Settled P := by
  induction bound generalizing s with
  | zero => exact .exhausted
  | succ bound ih =>
    simp only [Grammar.statements, tokensAhead_bind, goOn_bind, liftM_eq]
    refine .current_bind ?_
    split
    next => exact .pure hs
    next =>
      refine .bind (hg.statement hs) fun st s hs => .advance_settled hs fun s hs => ?_
      exact .bind (ih hs) fun ss s hs => .pure hs

/-- A block blames in order. -/
theorem orderly_block (hg : g.Orderly P) (n : Nat) (hs : s.Pending P) :
    (g.block n).Ensures s fun _ => Pending P := by
  simp only [Grammar.block, call_bind, liftM_eq]
  refine .current_bind (.advance_settled hs fun s hs => ?_)
  refine .bind (orderly_statements hg _ n hs) fun body s hs => .current_bind ?_
  -- A block without an end is reported at the current token, behind which nothing was reported.
  split
  next => exact .report_settled hs fun s hs => .pure hs.pending
  next => exact .pure hs.pending

/-- A condition in parentheses blames in order. -/
theorem orderly_condition (hg : g.Orderly P) (hs : s.Pending P) :
    g.condition.Ensures s fun _ => Pending P := by
  simp only [Grammar.condition, call_bind, liftM_eq]
  refine .demand_settled hs (fun _ hs => hs) fun s hs => .advance_settled hs.pending fun s hs => ?_
  refine .bind (hg.expression .lowest hs) fun c s hs =>
    .demand_settled hs (fun _ hs => hs) fun s hs => ?_
  exact .demand_settled hs.pending (fun _ hs => hs) fun s hs => .pure hs.pending

/-- Further conditions with their blocks blame in order. -/
theorem orderly_elifs (hg : g.Orderly P) (depth bound : Nat) (hs : s.Pending P) :
    (g.elifs depth bound).Ensures s fun _ => Pending P := by
  induction bound generalizing s with
  | zero => exact .exhausted
  | succ bound ih =>
    simp only [Grammar.elifs, tokensAhead_bind, goOn_bind, liftM_eq]
    refine .next_bind ?_
    split
    next =>
      refine .advance_settled hs fun s hs =>
        .bind (orderly_condition hg hs.pending) fun c s hs => ?_
      split
      next => exact .pure hs
      next =>
        refine .bind (orderly_block hg depth hs) fun b s hs => ?_
        exact .bind (ih hs) fun others s hs => .pure hs
    next => exact .pure hs

/-- A conditional blames in order. -/
theorem orderly_conditional (hg : g.Orderly P) (n pos : Nat) (hs : s.Pending P) :
    (g.conditional n pos).Ensures s fun _ => Pending P := by
  simp only [Grammar.conditional, call_bind, liftM_eq]
  refine .bind (orderly_condition hg hs) fun c s hs => ?_
  split
  next => exact .pure hs
  next =>
    refine .bind (orderly_block hg n hs) fun consequence s hs => ?_
    refine .bind (orderly_elifs hg n n hs) fun others s hs => ?_
    split
    next =>
      refine .next_bind ?_
      split
      next =>
        refine .advance_settled hs fun s hs =>
          .demand_settled hs.pending (fun _ hs => hs) fun s hs => ?_
        exact .bind (orderly_block hg n hs.pending) fun alternative s hs => .pure hs
      next => exact .pure hs
    next => exact .pure hs

/-- A loop from the semicolon behind its counter on. -/
theorem orderly_turns (hg : g.Orderly P) (n pos letPos : Nat) (counter : Name) (start : Expr)
    (hs : s.Pending P) :
    Parse.Ensures (do
      advance
      let c ← g.expression .lowest
      if !(← expect .semicolon) then return Expr.missing
      advance
      let some step ← g.statement | return Expr.missing
      if !(← expect .rparen) then return Expr.missing
      if !(← expect .lbrace) then return Expr.missing
      let body ← g.block n
      return Expr.loop pos letPos counter start c step body) s fun _ => Pending P := by
  refine .advance_settled hs fun s hs => .bind (hg.expression .lowest hs) fun c s hs => ?_
  refine .demand_settled hs (fun _ hs => hs) fun s hs => .advance_settled hs.pending fun s hs => ?_
  refine .bind (hg.statement hs) fun step s hs => ?_
  split
  next =>
    refine .demand_settled hs (fun _ hs => hs) fun s hs => ?_
    refine .demand_settled hs.pending (fun _ hs => hs) fun s hs => ?_
    exact .bind (orderly_block hg n hs.pending) fun body s hs => .pure hs
  next => exact .pure hs

/-- A loop blames in order. -/
theorem orderly_loop (hg : g.Orderly P) (n pos : Nat) (hs : s.Pending P) :
    (g.loop n pos).Ensures s fun _ => Pending P := by
  simp only [Grammar.loop, call_bind, liftM_eq]
  refine .demand_settled hs (fun _ hs => hs) fun s hs => .advance_settled hs.pending fun s hs =>
    .current_bind ?_
  split
  next => exact .report_settled hs fun s hs => .pure hs.pending
  next =>
    refine .bind (orderly_binding hg hs.pending) fun b s hs => ?_
    split
    next =>
      refine .current_bind ?_
      split
      next =>
        exact .demand_settled hs (fun _ hs => hs) fun s hs => orderly_turns hg n _ _ _ _ hs.pending
      next => exact orderly_turns hg n _ _ _ _ hs
    next => exact .pure hs

/-- Further parameters blame in order. -/
theorem orderly_moreParameters (bound : Nat) (hs : s.Pending P) :
    (Grammar.moreParameters (m := Parse) bound).Ensures s fun _ => Pending P := by
  induction bound generalizing s with
  | zero => exact .exhausted
  | succ bound ih =>
    simp only [Grammar.moreParameters, tokensAhead_bind, goOn_bind, liftM_eq]
    refine .next_bind ?_
    split
    next =>
      refine .advance_settled hs fun s hs =>
        .demand_settled hs.pending (fun _ hs => hs) fun s hs => ?_
      exact .current_bind (.bind (ih hs.pending) fun names s hs => .pure hs)
    next => exact .demand_last_settled hs fun s hs => ⟨hs, hs⟩

/-- The parameters of a function blame in order. -/
theorem orderly_parameters (n : Nat) (hs : s.Pending P) :
    (Grammar.parameters (m := Parse) n).Ensures s fun _ => Pending P := by
  simp only [Grammar.parameters, call_bind, liftM_eq]
  refine .next_bind ?_
  split
  next => exact .advance_settled hs fun s hs => .pure hs.pending
  next =>
    refine .demand_settled hs (fun _ hs => hs) fun s hs => .current_bind ?_
    exact .bind (orderly_moreParameters n hs.pending) fun names s hs => .pure hs

/-- A function blames in order. -/
theorem orderly_function (hg : g.Orderly P) (n pos : Nat) (hs : s.Pending P) :
    (g.function n pos).Ensures s fun _ => Pending P := by
  simp only [Grammar.function, call_bind, liftM_eq]
  refine .demand_settled hs (fun _ hs => hs) fun s hs => ?_
  refine .bind (orderly_parameters n hs.pending) fun names s hs => ?_
  split
  next =>
    refine .demand_settled hs (fun _ hs => hs) fun s hs => ?_
    exact .bind (orderly_block hg n hs.pending) fun body s hs => .pure hs
  next => exact .pure hs

/-- Further expressions behind commas blame in order. -/
theorem orderly_moreExpressions (hg : g.Orderly P) (bound : Nat) (hs : s.Pending P) :
    (g.moreExpressions bound).Ensures s fun _ => Pending P := by
  induction bound generalizing s with
  | zero => exact .exhausted
  | succ bound ih =>
    simp only [Grammar.moreExpressions, tokensAhead_bind, goOn_bind, liftM_eq]
    refine .next_bind ?_
    split
    next =>
      refine .advance_settled hs fun s hs => .advance_settled hs.pending fun s hs => ?_
      refine .bind (hg.expression .lowest hs) fun e s hs => ?_
      exact .bind (ih hs) fun es s hs => .pure hs
    next => exact .pure hs

/-- Expressions up to a closing token blame in order. -/
theorem orderly_expressions (hg : g.Orderly P) (n : Nat) (close : TokenKind) (hs : s.Pending P) :
    (g.expressions n close).Ensures s fun _ => Pending P := by
  simp only [Grammar.expressions, call_bind, liftM_eq]
  refine .next_bind ?_
  split
  next => exact .advance_settled hs fun s hs => .pure hs.pending
  next =>
    refine .advance_settled hs fun s hs => .bind (hg.expression .lowest hs) fun e s hs => ?_
    refine .bind (orderly_moreExpressions hg n hs) fun es s hs => ?_
    exact .demand_last_settled hs fun s hs => ⟨hs, hs⟩

/-- The pairs of a hash blame in order. -/
theorem orderly_pairs (hg : g.Orderly P) (bound : Nat) (hs : s.Pending P) :
    (g.pairs bound).Ensures s fun _ => Pending P := by
  induction bound generalizing s with
  | zero => exact .exhausted
  | succ bound ih =>
    simp only [Grammar.pairs, tokensAhead_bind, goOn_bind, liftM_eq]
    refine .next_bind ?_
    split
    next => exact .advance_settled hs fun s hs => .pure hs.pending
    next =>
      refine .advance_settled hs fun s hs => .bind (hg.expression .lowest hs) fun key s hs => ?_
      refine .demand_settled hs (fun _ hs => hs) fun s hs =>
        .advance_settled hs.pending fun s hs => ?_
      refine .bind (hg.expression .lowest hs) fun value s hs => .next_bind ?_
      split
      next =>
        refine .demand_settled hs (fun _ hs => hs) fun s hs => ?_
        exact .bind (ih hs.pending) fun pairs s hs => .pure hs
      next => exact .bind (ih hs) fun pairs s hs => .pure hs

/-- A number that is out of range is a fault at the number itself. -/
theorem orderly_integer (hs : s.Settled P) :
    (Grammar.integer s.current).Ensures s fun _ => Pending P := by
  rw [Grammar.integer]
  split
  next => exact .pure hs.pending
  next => exact .report_settled hs fun s hs => .pure hs.pending

/-- A number of 32 bits that is too large is blamed at its own token. -/
theorem orderly_float (hs : s.Settled P) :
    (Grammar.float s.current).Ensures s fun _ => Pending P := by
  rw [Grammar.float]
  split
  next =>
    split
    next => exact .pure hs.pending
    next => exact .report_settled hs fun s hs => .pure hs.pending
  next => exact .report_settled hs fun s hs => .pure hs.pending

/-- A number of 64 bits that is too large is blamed at its own token. -/
theorem orderly_double (hs : s.Settled P) :
    (Grammar.double s.current).Ensures s fun _ => Pending P := by
  rw [Grammar.double]
  split
  next =>
    split
    next => exact .pure hs.pending
    next => exact .report_settled hs fun s hs => .pure hs.pending
  next => exact .report_settled hs fun s hs => .pure hs.pending

/-- Where no operand starts with the current token, nothing is read at all. -/
theorem orderly_operand (hg : g.Orderly P) (n : Nat) (hs : s.Settled P) :
    (g.operand n s.current).Ensures s fun o s' => s'.Pending P ∧ (o = none → s' = s) := by
  -- All readers of operands but the last case give an operand, so the second half says nothing of
  -- them.
  have hread {m : Parse Expr} (h : m.Ensures s fun _ => Pending P) :
      (some <$> m).Ensures s fun o s' => s'.Pending P ∧ (o = none → s' = s) :=
    .map (h.imp fun e s' hs' => ⟨hs', by simp⟩)
  have hprefixed (op : PrefixOp) (pos : Nat) : Parse.Ensures (do
      advance
      return some (Expr.prefixed pos op (← g.expression .prefixed))) s
      fun o s' => s'.Pending P ∧ (o = none → s' = s) := by
    refine .advance_settled hs.pending fun s₁ hs₁ => ?_
    exact .bind (hg.expression .prefixed hs₁) fun e s₂ hs₂ => .pure ⟨hs₂, by simp⟩
  simp only [Grammar.operand, call_bind, liftM_eq]
  split
  next => exact .pure ⟨hs.pending, by simp⟩
  next => exact hread (orderly_integer hs)
  next => exact hread (orderly_float hs)
  next => exact hread (orderly_double hs)
  next => exact .pure ⟨hs.pending, by simp⟩
  next => exact .pure ⟨hs.pending, by simp⟩
  next => exact .pure ⟨hs.pending, by simp⟩
  next => exact hprefixed .not _
  next => exact hprefixed .negate _
  next =>
    refine .advance_settled hs.pending fun s₁ hs₁ =>
      .bind (hg.expression .lowest hs₁) fun e s₂ hs₂ => ?_
    exact .demand_last_settled hs₂ fun s₃ hs₃ => ⟨⟨hs₃, by simp⟩, hs₃, by simp⟩
  next => exact hread (orderly_conditional hg n _ hs.pending)
  next => exact hread (orderly_loop hg n _ hs.pending)
  next => exact hread (orderly_function hg n _ hs.pending)
  next =>
    exact .bind (orderly_expressions hg n .rbracket hs.pending) fun es s₁ hs₁ =>
      .pure ⟨hs₁, by simp⟩
  next =>
    refine .bind (orderly_pairs hg n hs.pending) fun o s₁ hs₁ => ?_
    split <;> exact .pure ⟨hs₁, by simp⟩
  -- No operand starts here: the state is the old one, and the caller blames the current token.
  next => exact .pure ⟨hs.pending, fun _ => rfl⟩

/-- The extension of an expression by an operator blames in order. -/
theorem orderly_extend (hg : g.Orderly P) (n : Nat) (t : Token) (left : Expr) (hs : s.Pending P) :
    (g.extend n t left).Ensures s fun _ => Pending P := by
  simp only [Grammar.extend, call_bind, liftM_eq]
  split
  next op _ =>
    refine .advance_settled hs fun s hs => ?_
    exact .bind (hg.expression op.strength hs) fun right s hs => .pure hs
  next =>
    split
    next => exact .bind (orderly_expressions hg n .rparen hs) fun es s hs => .pure hs
    next =>
      refine .advance_settled hs fun s hs => .bind (hg.expression .lowest hs) fun key s hs => ?_
      exact .demand_last_settled hs fun s hs => ⟨hs, hs⟩

/-- The operators behind an operand blame in order. -/
theorem orderly_operators (hg : g.Orderly P) (depth : Nat) (p : Strength)
    (bound : Nat) (left : Expr) (hs : s.Pending P) :
    (g.operators depth p bound left).Ensures s fun _ => Pending P := by
  induction bound generalizing s left with
  | zero => exact .exhausted
  | succ bound ih =>
    simp only [Grammar.operators, tokensAhead_bind, goOn_bind, liftM_eq]
    refine .next_bind ?_
    split
    next =>
      refine .advance_settled hs fun s hs => ?_
      exact .bind (orderly_extend hg depth _ left hs.pending) fun longer s hs => ih longer hs
    next => exact .pure hs

/-- An expression with a bound one higher blames in order. -/
theorem orderly_expressionStep (hg : g.Orderly P) (n : Nat) (p : Strength) (hs : s.Settled P) :
    (g.expressionStep n p).Ensures s fun _ => Pending P := by
  simp only [Grammar.expressionStep, call_bind, liftM_eq]
  refine .current_bind (.bind (orderly_operand hg n hs) ?_)
  rintro o s₁ ⟨hs₁, hsame⟩
  split
  next left => exact orderly_operators hg n p n left hs₁
  next =>
    -- No token was read, so the fault at the current one is still in order.
    obtain rfl := hsame rfl
    exact .report_settled hs fun s hs => .pure hs.pending

/-- A statement with a bound one higher blames in order. -/
theorem orderly_statementStep (hg : g.Orderly P) (hs : s.Settled P) :
    g.statementStep.Ensures s fun _ => Pending P := by
  simp only [Grammar.statementStep, call_bind, liftM_eq]
  refine .current_bind ?_
  split
  next => exact .bind (orderly_binding hg hs.pending) fun o s hs => .pure hs
  next =>
    refine .advance_settled hs.pending fun s hs =>
      .bind (hg.expression .lowest hs) fun value s hs => ?_
    exact .skipSemicolon_pending hs fun s hs => .pure hs
  next => exact .skipSemicolon_pending hs.pending fun s hs => .pure hs
  next =>
    refine .bind (hg.expression .lowest hs) fun value s hs => ?_
    exact .skipSemicolon_pending hs fun s hs => .pure hs

/-- The readers of every bound keep the faults in order. -/
theorem orderly_grammar (P : Nat → Prop) (n : Nat) : (grammar n).Orderly P := by
  induction n with
  | zero => exact ⟨fun _ _ _ => .exhausted, fun _ => .exhausted⟩
  | succ n ih =>
    exact ⟨fun p _ hs => orderly_expressionStep ih n p hs, fun hs => orderly_statementStep ih hs⟩

/-! ## Sources -/

/-- The faults of a source are found in the order of their offsets, each at a cut of the source. -/
theorem diagnostics_orderly (src : Bytes) :
    (parse src).diagnostics.Pairwise (·.offset ≤ ·.offset) ∧
      ∀ d ∈ (parse src).diagnostics, CutAt src d.offset := by
  obtain ⟨t, rest, ss, s', htokens, -, hrun, hparse⟩ := exists_parse src
  have hascending := tokens_ascending src
  have hcuts : ∀ t ∈ tokens src, CutAt src t.pos := fun t ht => tokens_cutAt ht
  rw [htokens] at hascending hcuts
  -- At the start no fault is found yet.
  have hstart : Settled (CutAt src) ⟨t, rest, []⟩ := ⟨hascending, hcuts, .nil, by simp⟩
  have hend := orderly_statements (orderly_grammar _ _) _ _ hstart ss s' hrun
  -- The parser keeps its faults with the latest first, and reports them the other way round.
  rw [hparse]
  refine ⟨List.pairwise_reverse.mpr hend.sorted, fun d hd => (hend.faults d ?_).1⟩
  exact List.mem_reverse.mp hd

/-- Every diagnostic is on a line of its source, in a column of that line or right behind its end,
and an excerpt can be shown there. The places of the diagnostics never go back. -/
theorem diagnostics_in_order (src : Bytes) :
    (∀ d ∈ (parse src).diagnostics, (d.place src).Within src ∧ (d.place src).excerpt src ≠ []) ∧
      ((parse src).diagnostics.map (Diagnostic.place src)).Pairwise (· ≤ ·) := by
  obtain ⟨hsorted, hcuts⟩ := diagnostics_orderly src
  refine ⟨fun d hd => ?_, ?_⟩
  · have hwithin := (hcuts d hd).place_within
    exact ⟨hwithin, hwithin.excerpt_ne_nil⟩
  · rw [List.pairwise_map]
    exact hsorted.imp_of_mem fun hd he hle => (hcuts _ hd).place_le (hcuts _ he) hle

/-- A source with faults at tokens, behind a character of two bytes, and at its end. -/
def malformed : Bytes := text "let \"é\" = 5;\n[1, \"é\" \x7d\nfor (x) \x7b"

/-- A text with seven faults, the last of them at its end. -/
theorem diagnostics_in_order_malformed :
    ⟨34, .noOperand .eof []⟩ ∈ (parse malformed).diagnostics ∧
      (parse malformed).diagnostics.length = 7 ∧
      (Diagnostic.place malformed ⟨34, .noOperand .eof []⟩).Within malformed ∧
      (Diagnostic.place malformed ⟨34, .noOperand .eof []⟩).excerpt malformed ≠ [] ∧
      ((parse malformed).diagnostics.map (Diagnostic.place malformed)).Pairwise (· ≤ ·) := by
  have hmem : ⟨34, .noOperand .eof []⟩ ∈ (parse malformed).diagnostics := by decide +kernel
  obtain ⟨hplaces, horder⟩ := diagnostics_in_order malformed
  exact ⟨hmem, by decide +kernel, (hplaces _ hmem).1, (hplaces _ hmem).2, horder⟩

end Rill
