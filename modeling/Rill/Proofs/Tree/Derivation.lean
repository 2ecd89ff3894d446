import Rill.Proofs.Token.Scanner
import Rill.Proofs.Tree.Grammar
import Rill.Proofs.Tree.Reading

/-!
# Sources that are read without a fault

Reading always ends within its bound, and a source in which it finds no fault is a token sequence of
the tree that it gives. Both follow from one statement about each reader: it moves on over the
tokens, and unless it meets a fault, the tokens that it takes are a sequence of the tree that it
builds.

* `Grammar.Reads`: that statement for the readers of expressions and statements, for all states that
  are close enough to the end of the source for a bound on nesting.
* `reads_grammar`: the readers of every bound satisfy it.
* `parse_yields`: a source without diagnostics is a token sequence of its program.
-/

namespace Rill

open ParserState Parse

/-! ## What the readers of expressions and statements do -/

/-- What was read is an expression of strength `p` that starts in state `s`: it does not end with a
semicolon or the end of the source, and the operator that comes next belongs to what is around
it. -/
def ExpressionRead (p : Strength) (s : ParserState) (e : Expr) (s' : ParserState)
    (ts : List Token) : Prop :=
  s'.current.kind ≠ .eof ∧ s'.current.kind ≠ .semicolon ∧
    ∃ edge, Grouped e.Bare p.rank edge (s.current :: ts) ∧
      s'.next.kind.strength.rank ≤ min p.rank edge

/-- What was read is a statement that starts in state `s`. -/
def StatementRead (s : ParserState) (o : Option Stmt) (s' : ParserState) (ts : List Token) : Prop :=
  s'.current.kind ≠ .eof ∧ ∃ st, o = some st ∧ st.Yields (s.current :: ts)

/-- The readers of a grammar, on states with few enough tokens ahead for the bound `n`. -/
structure Grammar.Reads (g : Grammar Parse) (n : Nat) : Prop where
  /-- The reader of expressions. -/
  expression (p : Strength) {s : ParserState} : s.Terminated → 2 * s.ahead.length + 2 ≤ n →
    (g.expression p).Reads s (ExpressionRead p s)
  /-- The reader of statements. -/
  statement {s : ParserState} : s.Terminated → 2 * s.ahead.length + 3 ≤ n →
    g.statement.Reads s (StatementRead s)

variable {g : Grammar Parse} {n : Nat} {s s' : ParserState} {ts : List Token} {e : Expr}

/-- A gap has no token sequence. -/
theorem not_grouped_missing {low edge : Nat} : ¬Grouped Expr.missing.Bare low edge ts := by
  intro h
  induction h with
  | bare h => simp [Expr.Bare] at h
  | group _ _ _ ih => exact ih

theorem not_isMissing_of_whole (h : Whole e.Bare ts) : ¬e.isMissing = true := by
  intro hmissing
  cases e <;> simp [Expr.isMissing] at hmissing
  exact not_grouped_missing h.choose_spec

theorem ExpressionRead.whole (h : ExpressionRead .lowest s e s' ts) :
    Whole e.Bare (s.current :: ts) :=
  ⟨h.2.2.choose, h.2.2.choose_spec.1⟩

/-! ## Statements -/

/-- What comes behind the `let` of a binding. -/
theorem reads_binding (hg : g.Reads n) (hs : s.Terminated) (hn : 2 * s.ahead.length ≤ n) :
    g.binding.Reads s fun o s' ts => ∃ name value eq inner semi, o = some (name, value) ∧
      ts = name.token :: eq :: inner ++ semi ∧ eq.kind = .assign ∧ Whole value.Bare inner ∧
      OptionalSemicolon semi ∧ s'.current.kind ≠ .eof ∧
      (semi = [] ∧ s'.next.kind ≠ .semicolon ∧ s'.current.kind ≠ .semicolon ∨
        semi = [s'.current]) := by
  simp only [Grammar.binding, call_bind, liftM_eq]
  refine .demand hs (by decide) fun t₁ s₁ hs₁ hname => .current_bind ?_
  refine .demand hs₁.terminated (by decide) fun t₂ s₂ hs₂ heq => ?_
  refine .advance_bind_of_ne hs₂.terminated (by simp [hs₂.current, heq]) fun t₃ s₃ hs₃ _ => ?_
  have h₁ := hs₁.length_eq
  have h₂ := hs₂.length_eq
  have h₃ := hs₃.length_eq
  refine .bind hs₃.terminated (hg.expression .lowest hs₃.terminated (by omega))
    fun value s₄ hs₄ _ => ?_
  have htoken : Name.token ⟨s₁.current.pos, s₁.current.literal⟩ = t₁ := by
    rw [hs₁.current, Name.token, ← hname]
  -- The value is read the same with and without its semicolon. Only the last token differs.
  refine .skipSemicolon_bind hs₄ (fun hnext => .pure fun inner hread => ?_)
    fun t₅ s₅ hs₅ hsemi => .pure fun inner hread => ?_
  · exact ⟨_, value, t₂, t₃ :: inner, [], rfl, by simp [htoken], heq, hs₃.current ▸ hread.whole,
      .inl rfl, hread.1, .inl ⟨rfl, hnext, hread.2.1⟩⟩
  · exact ⟨_, value, t₂, t₃ :: inner, [t₅], rfl, by simp [htoken], heq, hs₃.current ▸ hread.whole,
      .inr ⟨t₅, rfl, hsemi⟩, by simp [hs₅.current, hsemi], .inr (by rw [hs₅.current])⟩

/-- Statements up to a token at which `stop` holds, which becomes the current one. -/
theorem reads_statements (hg : g.Reads n) (stop : TokenKind → Bool) (hstop : stop .eof = true)
    (bound : Nat) (hs : s.Terminated) (hn : 2 * s.ahead.length + 3 ≤ n)
    (hbound : s.ahead.length < bound) :
    (g.statements stop bound).Reads s fun ss s' ts => stop s'.current.kind = true ∧
      ∃ inner, s.current :: ts = inner ++ [s'.current] ∧ statementsYield ss inner := by
  -- Every statement takes a token, so the bound lasts as long as there are tokens.
  induction bound generalizing s with
  | zero => exact absurd hbound (Nat.not_lt_zero _)
  | succ bound ih =>
    simp only [Grammar.statements, tokensAhead_bind, goOn_bind, liftM_eq]
    refine .current_bind ?_
    split
    next hhere => exact .pure ⟨hhere, [], rfl, rfl⟩
    next hhere =>
      have hcurrent : s.current.kind ≠ .eof := fun h => hhere (h ▸ hstop)
      have hlength := List.length_pos_iff.mpr (hs.ahead_ne_nil hcurrent)
      refine .bind hs (hg.statement hs hn) fun o s₁ hs₁ hle => ?_
      refine .advance_bind hs₁ (fun heof => ?_) fun t s₂ hs₂ _ => ?_
      · -- At the end there was a fault, and nothing but an end of the loop is left to show.
        have hnil := hs₁.ahead_eq_nil heof
        refine .bind hs₁ (ih hs₁ (by simp [hnil]; omega) (by simp [hnil]; omega))
          fun ss s₃ _ _ => .pure ?_
        intro _ _ _ hread
        exact absurd heof hread.1
      · have h₂ := hs₂.length_eq
        refine .bind hs₂.terminated (ih hs₂.terminated (by omega) (by omega))
          fun ss s₃ _ _ => .pure ?_
        rintro rest ⟨hhalt, inner, hinner, hrest⟩ first ⟨_, st, rfl, hfirst⟩
        refine ⟨hhalt, s.current :: first ++ inner, ?_, s.current :: first, inner, rfl,
          hfirst, hrest⟩
        rw [hs₂.current] at hinner
        simp [hinner]

/-- A block, if the current token is its opening brace. -/
theorem reads_block (hg : g.Reads n) (hs : s.Terminated) (hn : 2 * s.ahead.length + 3 ≤ n) :
    (g.block n).Reads s fun b s' ts => s.current.kind = .lbrace →
      s'.current.kind = .rbrace ∧ b.Yields (s.current :: ts) := by
  -- The brace is passed by unless the source ends here. What is read from then on is the same.
  have hbody : ∀ (s₁ : ParserState), s₁.Terminated → s₁.ahead.length ≤ s.ahead.length →
      Parse.Reads (do
        let body ← g.statements (fun k => k == .rbrace || k == .eof) n
        let t ← Parse.current
        if t.kind = .eof then report t.pos .openBlock
        return Block.mk s.current.pos body) s₁
        fun b s' ts => ∃ ss inner, b = .mk s.current.pos ss ∧
          s₁.current :: ts = inner ++ [s'.current] ∧
          s'.current.kind = .rbrace ∧ statementsYield ss inner := by
    intro s₁ hs₁ hle
    refine .bind hs₁ (reads_statements hg _ (by decide) n hs₁ (by omega) (by omega))
      fun ss s₂ hs₂ _ => .current_bind ?_
    split
    next => exact .report_pure
    next heof =>
      refine .pure ?_
      rintro rest ⟨hhalt, inner, hinner, hyields⟩
      exact ⟨ss, inner, rfl, by simpa using hinner, by simpa [heof] using hhalt, hyields⟩
  simp only [Grammar.block, call_bind, liftM_eq]
  refine .current_bind (.advance_bind hs (fun heof => ?_) fun t s₁ hs₁ _ => ?_)
  · exact (hbody s hs (Nat.le_refl _)).imp fun b s' ts _ hopen =>
      absurd (heof.symm.trans hopen) (by decide)
  · refine (hbody s₁ hs₁.terminated hs₁.moved.length_le).imp ?_
    rintro b s' ts ⟨ss, inner, rfl, hinner, hclose, hyields⟩ hopen
    refine ⟨hclose, s.current, inner, s'.current, ?_, ⟨hopen, rfl⟩, hclose, hyields⟩
    rw [hs₁.current] at hinner
    simp [hinner]

/-! ## Conditionals and loops -/

/-- A condition in parentheses and the opening brace of its block. Unless it is missing, at least
one token is taken. -/
theorem reads_condition (hg : g.Reads n) (hs : s.Terminated) (hn : 2 * s.ahead.length ≤ n) :
    (g.condition.Reads s fun c s' ts => s'.current.kind = .lbrace ∧ ∃ o inner close,
      ts = o :: inner ++ [close, s'.current] ∧ o.kind = .lparen ∧ close.kind = .rparen ∧
      Whole c.Bare inner) ∧
    ∀ c s', g.condition s = some (c, s') → c = .missing ∨ s'.ahead.length < s.ahead.length := by
  simp only [Grammar.condition, call_bind, liftM_eq]
  refine Reads.demand_lt hs (by decide) fun o s₁ hs₁ ho => ?_
  refine .advance_bind_of_ne hs₁.terminated (by simp [hs₁.current, ho]) fun t s₂ hs₂ _ => ?_
  have h₁ := hs₁.length_eq
  have h₂ := hs₂.length_eq
  refine .bind hs₂.terminated (hg.expression .lowest hs₂.terminated (by omega)) fun c s₃ hs₃ _ => ?_
  refine .demand hs₃ (by decide) fun close s₄ hs₄ hclose => ?_
  refine .demand hs₄.terminated (by decide) fun brace s₅ hs₅ hbrace => .pure fun inner hread => ?_
  exact ⟨by rw [hs₅.current, hbrace], o, t :: inner, close, by simp [hs₅.current], ho, hclose,
    hs₂.current ▸ hread.whole⟩

/-- Further conditions with their blocks. -/
theorem reads_elifs (hg : g.Reads n) (bound : Nat) (hs : s.Terminated)
    (hn : 2 * s.ahead.length + 1 ≤ n) (hbound : s.ahead.length < bound) :
    (g.elifs n bound).Reads s fun o s' ts =>
      (s.current.kind = .rbrace → s'.current.kind = .rbrace) ∧
      ∃ elifs, o = some elifs ∧ elifsYield elifs ts := by
  induction bound generalizing s with
  | zero => exact absurd hbound (Nat.not_lt_zero _)
  | succ bound ih =>
    simp only [Grammar.elifs, tokensAhead_bind, goOn_bind, liftM_eq]
    refine .next_bind ?_
    split
    next helif =>
      refine .advance_bind_of_next hs (by simp [helif]) fun head s₁ hs₁ hnext => ?_
      have h₁ := hs₁.length_eq
      refine .bind hs₁.terminated (reads_condition hg hs₁.terminated (by omega)).1
        fun c s₂ hs₂ h₂ => ?_
      split
      next hmissing =>
        refine .pure ?_
        -- A condition that was read is not missing, so this branch is not taken.
        rintro _ ⟨_, _, _, _, _, _, _, hwhole⟩
        exact absurd hmissing (not_isMissing_of_whole hwhole)
      next =>
        refine .bind hs₂ (reads_block hg hs₂ (by omega)) fun b s₃ hs₃ h₃ => ?_
        refine .bind hs₃ (ih hs₃ (by omega) (by omega)) fun others s₄ _ _ => .pure ?_
        rintro rest ⟨hkeep, elifs, rfl, hrest⟩ body hbody test ⟨hbrace, o, inner, close, rfl, ho,
          hclose, hwhole⟩
        -- The block ends with its brace, where the next round of the loop stands.
        obtain ⟨hend, hblock⟩ := hbody hbrace
        refine ⟨fun _ => hkeep hend, (c, b) :: elifs, rfl, head, o, inner, close,
          s₂.current :: body,
          rest, by simp, by rw [← hnext, helif], ho, hclose, hwhole, hblock, hrest⟩
    next => exact .pure ⟨id, [], rfl, rfl⟩

/-- An operand that starts with the current token, and behind which any operator can follow. -/
def OperandRead (s : ParserState) (e : Expr) (s' : ParserState) (ts : List Token) : Prop :=
  s'.current.kind ≠ .eof ∧ s'.current.kind ≠ .semicolon ∧
    ∃ edge, (∀ low, Grouped e.Bare low edge (s.current :: ts)) ∧ s'.next.kind.strength.rank ≤ edge

/-- Every operator can follow a closed edge. -/
theorem rank_strength_le_closedEdge (kind : TokenKind) : kind.strength.rank ≤ closedEdge := by
  cases kind <;> decide

/-- An operand with a closed edge. -/
theorem OperandRead.of_closed (hend : s'.current.kind ≠ .eof) (hsemi : s'.current.kind ≠ .semicolon)
    (h : ∀ low, e.Bare low closedEdge (s.current :: ts)) : OperandRead s e s' ts :=
  ⟨hend, hsemi, closedEdge, fun low => .bare (h low), rank_strength_le_closedEdge _⟩

/-- A conditional from its `if` on. -/
theorem reads_conditional (hg : g.Reads n) (hs : s.Terminated) (hcurrent : s.current.kind = .if_)
    (hn : 2 * s.ahead.length + 1 ≤ n) :
    (g.conditional n s.current.pos).Reads s (OperandRead s) := by
  simp only [Grammar.conditional, call_bind, liftM_eq]
  obtain ⟨hcondition, hlt⟩ := reads_condition hg hs (by omega)
  refine .bind_of_run hs hcondition fun c s₁ hrun hs₁ h₁ => ?_
  split
  next hmissing =>
    -- A missing condition spells nothing, so it came with a fault.
    refine .pure ?_
    rintro _ ⟨_, _, _, _, _, _, _, hwhole⟩
    exact absurd hmissing (not_isMissing_of_whole hwhole)
  next hmissing =>
    have hless : s₁.ahead.length < s.ahead.length := by
      refine (hlt c s₁ hrun).resolve_left fun h => ?_
      simp [h, Expr.isMissing] at hmissing
    refine .bind hs₁ (reads_block hg hs₁ (by omega)) fun b s₂ hs₂ h₂ => ?_
    refine .bind hs₂ (reads_elifs hg n hs₂ (by omega) (by omega)) fun o s₃ hs₃ h₃ => ?_
    split
    next others =>
      refine .next_bind ?_
      split
      next helse =>
        refine .advance_bind_of_next hs₃ (by simp [helse]) fun head s₄ hs₄ hhead => ?_
        have h₄ := hs₄.length_eq
        refine .demand hs₄.terminated (by decide) fun brace s₅ hs₅ hbrace => ?_
        have h₅ := hs₅.length_eq
        refine .bind hs₅.terminated (reads_block hg hs₅.terminated (by omega))
          fun alternative s₆ _ _ => .pure ?_
        rintro last hlast rest ⟨-, elifs, hsome, hrest⟩ body hbody _
          ⟨hopen, o, inner, close, rfl, ho, hclose, hwhole⟩
        cases hsome
        obtain ⟨-, hblock⟩ := hbody hopen
        obtain ⟨hend, hlast⟩ := hlast (hs₅.current ▸ hbrace)
        rw [hs₅.current] at hlast
        refine .of_closed (by simp [hend]) (by simp [hend]) fun low =>
          ⟨rfl, s.current, o, inner, close, s₁.current :: body, rest, head :: brace :: last,
            by simp, ⟨hcurrent, rfl⟩, ho, hclose, hwhole,
          hblock, hrest, head, brace :: last, rfl, by rw [← hhead, helse], hlast⟩
      next =>
        refine .pure ?_
        rintro rest ⟨hkeep, elifs, hsome, hrest⟩ body hbody _ ⟨hopen, o, inner, close, rfl, ho,
          hclose, hwhole⟩
        cases hsome
        obtain ⟨hend, hblock⟩ := hbody hopen
        have hend := hkeep hend
        refine .of_closed (by simp [hend]) (by simp [hend]) fun low =>
          ⟨rfl, s.current, o, inner, close, s₁.current :: body, rest, [],
            by simp, ⟨hcurrent, rfl⟩, ho, hclose, hwhole, hblock, hrest, rfl⟩
    next hnone =>
      refine .pure ?_
      rintro rest ⟨-, elifs, rfl, -⟩
      exact absurd rfl (hnone elifs)

/-- A loop from the semicolon behind its counter on. -/
theorem reads_turns (hg : g.Reads n) (hs : s.Terminated) (hcurrent : s.current.kind = .semicolon)
    (hn : 2 * s.ahead.length + 5 ≤ n) (pos letPos : Nat) (counter : Name) (start : Expr) :
    Parse.Reads (do
      advance
      let c ← g.expression .lowest
      if !(← expect .semicolon) then return Expr.missing
      advance
      let some step ← g.statement | return Expr.missing
      if !(← expect .rparen) then return Expr.missing
      if !(← expect .lbrace) then return Expr.missing
      let body ← g.block n
      return Expr.loop pos letPos counter start c step body) s
      fun e s' ts => s'.current.kind = .rbrace ∧ ∃ c step body test semi turn close block,
        e = .loop pos letPos counter start c step body ∧
          ts = test ++ semi :: turn ++ close :: block ∧
        Whole c.Bare test ∧ semi.kind = .semicolon ∧ step.Yields turn ∧ close.kind = .rparen ∧
        body.Yields block := by
  refine .advance_bind_of_ne hs (by simp [hcurrent]) fun t₁ s₁ hs₁ _ => ?_
  have h₁ := hs₁.length_eq
  refine .bind hs₁.terminated (hg.expression .lowest hs₁.terminated (by omega))
    fun c s₂ hs₂ h₂ => ?_
  refine .demand hs₂ (by decide) fun semi s₃ hs₃ hsemi => ?_
  refine .advance_bind_of_ne hs₃.terminated (by simp [hs₃.current, hsemi]) fun t₂ s₄ hs₄ _ => ?_
  have h₃ := hs₃.length_eq
  have h₄ := hs₄.length_eq
  refine .bind hs₄.terminated (hg.statement hs₄.terminated (by omega)) fun o s₅ hs₅ h₅ => ?_
  split
  next step =>
    refine .demand hs₅ (by decide) fun close s₆ hs₆ hclose => ?_
    refine .demand hs₆.terminated (by decide) fun brace s₇ hs₇ hbrace => ?_
    have h₆ := hs₆.length_eq
    have h₇ := hs₇.length_eq
    refine .bind hs₇.terminated (reads_block hg hs₇.terminated (by omega))
      fun body s₈ _ _ => .pure ?_
    rintro block hblock turn ⟨-, step, hstep, hturn⟩ test htest
    cases hstep
    obtain ⟨hend, hblock⟩ := hblock (hs₇.current ▸ hbrace)
    rw [hs₇.current] at hblock
    rw [hs₄.current] at hturn
    exact ⟨hend, c, step, body, t₁ :: test, semi, t₂ :: turn, close, brace :: block, rfl, by simp,
      hs₁.current ▸ htest.whole, hsemi, hturn, hclose, hblock⟩
  next hnone =>
    refine .pure ?_
    -- Without a statement there was a fault.
    rintro turn ⟨-, step, rfl, -⟩
    exact absurd rfl (hnone step)

/-- A loop from its `for` on. -/
theorem reads_loop (hg : g.Reads n) (hs : s.Terminated) (hcurrent : s.current.kind = .for_)
    (hn : 2 * s.ahead.length + 1 ≤ n) : (g.loop n s.current.pos).Reads s (OperandRead s) := by
  simp only [Grammar.loop, call_bind, liftM_eq]
  refine .demand hs (by decide) fun o s₁ hs₁ ho => ?_
  refine .advance_bind_of_ne hs₁.terminated (by simp [hs₁.current, ho]) fun lt s₂ hs₂ _ =>
    .current_bind ?_
  have h₁ := hs₁.length_eq
  have h₂ := hs₂.length_eq
  split
  next => exact .report_pure
  next hlet =>
    refine .bind hs₂.terminated (reads_binding hg hs₂.terminated (by omega)) fun b s₃ hs₃ h₃ => ?_
    split
    next name value =>
      refine .current_bind ?_
      split
      next hsemi =>
        -- A binding that does not end with its semicolon has none behind it.
        refine .demand hs₃ (by decide) fun semi s₄ hs₄ hkind => ?_
        have h₄ := hs₄.length_eq
        refine (reads_turns hg hs₄.terminated (hs₄.current ▸ hkind) (by omega) ..).imp ?_
        rintro e s' ts - _ ⟨_, _, _, _, _, _, _, _, _, hoptional, _, ⟨rfl, hnext, -⟩ | rfl⟩
        · exact absurd hkind (by simpa [ParserState.next, hs₄.ahead] using hnext)
        · rcases hoptional with h | ⟨t, ht, hkind⟩
          · cases h
          · cases ht
            simp [hkind] at hsemi
      next hsemi =>
        have hsemi : s₃.current.kind = .semicolon := by simpa using hsemi
        refine (reads_turns hg hs₃ hsemi (by omega) ..).imp ?_
        rintro e s' ts ⟨hend, c, step, body, test, semi, turn, close, block, rfl, rfl, hc, hkind,
          hstep, hclose,
          hbody⟩ _ ⟨_, _, eq, first, _, hsome, rfl, heq, hstart, -, -, ⟨-, -, hne⟩ | rfl⟩
        · exact absurd hsemi hne
        · cases hsome
          have hlet : lt.kind = .let_ := by simpa [hs₂.current] using hlet
          refine .of_closed (by simp [hend]) (by simp [hend]) fun low =>
            ⟨rfl, s.current, o, lt, eq, first, s₃.current, test, semi, turn, close, block,
              by simp, ⟨hcurrent, rfl⟩, ho, ⟨hlet, ?_⟩, heq,
            hstart, hsemi, hc, hkind, hstep, hclose, hbody⟩
          rw [hs₂.current]
    next hnone =>
      refine .pure ?_
      rintro rest ⟨name, value, _, _, _, rfl, _⟩
      exact absurd rfl (hnone name value)

/-! ## Functions and collections -/

/-- Further parameters and the closing parenthesis. -/
theorem reads_moreParameters (bound : Nat) (hs : s.Terminated) (hbound : s.ahead.length < bound) :
    (Grammar.moreParameters (m := Parse) bound).Reads s fun o s' ts => s'.current.kind = .rparen ∧
      ∃ names inner, o = some names ∧ ts = inner ++ [s'.current] ∧
        parametersYield.moreParametersYield names inner := by
  induction bound generalizing s with
  | zero => exact absurd hbound (Nat.not_lt_zero _)
  | succ bound ih =>
    simp only [Grammar.moreParameters, tokensAhead_bind, goOn_bind, liftM_eq]
    refine .next_bind ?_
    split
    next hcomma =>
      refine .advance_bind_of_next hs (by simp [hcomma]) fun comma s₁ hs₁ hnext => ?_
      refine .demand hs₁.terminated (by decide) fun t s₂ hs₂ hname => .current_bind ?_
      have h₁ := hs₁.length_eq
      have h₂ := hs₂.length_eq
      refine .bind hs₂.terminated (ih hs₂.terminated (by omega)) fun o s₃ _ _ => .pure ?_
      rintro _ ⟨hend, names, inner, rfl, rfl, hnames⟩
      -- A parameter keeps offset and literal of its token, which make the token again.
      have htoken : Name.token ⟨s₂.current.pos, s₂.current.literal⟩ = t := by
        rw [hs₂.current, Name.token, ← hname]
      exact ⟨hend, _ :: names, comma :: t :: inner, rfl, by simp, comma, inner, by rw [htoken],
        by rw [← hnext, hcomma], hnames⟩
    next =>
      refine .demand_last hs (by decide) fun t s₁ hs₁ ht => ?_
      exact ⟨hs₁.current ▸ ht, [], [], rfl, by simp [hs₁.current], rfl⟩

/-- The parameters of a function and the closing parenthesis. -/
theorem reads_parameters (hs : s.Terminated) (hn : s.ahead.length ≤ n) :
    (Grammar.parameters (m := Parse) n).Reads s fun o s' ts => s'.current.kind = .rparen ∧
      ∃ names inner, o = some names ∧ ts = inner ++ [s'.current] ∧ parametersYield names inner := by
  simp only [Grammar.parameters, call_bind, liftM_eq]
  refine .next_bind ?_
  split
  next hclose =>
    refine .advance_bind_of_next hs (by simp [hclose]) fun t s₁ hs₁ hnext => .pure ?_
    exact ⟨by rw [hs₁.current, ← hnext, hclose], [], [], rfl, by simp [hs₁.current], rfl⟩
  next =>
    refine .demand hs (by decide) fun t s₁ hs₁ hname => .current_bind ?_
    have h₁ := hs₁.length_eq
    refine .bind hs₁.terminated (reads_moreParameters n hs₁.terminated (by omega))
      fun o s₂ _ _ => .pure ?_
    rintro _ ⟨hend, names, inner, rfl, rfl, hnames⟩
    have htoken : Name.token ⟨s₁.current.pos, s₁.current.literal⟩ = t := by
      rw [hs₁.current, Name.token, ← hname]
    exact ⟨hend, _ :: names, t :: inner, rfl, by simp, inner, by rw [htoken], hnames⟩

/-- A function from its `fn` on. -/
theorem reads_function (hg : g.Reads n) (hs : s.Terminated) (hcurrent : s.current.kind = .function)
    (hn : 2 * s.ahead.length + 1 ≤ n) : (g.function n s.current.pos).Reads s (OperandRead s) := by
  simp only [Grammar.function, call_bind, liftM_eq]
  refine .demand hs (by decide) fun o s₁ hs₁ ho => ?_
  have h₁ := hs₁.length_eq
  refine .bind hs₁.terminated (reads_parameters (n := n) hs₁.terminated (by omega))
    fun names s₂ hs₂ h₂ => ?_
  split
  next names =>
    refine .demand hs₂ (by decide) fun brace s₃ hs₃ hbrace => ?_
    have h₃ := hs₃.length_eq
    refine .bind hs₃.terminated (reads_block hg hs₃.terminated (by omega))
      fun body s₄ _ _ => .pure ?_
    rintro block hblock _ ⟨hclose, names, inner, hsome, rfl, hnames⟩
    cases hsome
    obtain ⟨hend, hblock⟩ := hblock (hs₃.current ▸ hbrace)
    rw [hs₃.current] at hblock
    refine .of_closed (by simp [hend]) (by simp [hend]) fun low =>
      ⟨rfl, s.current, o, inner, s₂.current,
      brace :: block, by simp, ⟨hcurrent, rfl⟩, ho, hclose, hnames, hblock⟩
  next hnone =>
    refine .pure ?_
    -- Parameters that were read are there, so this case does not arise.
    rintro _ ⟨-, names, _, rfl, -⟩
    exact absurd rfl (hnone names)

/-- Further expressions. -/
theorem reads_moreExpressions (hg : g.Reads n) (bound : Nat) (hs : s.Terminated)
    (hn : 2 * s.ahead.length ≤ n) (hbound : s.ahead.length < bound) :
    (g.moreExpressions bound).Reads s fun es _ ts => moreElementsYield es ts := by
  induction bound generalizing s with
  | zero => exact absurd hbound (Nat.not_lt_zero _)
  | succ bound ih =>
    simp only [Grammar.moreExpressions, tokensAhead_bind, goOn_bind, liftM_eq]
    refine .next_bind ?_
    split
    next hcomma =>
      refine .advance_bind_of_next hs (by simp [hcomma]) fun comma s₁ hs₁ hnext => ?_
      have hkind : comma.kind = .comma := by rw [← hnext, hcomma]
      refine .advance_bind_of_ne hs₁.terminated (by simp [hs₁.current, hkind]) fun t s₂ hs₂ _ => ?_
      have h₁ := hs₁.length_eq
      have h₂ := hs₂.length_eq
      refine .bind hs₂.terminated (hg.expression .lowest hs₂.terminated (by omega))
        fun e s₃ hs₃ h₃ => ?_
      refine .bind hs₃ (ih hs₃ (by omega) (by omega)) fun es s₄ _ _ => .pure ?_
      intro rest hrest first hfirst
      exact ⟨comma, t :: first, rest, by simp, hkind, hs₂.current ▸ hfirst.whole, hrest⟩
    next => exact .pure rfl

/-- Expressions and a closing token. -/
theorem reads_expressions (hg : g.Reads n) {close : TokenKind} (hclose : close ≠ .eof)
    (hs : s.Terminated) (hcurrent : s.current.kind ≠ .eof) (hn : 2 * s.ahead.length ≤ n) :
    (g.expressions n close).Reads s fun es s' ts => s'.current.kind = close ∧
      ∃ inner, ts = inner ++ [s'.current] ∧ elementsYield es inner := by
  simp only [Grammar.expressions, call_bind, liftM_eq]
  refine .next_bind ?_
  split
  next hnext =>
    refine .advance_bind_of_ne hs hcurrent fun t s₁ hs₁ ht => .pure ?_
    exact ⟨by rw [hs₁.current, ← ht, hnext], [], by simp [hs₁.current], rfl⟩
  next =>
    refine .advance_bind_of_ne hs hcurrent fun t s₁ hs₁ _ => ?_
    have h₁ := hs₁.length_eq
    refine .bind hs₁.terminated (hg.expression .lowest hs₁.terminated (by omega))
      fun e s₂ hs₂ h₂ => ?_
    refine .bind hs₂ (reads_moreExpressions hg n hs₂ (by omega) (by omega)) fun es s₃ hs₃ _ => ?_
    refine .demand_last hs₃ hclose fun c s₄ hs₄ hc rest hrest first hfirst => ?_
    exact ⟨hs₄.current ▸ hc, t :: first ++ rest, by simp [hs₄.current], t :: first, rest, rfl,
      hs₁.current ▸ hfirst.whole, hrest⟩

/-- The pairs of a hash and its closing brace. -/
theorem reads_pairs (hg : g.Reads n) (bound : Nat) (hs : s.Terminated)
    (hcurrent : s.current.kind ≠ .eof) (hn : 2 * s.ahead.length ≤ n)
    (hbound : s.ahead.length < bound) :
    (g.pairs bound).Reads s fun o s' ts => s'.current.kind = .rbrace ∧
      ∃ pairs inner, o = some pairs ∧ ts = inner ++ [s'.current] ∧ pairsYield pairs inner ∧
        (s.next.kind = .rbrace → inner = [] ∧ pairs = []) := by
  induction bound generalizing s with
  | zero => exact absurd hbound (Nat.not_lt_zero _)
  | succ bound ih =>
    simp only [Grammar.pairs, tokensAhead_bind, goOn_bind, liftM_eq]
    refine .next_bind ?_
    split
    next hclose =>
      refine .advance_bind_of_ne hs hcurrent fun t s₁ hs₁ hnext => .pure ?_
      exact ⟨by rw [hs₁.current, ← hnext, hclose], [], [], rfl, by simp [hs₁.current], rfl,
        fun _ => ⟨rfl, rfl⟩⟩
    next hopen =>
      refine .advance_bind_of_ne hs hcurrent fun t s₁ hs₁ _ => ?_
      have h₁ := hs₁.length_eq
      refine .bind hs₁.terminated (hg.expression .lowest hs₁.terminated (by omega))
        fun k s₂ hs₂ h₂ => ?_
      refine .demand hs₂ (by decide) fun colon s₃ hs₃ hcolon => ?_
      have h₃ := hs₃.length_eq
      refine .advance_bind_of_ne hs₃.terminated (by simp [hs₃.current, hcolon]) fun u s₄ hs₄ _ => ?_
      have h₄ := hs₄.length_eq
      refine .bind hs₄.terminated (hg.expression .lowest hs₄.terminated (by omega))
        fun v s₅ hs₅ h₅ => ?_
      refine .next_bind ?_
      split
      next hmore =>
        refine .demand hs₅ (by decide) fun comma s₆ hs₆ hcomma => ?_
        have h₆ := hs₆.length_eq
        refine .bind hs₆.terminated (ih hs₆.terminated (by simp [hs₆.current, hcomma])
          (by omega) (by omega)) fun o s₇ _ _ => .pure ?_
        rintro _ ⟨hend, pairs, inner, rfl, rfl, hpairs, -⟩ value hvalue key hkey
        refine ⟨hend, (k, v) :: pairs, t :: key ++ colon :: (u :: value) ++ comma ::
          inner, rfl, by simp, ?_, fun h => absurd h hopen⟩
        exact ⟨t :: key, colon, u :: value, comma :: inner, rfl, hcolon, hs₁.current ▸ hkey.whole,
          hs₄.current ▸ hvalue.whole, .inr ⟨comma, inner, rfl, hcomma, hpairs⟩⟩
      next hlast =>
        have hlast : s₅.next.kind = .rbrace := by simpa using hlast
        -- No comma comes before the closing brace, so the next round adds no pair.
        refine .bind hs₅ (ih hs₅ (hs₅.current_ne_eof (by simp [hlast])) (by omega) (by omega))
          fun o s₆ _ _ => .pure ?_
        rintro _ ⟨hend, pairs, inner, rfl, rfl, -, hnone⟩ value hvalue key hkey
        obtain ⟨rfl, rfl⟩ := hnone hlast
        refine ⟨hend, [(k, v)], t :: key ++ colon :: (u :: value), rfl, by simp, ?_,
          fun h => absurd h hopen⟩
        exact ⟨t :: key, colon, u :: value, [], by simp, hcolon, hs₁.current ▸ hkey.whole,
          hs₄.current ▸ hvalue.whole, .inl ⟨rfl, rfl⟩⟩

/-! ## Operands and operators -/

/-- A whole number. -/
theorem reads_integer (hcurrent : s.current.kind = .int) :
    (Grammar.integer s.current).Reads s (OperandRead s) := by
  rw [Grammar.integer]
  split
  next hfits =>
    refine .pure (.of_closed (by simp [hcurrent]) (by simp [hcurrent]) fun low =>
      ⟨rfl, ?_, hfits, rfl⟩)
    rw [← hcurrent]
  next => exact .report_pure

/-- A number of 32 bits. -/
theorem reads_float (hcurrent : s.current.kind = .float) :
    (Grammar.float s.current).Reads s (OperandRead s) := by
  rw [Grammar.float]
  split
  next value hvalue =>
    split
    next hfinite =>
      refine .pure (.of_closed (by simp [hcurrent]) (by simp [hcurrent]) fun low =>
        ⟨rfl, ?_, hfinite, hvalue⟩)
      rw [← hcurrent]
    next => exact .report_pure
  next => exact .report_pure

/-- A number of 64 bits. -/
theorem reads_double (hcurrent : s.current.kind = .double) :
    (Grammar.double s.current).Reads s (OperandRead s) := by
  rw [Grammar.double]
  split
  next value hvalue =>
    split
    next hfinite =>
      refine .pure (.of_closed (by simp [hcurrent]) (by simp [hcurrent]) fun low =>
        ⟨rfl, ?_, hfinite, hvalue⟩)
      rw [← hcurrent]
    next => exact .report_pure
  next => exact .report_pure

/-- A prefix operator and its operand. -/
theorem reads_prefixed (hg : g.Reads n) (hs : s.Terminated) (op : PrefixOp)
    (hcurrent : s.current.kind = op.kind) (hn : 2 * s.ahead.length + 1 ≤ n) :
    Parse.Reads (do
      advance
      return some (.prefixed s.current.pos op (← g.expression .prefixed))) s
      fun o s' ts => ∀ e, o = some e → OperandRead s e s' ts := by
  have heof : s.current.kind ≠ .eof := by rw [hcurrent]; cases op <;> decide
  refine .advance_bind_of_ne hs heof fun t s₁ hs₁ _ => ?_
  have h₁ := hs₁.length_eq
  refine .bind hs₁.terminated (hg.expression .prefixed hs₁.terminated (by omega))
    fun e s₂ _ _ => .pure ?_
  rintro inner ⟨hend, hsemi, right, hgrouped, hrank⟩ _ ⟨⟩
  rw [hs₁.current] at hgrouped
  exact ⟨hend, hsemi, _, fun low => .bare ⟨s.current, right, t :: inner, by simp, ⟨hcurrent, rfl⟩,
    hgrouped, rfl⟩, hrank⟩

/-- The operand that starts with the current token. -/
theorem reads_operand (hg : g.Reads n) (hs : s.Terminated) (hn : 2 * s.ahead.length + 1 ≤ n) :
    (g.operand n s.current).Reads s fun o s' ts => ∀ e, o = some e → OperandRead s e s' ts := by
  have hsome {m : Parse Expr} (h : m.Reads s (OperandRead s)) :
      (some <$> m).Reads s fun o s' ts => ∀ e, o = some e → OperandRead s e s' ts := by
    refine .map (h.imp ?_)
    rintro e s' ts hread _ ⟨⟩
    exact hread
  simp only [Grammar.operand, call_bind, liftM_eq]
  split
  next hkind =>
    refine .pure ?_
    rintro _ ⟨⟩
    refine .of_closed (by simp [hkind]) (by simp [hkind]) fun low => ⟨rfl, ?_⟩
    rw [Name.token, ← hkind]
  next hkind => exact hsome (reads_integer hkind)
  next hkind => exact hsome (reads_float hkind)
  next hkind => exact hsome (reads_double hkind)
  next hkind =>
    refine .pure ?_
    rintro _ ⟨⟩
    refine .of_closed (by simp [hkind]) (by simp [hkind]) fun low => ⟨rfl, ?_⟩
    rw [← hkind]
  next hkind =>
    refine .pure ?_
    rintro _ ⟨⟩
    exact .of_closed (by simp [hkind]) (by simp [hkind]) fun low =>
      ⟨rfl, s.current, rfl, hkind, rfl⟩
  next hkind =>
    refine .pure ?_
    rintro _ ⟨⟩
    exact .of_closed (by simp [hkind]) (by simp [hkind]) fun low =>
      ⟨rfl, s.current, rfl, hkind, rfl⟩
  next hkind => exact reads_prefixed hg hs .not hkind hn
  next hkind => exact reads_prefixed hg hs .negate hkind hn
  next hkind =>
    refine .advance_bind_of_ne hs (by simp [hkind]) fun t s₁ hs₁ _ => ?_
    have h₁ := hs₁.length_eq
    refine .bind hs₁.terminated (hg.expression .lowest hs₁.terminated (by omega))
      fun e s₂ hs₂ _ => ?_
    refine .demand_last hs₂ (by decide) fun c s₃ hs₃ hc => ?_
    rintro inner ⟨-, -, edge, hgrouped, -⟩ _ ⟨⟩
    rw [hs₁.current] at hgrouped
    -- Behind a closing parenthesis the edge is closed, whatever the edge of the inner expression
    -- is.
    refine ⟨by simp [hs₃.current, hc], by simp [hs₃.current, hc], closedEdge, fun low => ?_,
      rank_strength_le_closedEdge _⟩
    have hgroup : Grouped e.Bare low closedEdge (s.current :: (t :: inner) ++ [c]) :=
      .group hkind hgrouped hc
    simpa using hgroup
  next hkind => exact hsome (reads_conditional hg hs hkind hn)
  next hkind => exact hsome (reads_loop hg hs hkind hn)
  next hkind => exact hsome (reads_function hg hs hkind hn)
  next hkind =>
    refine .bind hs (reads_expressions hg (by decide) hs (by simp [hkind]) (by omega))
      fun es s₁ _ _ => .pure ?_
    rintro _ ⟨hend, inner, rfl, hyields⟩ _ ⟨⟩
    exact .of_closed (by simp [hend]) (by simp [hend]) fun low =>
      ⟨rfl, s.current, inner, s₁.current, by simp, ⟨hkind, rfl⟩, hend, hyields⟩
  next hkind =>
    refine .bind hs (reads_pairs hg n hs (by simp [hkind]) (by omega) (by omega)) fun o s₁ _ _ => ?_
    split
    next pairs =>
      refine .pure ?_
      rintro _ ⟨hend, pairs, inner, hsome, rfl, hyields, -⟩ _ ⟨⟩
      cases hsome
      exact .of_closed (by simp [hend]) (by simp [hend]) fun low =>
        ⟨rfl, s.current, inner, s₁.current, by simp, ⟨hkind, rfl⟩, hend, hyields⟩
    next =>
      refine .pure ?_
      rintro _ ⟨-, _, _, hnone, -⟩
      cases hnone
  next => exact .pure fun e h => by cases h

/-- The token of the infix operator of a token. -/
theorem InfixOp.kind_of_ofKind? {kind : TokenKind} {op : InfixOp} (h : ofKind? kind = some op) :
    op.kind = kind := by
  cases kind <;> cases h <;> rfl

theorem InfixOp.strength_kind (op : InfixOp) : op.kind.strength = op.strength := by
  cases op <;> rfl

/-- A token that binds to what stands left of it is an infix operator or opens a call or an
index. -/
theorem TokenKind.eq_lbracket_of_strength {kind : TokenKind} (hop : InfixOp.ofKind? kind = none)
    (hkind : kind ≠ .lparen) (hrank : 0 < kind.strength.rank) : kind = .lbracket := by
  cases kind <;> simp_all [TokenKind.strength, InfixOp.ofKind?, Strength.rank]

/-- What an operator makes of what stands left of it: if `left` can be spelled by `before`, then the
longer expression can be spelled by `before`, the operator `t` and the tokens taken. -/
def ExtensionRead (t : Token) (left e : Expr) (s' : ParserState) (ts : List Token) : Prop :=
  s'.current.kind ≠ .eof ∧ s'.current.kind ≠ .semicolon ∧ ∀ before low mid,
    Grouped left.Bare low mid before → low < t.kind.strength.rank → t.kind.strength.rank ≤ mid →
      ∃ edge, Grouped e.Bare low edge (before ++ t :: ts) ∧ s'.next.kind.strength.rank ≤ edge

/-- The expression that the current token makes with what stands left of it. -/
theorem reads_extend (hg : g.Reads n) (hs : s.Terminated) (left : Expr)
    (hrank : 0 < s.current.kind.strength.rank) (hn : 2 * s.ahead.length + 1 ≤ n) :
    (g.extend n s.current left).Reads s (ExtensionRead s.current left) := by
  have heof : s.current.kind ≠ .eof := by
    intro h
    rw [h] at hrank
    exact absurd hrank (by decide)
  simp only [Grammar.extend, call_bind, liftM_eq]
  split
  next op hop =>
    have hkind : s.current.kind = op.kind := (InfixOp.kind_of_ofKind? hop).symm
    have hstrength : s.current.kind.strength = op.strength := by rw [hkind, InfixOp.strength_kind]
    refine .advance_bind_of_ne hs heof fun t s₁ hs₁ _ => ?_
    have h₁ := hs₁.length_eq
    refine .bind hs₁.terminated (hg.expression op.strength hs₁.terminated (by omega))
      fun right s₂ _ _ => .pure ?_
    rintro tail ⟨hend, hsemi, after, hright, hnext⟩
    rw [hs₁.current] at hright
    refine ⟨hend, hsemi, fun before low mid hleft hlow hmid => ?_⟩
    rw [hstrength] at hlow hmid
    exact ⟨_, .bare ⟨before, mid, after, s.current, t :: tail, by simp, ⟨hkind, rfl⟩,
      hlow, hmid, hleft, hright, rfl⟩, hnext⟩
  next hop =>
    split
    next hkind =>
      -- Calls and indices end with a token of their own, so every operator can follow them.
      have hstrength : s.current.kind.strength.rank = Strength.call.rank := by rw [hkind]; rfl
      refine .bind hs (reads_expressions hg (by decide) hs heof (by omega))
        fun es s₁ _ _ => .pure ?_
      rintro _ ⟨hend, inner, rfl, hyields⟩
      refine ⟨by simp [hend], by simp [hend], fun before low mid hleft hlow hmid => ?_⟩
      rw [hstrength] at hlow hmid
      exact ⟨closedEdge, .bare ⟨rfl, before, mid, s.current, inner, s₁.current,
        by simp, ⟨hkind, rfl⟩, hend, hlow, hmid, hleft, hyields⟩, rank_strength_le_closedEdge _⟩
    next hparen =>
      have hkind := TokenKind.eq_lbracket_of_strength hop hparen hrank
      have hstrength : s.current.kind.strength.rank = Strength.index.rank := by rw [hkind]; rfl
      refine .advance_bind_of_ne hs heof fun t s₁ hs₁ _ => ?_
      have h₁ := hs₁.length_eq
      refine .bind hs₁.terminated (hg.expression .lowest hs₁.terminated (by omega))
        fun key s₂ hs₂ _ => ?_
      refine .demand_last hs₂ (by decide) fun c s₃ hs₃ hc inner hinner => ?_
      refine ⟨by simp [hs₃.current, hc], by simp [hs₃.current, hc],
        fun before low mid hleft hlow hmid => ?_⟩
      rw [hstrength] at hlow hmid
      exact ⟨closedEdge, .bare ⟨rfl, before, mid, s.current, t :: inner, c, by simp,
        ⟨hkind, rfl⟩, hc,
        hlow, hmid, hleft, hs₁.current ▸ hinner.whole⟩, rank_strength_le_closedEdge _⟩

/-- The operators behind `left` that bind more tightly than `p`. -/
theorem reads_operators (hg : g.Reads n) (p : Strength) (bound : Nat) (left : Expr)
    (hs : s.Terminated) (hn : 2 * s.ahead.length + 1 ≤ n) (hbound : s.ahead.length < bound) :
    (g.operators n p bound left).Reads s fun e s' ts => s.current.kind ≠ .eof →
      s.current.kind ≠ .semicolon → s'.current.kind ≠ .eof ∧ s'.current.kind ≠ .semicolon ∧
      ∀ before mid, Grouped left.Bare p.rank mid before → s.next.kind.strength.rank ≤ mid →
        ∃ edge, Grouped e.Bare p.rank edge (before ++ ts) ∧
          s'.next.kind.strength.rank ≤ min p.rank edge := by
  -- In each round `left` grows by one operator, and so does the sequence `before` that spells it.
  induction bound generalizing s left with
  | zero => exact absurd hbound (Nat.not_lt_zero _)
  | succ bound ih =>
    simp only [Grammar.operators, tokensAhead_bind, goOn_bind, liftM_eq]
    refine .next_bind ?_
    split
    next hrank =>
      have hnext : s.next.kind ≠ .eof := by
        intro h
        rw [h] at hrank
        exact absurd hrank (Nat.not_lt_zero _)
      refine .advance_bind_of_next hs hnext fun t s₁ hs₁ ht => ?_
      have h₁ := hs₁.length_eq
      have hcurrent : s.next = s₁.current := by rw [hs₁.current, ht]
      rw [hcurrent] at hrank ⊢
      refine .bind hs₁.terminated (reads_extend hg hs₁.terminated left (by omega) (by omega))
        fun longer s₂ hs₂ h₂ => ?_
      refine (ih longer hs₂ (by omega) (by omega)).imp ?_
      rintro e s' rest hrest first ⟨hend, hsemi, hextend⟩ - -
      obtain ⟨hend', hsemi', hrest⟩ := hrest hend hsemi
      refine ⟨hend', hsemi', fun before mid hleft hmid => ?_⟩
      obtain ⟨edge, hlonger, hedge⟩ := hextend before p.rank mid hleft hrank hmid
      obtain ⟨edge', hresult, hedge'⟩ := hrest _ edge hlonger hedge
      refine ⟨edge', ?_, hedge'⟩
      rw [hs₁.current] at hresult
      simpa using hresult
    next hrank =>
      refine .pure fun hend hsemi =>
        ⟨hend, hsemi, fun before mid hleft hmid => ⟨mid, by simpa using hleft, ?_⟩⟩
      omega

/-- An expression with a bound one higher. -/
theorem reads_expressionStep (hg : g.Reads n) (p : Strength) (hs : s.Terminated)
    (hn : 2 * s.ahead.length + 1 ≤ n) : (g.expressionStep n p).Reads s (ExpressionRead p s) := by
  simp only [Grammar.expressionStep, call_bind, liftM_eq]
  refine .current_bind (.bind hs (reads_operand hg hs hn) fun o s₁ hs₁ h₁ => ?_)
  split
  next left =>
    refine (reads_operators hg p n left hs₁ (by omega) (by omega)).imp ?_
    rintro e s' rest hrest first hfirst
    obtain ⟨hend, hsemi, edge, hleft, hedge⟩ := hfirst left rfl
    obtain ⟨hend', hsemi', hrest⟩ := hrest hend hsemi
    exact ⟨hend', hsemi', hrest _ edge (hleft p.rank) hedge⟩
  next => exact .report_pure

/-- A statement with a bound one higher. -/
theorem reads_statementStep (hg : g.Reads n) (hs : s.Terminated) (hn : 2 * s.ahead.length + 2 ≤ n) :
    g.statementStep.Reads s (StatementRead s) := by
  simp only [Grammar.statementStep, call_bind, liftM_eq]
  refine .current_bind ?_
  split
  -- A binding takes its semicolon itself, and must have one.
  next hkind =>
    refine .bind hs (reads_binding hg hs (by omega)) fun o s₁ _ _ => .pure ?_
    rintro _ ⟨name, value, eq, inner, semi, rfl, rfl, heq, hvalue, hsemi, hend, -⟩
    exact ⟨hend, _, rfl, s.current, eq, inner, semi, by simp, ⟨hkind, rfl⟩, heq, hvalue, hsemi⟩
  -- A `return` may go without its semicolon.
  next hkind =>
    refine .advance_bind_of_ne hs (by simp [hkind]) fun t s₁ hs₁ _ => ?_
    have h₁ := hs₁.length_eq
    refine .bind hs₁.terminated (hg.expression .lowest hs₁.terminated (by omega))
      fun value s₂ hs₂ _ => ?_
    refine .skipSemicolon_bind hs₂ (fun _ => .pure fun inner hread => ?_)
      fun semi s₃ hs₃ hsemi => .pure fun inner hread => ?_
    · exact ⟨hread.1, _, rfl, s.current, t :: inner, [], by simp, ⟨hkind, rfl⟩,
        hs₁.current ▸ hread.whole, .inl rfl⟩
    · exact ⟨by simp [hs₃.current, hsemi], _, rfl, s.current, t :: inner, [semi],
        by simp, ⟨hkind, rfl⟩, hs₁.current ▸ hread.whole, .inr ⟨semi, rfl, hsemi⟩⟩
  -- A `break` stands alone.
  next hkind =>
    refine .skipSemicolon_bind hs (fun _ => .pure ?_) fun semi s₁ hs₁ hsemi => .pure ?_
    · exact ⟨by simp [hkind], _, rfl, s.current, [], rfl, ⟨hkind, rfl⟩, .inl rfl⟩
    · exact ⟨by simp [hs₁.current, hsemi], _, rfl, s.current, [semi], rfl, ⟨hkind, rfl⟩,
        .inr ⟨semi, rfl, hsemi⟩⟩
  -- Anything else is an expression.
  next =>
    refine .bind hs (hg.expression .lowest hs hn) fun value s₁ hs₁ _ => ?_
    refine .skipSemicolon_bind hs₁ (fun _ => .pure fun inner hread => ?_)
      fun semi s₂ hs₂ hsemi => .pure fun inner hread => ?_
    · exact ⟨hread.1, _, rfl, s.current :: inner, [], by simp, rfl, hread.whole, .inl rfl⟩
    · exact ⟨by simp [hs₂.current, hsemi], _, rfl, s.current :: inner, [semi], by simp,
        rfl, hread.whole, .inr ⟨semi, rfl, hsemi⟩⟩

/-- The readers of every bound read what is near enough to the end of the source. -/
theorem reads_grammar (n : Nat) : (grammar n).Reads n := by
  -- A statement is one level above the expressions in it, and an operand one below the expression
  -- around it.
  induction n with
  | zero => exact ⟨fun p s hs hn => absurd hn (by omega), fun hs hn => absurd hn (by omega)⟩
  | succ n ih =>
    exact ⟨fun p s hs hn => reads_expressionStep ih p hs (by omega),
      fun hs hn => reads_statementStep ih hs (by omega)⟩

/-! ## Sources -/

/-- Reading tokens stays within the bound on nesting, and tokens without a fault are a sequence of
the program that is read from them. -/
theorem parseTokens?_spec {body : List Token} {last : Token} (hlast : last.kind = .eof)
    (hbody : ∀ t ∈ body, t.kind ≠ .eof) :
    ∃ p, parseTokens? (body ++ [last]) = some p ∧ (p.diagnostics = [] → p.program.Yields body) := by
  obtain ⟨t, rest, hsplit⟩ := List.exists_cons_of_ne_nil (List.concat_ne_nil last body)
  have hterminated : Terminated ⟨t, rest, []⟩ := ⟨body, last, hsplit.symm, hlast, hbody⟩
  have hbound : 2 * rest.length + 3 ≤ nestingBound (t :: rest).length := by
    rw [nestingBound, List.length_cons]
    omega
  obtain ⟨ss, s', hrun, -, hclean⟩ := reads_statements (reads_grammar _) (· == .eof) (by decide)
    (nestingBound (t :: rest).length) hterminated hbound (by dsimp only; omega)
  refine ⟨⟨⟨ss⟩, s'.found.reverse⟩,
    by simp only [hsplit, parseTokens?, Grammar.program, call_bind, hrun], fun hfound => ?_⟩
  have hfound : s'.found = [] := List.reverse_eq_nil_iff.mp hfound
  obtain ⟨ts, htook, hend, inner, hinner, hyields⟩ := hclean (by simp [hfound])
  have hahead : rest = ts ++ s'.ahead := htook.ahead
  have hinner : t :: ts = inner ++ [s'.current] := hinner
  -- The tokens that were taken are all there are, as the last of them is the end.
  have hnil : s'.ahead = [] := by
    refine Terminated.ahead_eq_nil (hterminated.of_suffix ⟨inner, ?_⟩) (by simpa using hend)
    rw [remaining, remaining, List.append_cons, ← hinner, List.cons_append, ← hahead]
  have hall : body ++ [last] = inner ++ [s'.current] := by
    rw [← hinner, hsplit, hahead, hnil, List.append_nil]
  exact (List.append_inj_left' hall rfl) ▸ hyields

/-- A source has a first token, and reading from there on to the end stays within the bound on
nesting. -/
theorem exists_parse (src : Bytes) :
    ∃ t rest ss s', tokens src = t :: rest ∧ Terminated ⟨t, rest, []⟩ ∧
    (grammar (nestingBound (rest.length + 1))).statements (· == .eof)
      (nestingBound (rest.length + 1)) ⟨t, rest, []⟩ =
      some (ss, s') ∧ parse src = ⟨⟨ss⟩, s'.found.reverse⟩ := by
  obtain ⟨body, last, htokens, hlast, hbody⟩ := tokens_eq_append src
  obtain ⟨t, rest, hsplit⟩ := List.exists_cons_of_ne_nil (List.concat_ne_nil last body)
  have hterminated : Terminated ⟨t, rest, []⟩ :=
    ⟨body, last, hsplit.symm, hlast, fun t ht => (hbody t ht).1⟩
  have hbound : 2 * rest.length + 3 ≤ nestingBound (rest.length + 1) := by rw [nestingBound]; omega
  obtain ⟨ss, s', hrun, -, -⟩ := reads_statements (reads_grammar _) (· == .eof) (by decide)
    (nestingBound (rest.length + 1)) hterminated hbound (by dsimp only; omega)
  refine ⟨t, rest, ss, s', htokens.trans hsplit, hterminated, hrun, ?_⟩
  simp only [parse, htokens, hsplit, parseTokens?, Grammar.program, call_bind,
    List.length_cons, hrun, Option.getD_some]

/-- A source in which reading finds no fault is, up to its end token, a token sequence of the
program that is read from it, and the program has no gaps. -/
theorem parse_yields (src : Bytes) (hclean : (parse src).diagnostics = []) :
    (parse src).program.IsComplete ∧ ∃ body last, tokens src = body ++ [last] ∧ last.kind = .eof ∧
      (∀ t ∈ body, t.kind ≠ .eof) ∧ (parse src).program.Yields body := by
  obtain ⟨body, last, htokens, hlast, hbody⟩ := tokens_eq_append src
  have hbody : ∀ t ∈ body, t.kind ≠ .eof := fun t ht => (hbody t ht).1
  obtain ⟨p, hparse, hyields⟩ := parseTokens?_spec hlast hbody
  rw [parse, htokens, hparse, Option.getD_some] at hclean ⊢
  exact ⟨(hyields hclean).isComplete, body, last, rfl, hlast, hbody, hyields hclean⟩

/-- A source with a function, conditions, a hash with a comma behind its last pair, and a loop. -/
def sample : Bytes :=
  text "let f = fn(x, y) \x7b if ((x) < 2) \x7b return \x7b1: -x, \"k\": [y],\x7d \x7d " ++
    text "elif (!y) \x7b f(y)[0] \x7d else \x7b break; \x7d \x7d " ++
    text "for (let i = 0; i < 3; i = i + 1;) \x7b f(i, m.n) \x7d"

theorem parse_yields_sample : (parse sample).diagnostics = [] ∧
    (parse sample).program.IsComplete ∧ ∃ body last, tokens sample = body ++ [last] ∧
      last.kind = .eof ∧
      (∀ t ∈ body, t.kind ≠ .eof) ∧ (parse sample).program.Yields body :=
  ⟨by decide +kernel, parse_yields sample (by decide +kernel)⟩

end Rill
