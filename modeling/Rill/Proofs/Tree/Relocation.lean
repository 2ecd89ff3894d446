import Rill.Proofs.Token.Concatenation
import Rill.Proofs.Tree.Reading

/-!
# Reading the same tokens elsewhere

What the readers make of tokens depends on their offsets only in that the offsets appear in the
result, and it does not depend on tokens that they do not look at.

* `Expr.moved`, `Stmt.moved`, `Diagnostic.moved`: trees and diagnostics with other offsets.
* `Window`: two sequences of tokens that are the same up to their offsets, with different tokens
  behind them.
* `Window.Matches`, `Window.Sees`: two states in such a window, and a state that looks at nothing
  behind it.
* `Parse.Follows`: what a reader does in one of the sequences, another one does in the other. A
  reader that gives no result is followed by every reader, so a bound on nesting may be followed by
  a larger one.
* `follows_grammar`: the readers of every bound are followed by those of every larger bound.
-/

namespace Rill

/-! ## Trees with other offsets -/

/-- A name at another offset. -/
def Name.moved (f : Nat → Nat) (name : Name) : Name := ⟨f name.pos, name.text⟩

mutual

/-- An expression at other offsets. -/
def Expr.moved (f : Nat → Nat) : Expr → Expr
  | .missing => .missing
  | .ident name => .ident (name.moved f)
  | .integer pos spelling value => .integer (f pos) spelling value
  | .float pos spelling value => .float (f pos) spelling value
  | .double pos spelling value => .double (f pos) spelling value
  | .boolean pos value => .boolean (f pos) value
  | .string pos value => .string (f pos) value
  | .array pos elements => .array (f pos) (movedAll f elements)
  | .hash pos pairs => .hash (f pos) (movedPairs f pairs)
  | .prefixed pos op operand => .prefixed (f pos) op (operand.moved f)
  | .infixed pos op left right => .infixed (f pos) op (left.moved f) (right.moved f)
  | .index pos collection key => .index (f pos) (collection.moved f) (key.moved f)
  | .call pos callee arguments => .call (f pos) (callee.moved f) (movedAll f arguments)
  | .function pos parameters body =>
    .function (f pos) (parameters.map (Name.moved f)) (body.moved f)
  | .conditional pos condition consequence elifs alternative =>
    .conditional (f pos) (condition.moved f) (consequence.moved f) (movedElifs f elifs)
      (movedAlternative f alternative)
  | .loop pos letPos counter start condition step body =>
    .loop (f pos) (f letPos) (counter.moved f) (start.moved f) (condition.moved f) (step.moved f)
      (body.moved f)

/-- Expressions at other offsets. -/
def movedAll (f : Nat → Nat) : List Expr → List Expr
  | [] => []
  | e :: es => e.moved f :: movedAll f es

/-- The pairs of a hash at other offsets. -/
def movedPairs (f : Nat → Nat) : List (Expr × Expr) → List (Expr × Expr)
  | [] => []
  | (k, v) :: pairs => (k.moved f, v.moved f) :: movedPairs f pairs

/-- Further conditions and their blocks at other offsets. -/
def movedElifs (f : Nat → Nat) : List (Expr × Block) → List (Expr × Block)
  | [] => []
  | (c, b) :: elifs => (c.moved f, b.moved f) :: movedElifs f elifs

/-- The last block of a conditional at other offsets. -/
def movedAlternative (f : Nat → Nat) : Option Block → Option Block
  | none => none
  | some b => some (b.moved f)

/-- A statement at other offsets. -/
def Stmt.moved (f : Nat → Nat) : Stmt → Stmt
  | .binding pos name value => .binding (f pos) (name.moved f) (value.moved f)
  | .returned pos value => .returned (f pos) (value.moved f)
  | .broken pos => .broken (f pos)
  | .expression first value => .expression (first.moved f) (value.moved f)

/-- Statements at other offsets. -/
def movedStatements (f : Nat → Nat) : List Stmt → List Stmt
  | [] => []
  | s :: ss => s.moved f :: movedStatements f ss

/-- A block at other offsets. -/
def Block.moved (f : Nat → Nat) : Block → Block
  | .mk pos statements => .mk (f pos) (movedStatements f statements)

end

/-- Moving the statements of a list moves each of them. -/
theorem movedStatements_eq_map (f : Nat → Nat) (ss : List Stmt) :
    movedStatements f ss = ss.map (Stmt.moved f) := by
  induction ss with
  | nil => rfl
  | cons s ss ih => rw [movedStatements, ih, List.map_cons]

/-- Statements one behind the other are moved one by one. -/
theorem movedStatements_append (f : Nat → Nat) (ss ss' : List Stmt) :
    movedStatements f (ss ++ ss') = movedStatements f ss ++ movedStatements f ss' := by
  rw [movedStatements_eq_map, movedStatements_eq_map, movedStatements_eq_map, List.map_append]

/-- An expression is missing at any offset or at none. -/
@[simp]
theorem Expr.isMissing_moved (f : Nat → Nat) (e : Expr) : (e.moved f).isMissing = e.isMissing := by
  cases e <;> rw [moved] <;> rfl

theorem Name.moved_id (name : Name) : name.moved id = name := rfl

mutual

/-- Offsets that stay leave a tree as it is. -/
theorem Expr.moved_id : ∀ e : Expr, e.moved id = e
  | .missing | .ident _ | .integer .. | .float .. | .double .. | .boolean .. | .string .. => by
    simp only [Expr.moved, Name.moved_id, id_eq]
  | .array _ elements => by rw [Expr.moved, movedAll_id elements]; rfl
  | .hash _ pairs => by rw [Expr.moved, movedPairs_id pairs]; rfl
  | .prefixed _ _ operand => by rw [Expr.moved, operand.moved_id]; rfl
  | .infixed _ _ left right => by rw [Expr.moved, left.moved_id, right.moved_id]; rfl
  | .index _ collection key => by rw [Expr.moved, collection.moved_id, key.moved_id]; rfl
  | .call _ callee arguments => by rw [Expr.moved, callee.moved_id, movedAll_id arguments]; rfl
  | .function _ parameters body => by
    rw [Expr.moved, body.moved_id, List.map_congr_left fun name _ => name.moved_id, List.map_id']
    rfl
  | .conditional _ condition consequence elifs alternative => by
    rw [Expr.moved, condition.moved_id, consequence.moved_id, movedElifs_id elifs,
      movedAlternative_id alternative]
    rfl
  | .loop _ _ counter start condition step body => by
    rw [Expr.moved, start.moved_id, condition.moved_id, step.moved_id, body.moved_id,
      counter.moved_id]
    rfl

/-- Offsets that stay leave a list of expressions as it is. -/
theorem movedAll_id : ∀ es : List Expr, movedAll id es = es
  | [] => rfl
  | e :: es => by rw [movedAll, e.moved_id, movedAll_id es]

/-- Offsets that stay leave the pairs of a hash as they are. -/
theorem movedPairs_id : ∀ pairs : List (Expr × Expr), movedPairs id pairs = pairs
  | [] => rfl
  | (k, v) :: pairs => by rw [movedPairs, k.moved_id, v.moved_id, movedPairs_id pairs]

/-- Offsets that stay leave further conditions and their blocks as they are. -/
theorem movedElifs_id : ∀ elifs : List (Expr × Block), movedElifs id elifs = elifs
  | [] => rfl
  | (c, b) :: elifs => by rw [movedElifs, c.moved_id, b.moved_id, movedElifs_id elifs]

/-- Offsets that stay leave the last block of a conditional as it is. -/
theorem movedAlternative_id :
    ∀ alternative : Option Block, movedAlternative id alternative = alternative
  | none => rfl
  | some b => by rw [movedAlternative, b.moved_id]

/-- Offsets that stay leave a statement as it is. -/
theorem Stmt.moved_id : ∀ st : Stmt, st.moved id = st
  | .binding _ _ value => by rw [Stmt.moved, value.moved_id]; rfl
  | .returned _ value => by rw [Stmt.moved, value.moved_id]; rfl
  | .broken _ => rfl
  | .expression _ value => by rw [Stmt.moved, value.moved_id]; rfl

/-- Offsets that stay leave a list of statements as it is. -/
theorem movedStatements_id : ∀ ss : List Stmt, movedStatements id ss = ss
  | [] => rfl
  | st :: ss => by rw [movedStatements, st.moved_id, movedStatements_id ss]

/-- Offsets that stay leave a block as it is. -/
theorem Block.moved_id : ∀ b : Block, b.moved id = b
  | .mk _ statements => by rw [Block.moved, movedStatements_id statements]; rfl

end

/-- A diagnostic at another offset. -/
def Diagnostic.moved (f : Nat → Nat) (d : Diagnostic) : Diagnostic := ⟨f d.offset, d.fault⟩

/-! ## Windows -/

/-- Tokens in two places: the same ones up to their offsets, which `place` tells, and behind them
`old` in the one place and `new` in the other. -/
structure Window where
  place : Nat → Nat
  old : List Token
  new : List Token

namespace Window

variable {w : Window} {s s' : ParserState}

/-- Two states of reading that face the same tokens in the two places. -/
structure Matches (w : Window) (s s' : ParserState) : Prop where
  current : s'.current = s.current.moved w.place
  ahead : ∃ ts, s.ahead = ts ++ w.old ∧ s'.ahead = ts.map (Token.moved w.place) ++ w.new
  found : s'.found = s.found.map (Diagnostic.moved w.place)

/-- The next token does not stand behind the window. Where nothing does, every state is so, the one
at the last token included. -/
def Sees (w : Window) (s : ParserState) : Prop :=
  w.old = [] ∧ w.new = [] ∨ w.old.length < s.ahead.length

/-- A state sees what is ahead if one sees it that is further on. -/
theorem Sees.of_le (h : w.Sees s') (hle : s'.ahead.length ≤ s.ahead.length) : w.Sees s :=
  h.imp_right fun hless => Nat.lt_of_lt_of_le hless hle

/-- The tokens of the window that are still ahead. -/
theorem Matches.cases_ahead (h : w.Matches s s') (hs : w.Sees s) :
    s.ahead = [] ∧ s'.ahead = [] ∨ ∃ t ts, s.ahead = t :: (ts ++ w.old) ∧
      s'.ahead = t.moved w.place :: (ts.map (Token.moved w.place) ++ w.new) := by
  obtain ⟨ts, hahead, hahead'⟩ := h.ahead
  -- Without a token of the window ahead, a state sees nothing unless nothing stands behind the
  -- window.
  cases ts with
  | nil =>
    rcases hs with ⟨hold, hnew⟩ | hless
    · exact .inl ⟨by rw [hahead, hold, List.nil_append],
        by rw [hahead', hnew, List.map_nil, List.nil_append]⟩
    · rw [hahead, List.nil_append] at hless
      exact absurd hless (Nat.lt_irrefl _)
  | cons t ts => exact .inr ⟨t, ts, hahead, hahead'⟩

/-- Two matching states have the same next token, up to its offset, as long as it stands inside the
window. -/
theorem Matches.next (h : w.Matches s s') (hs : w.Sees s) : s'.next = s.next.moved w.place := by
  rw [ParserState.next, ParserState.next]
  rcases h.cases_ahead hs with ⟨hahead, hahead'⟩ | ⟨t, ts, hahead, hahead'⟩
  · rw [hahead, hahead', List.headD_nil, List.headD_nil, h.current]
  · rw [hahead, hahead', List.headD_cons, List.headD_cons]

/-- Two matching states still match when both move on inside the window. -/
theorem Matches.advance (h : w.Matches s s') (hs : w.Sees s) : w.Matches s.advance s'.advance := by
  rcases h.cases_ahead hs with ⟨hahead, hahead'⟩ | ⟨t, ts, hahead, hahead'⟩
  · rw [ParserState.advance, ParserState.advance, hahead, hahead']
    exact h
  · rw [ParserState.advance, ParserState.advance, hahead, hahead']
    exact ⟨rfl, ⟨ts, rfl, rfl⟩, h.found⟩

/-- A fault that is reported in both places leaves the states matching, as the one offset is that of
the other. -/
theorem Matches.blame (h : w.Matches s s') (offset : Nat) (fault : SyntaxFault) :
    w.Matches (s.blame offset fault) (s'.blame (w.place offset) fault) := by
  refine ⟨h.current, h.ahead, ?_⟩
  rw [ParserState.blame, ParserState.blame, List.map_cons, h.found]
  rfl

end Window

/-! ## Readers that follow one another -/

namespace Parse

variable {α α' β β' : Type} {w : Window} {σ : α → α'} {τ : β → β'} {m : Parse α} {m' : Parse α'}
  {f : α → Parse β} {f' : α' → Parse β'}

/-- What `m` does in one place, `m'` does in the other, as long as `m` looks at nothing behind the
window. Its result is the same up to `σ`. -/
structure Follows (w : Window) (σ : α → α') (m : Parse α) (m' : Parse α') : Prop where
  length_le : ∀ s a s₁, m s = some (a, s₁) → s₁.ahead.length ≤ s.ahead.length
  run : ∀ s s' a s₁, w.Matches s s' → m s = some (a, s₁) → w.Sees s₁ →
    ∃ s₁', m' s' = some (σ a, s₁') ∧ w.Matches s₁ s₁'

namespace Follows

/-- A reader without a result is followed by every reader. -/
theorem exhausted : (Parse.exhausted : Parse α).Follows w σ m' := by
  refine ⟨?_, ?_⟩
  · rintro s a s₁ ⟨⟩
  · rintro s s' a s₁ - ⟨⟩

/-- Results that are the same up to `σ` follow each other without a move. -/
theorem pure {a : α} {a' : α'} (h : σ a = a') :
    (Pure.pure a : Parse α).Follows w σ (Pure.pure a') := by
  refine ⟨?_, ?_⟩
  · rintro s b s₁ ⟨⟩
    exact Nat.le_refl _
  · rintro s s' b s₁ hs ⟨⟩ -
    exact ⟨s', by rw [h]; rfl, hs⟩

/-- A reader in two steps is followed by one in two steps, if each step follows. -/
theorem bind (hm : m.Follows w σ m') (hf : ∀ a, (f a).Follows w τ (f' (σ a))) :
    (m >>= f).Follows w τ (m' >>= f') := by
  refine ⟨fun s b s₂ hrun => ?_, fun s s' b s₂ hs hrun hsees => ?_⟩
  · obtain ⟨a, s₁, hfirst, hrest⟩ := exists_of_bind hrun
    exact Nat.le_trans ((hf a).length_le s₁ b s₂ hrest) (hm.length_le s a s₁ hfirst)
  · obtain ⟨a, s₁, hfirst, hrest⟩ := exists_of_bind hrun
    -- No reader moves back, so what is within the window at the end was so in between.
    obtain ⟨s₁', hfirst', hs₁⟩ :=
      hm.run s s' a s₁ hs hfirst (hsees.of_le ((hf a).length_le s₁ b s₂ hrest))
    obtain ⟨s₂', hrest', hs₂⟩ := (hf a).run s₁ s₁' b s₂ hs₁ hrest hsees
    refine ⟨s₂', ?_, hs₂⟩
    simp only [Bind.bind, StateT.bind, hfirst']
    exact hrest'

/-- What is made of the result of a reader follows what is made of the other result, if the two
functions agree. -/
theorem map {g : α → β} {g' : α' → β'} (hm : m.Follows w σ m') (hg : ∀ a, τ (g a) = g' (σ a)) :
    (g <$> m).Follows w τ (g' <$> m') := by
  rw [map_eq_pure_bind, map_eq_pure_bind]
  exact bind hm fun a => pure (hg a)

/-- Both readers look at the same current token, up to its offset. -/
theorem current_bind {f : Token → Parse β} {f' : Token → Parse β'}
    (h : ∀ t, (f t).Follows w τ (f' (t.moved w.place))) :
    (current >>= f).Follows w τ (current >>= f') := by
  refine ⟨fun s b s₁ hrun => (h s.current).length_le s b s₁ hrun, fun s s' b s₁ hs hrun hsees => ?_⟩
  obtain ⟨s₁', hrun', hs₁⟩ := (h s.current).run s s' b s₁ hs hrun hsees
  rw [← hs.current] at hrun'
  exact ⟨s₁', hrun', hs₁⟩

/-- Both readers look at the same next token, up to its offset. -/
theorem next_bind {f : Token → Parse β} {f' : Token → Parse β'}
    (h : ∀ t, (f t).Follows w τ (f' (t.moved w.place))) :
    (next >>= f).Follows w τ (next >>= f') := by
  refine ⟨fun s b s₁ hrun => (h s.next).length_le s b s₁ hrun, fun s s' b s₁ hs hrun hsees => ?_⟩
  obtain ⟨s₁', hrun', hs₁⟩ := (h s.next).run s s' b s₁ hs hrun hsees
  -- The reader ends within the window, so the token that it looked at stands there as well.
  rw [← hs.next (hsees.of_le ((h s.next).length_le s b s₁ hrun))] at hrun'
  exact ⟨s₁', hrun', hs₁⟩

/-- Both readers move on inside the window. -/
theorem advance : Parse.advance.Follows w id Parse.advance := by
  refine ⟨?_, ?_⟩
  · rintro s - s₁ ⟨⟩
    exact (Moved.advance s).length_le
  · rintro s s' - s₁ hs ⟨⟩ hsees
    exact ⟨s'.advance, rfl, hs.advance (hsees.of_le (Moved.advance s).length_le)⟩

theorem advance_bind {f : Unit → Parse β} {f' : Unit → Parse β'} (h : (f ()).Follows w τ (f' ())) :
    (Parse.advance >>= f).Follows w τ (Parse.advance >>= f') := bind advance fun _ => h

/-- A fault is reported at the offset that the window gives it. -/
theorem report_bind {offset : Nat} {fault : SyntaxFault} {f : Unit → Parse β} {f' : Unit → Parse β'}
    (h : (f ()).Follows w τ (f' ())) :
    (report offset fault >>= f).Follows w τ (report (w.place offset) fault >>= f') :=
  ⟨fun s b s₁ hrun => h.length_le (s.blame offset fault) b s₁ hrun,
    fun _ _ b s₁ hs hrun hsees => h.run _ _ b s₁ (hs.blame offset fault) hrun hsees⟩

/-- Two branches on one condition follow each other if both pairs of branches do. -/
theorem ite {c : Prop} [Decidable c] {m₁ m₂ : Parse α} {m₁' m₂' : Parse α'}
    (h₁ : m₁.Follows w σ m₁') (h₂ : m₂.Follows w σ m₂') :
    (if c then m₁ else m₂).Follows w σ (if c then m₁' else m₂') := by
  split
  · exact h₁
  · exact h₂

/-- A wanted token comes next in both places or in neither. -/
theorem expect (wanted : TokenKind) : (Parse.expect wanted).Follows w id (Parse.expect wanted) :=
  next_bind fun _ => ite (advance_bind (pure rfl)) (report_bind (pure rfl))

/-- A demanded token. -/
theorem demand {wanted : TokenKind} {x : β} {x' : β'} {rest : Parse β} {rest' : Parse β'}
    (hx : τ x = x') (h : rest.Follows w τ rest') :
    (Parse.expect wanted >>= fun b => if (!b) = true then Pure.pure x else rest).Follows w τ
      (Parse.expect wanted >>= fun b => if (!b) = true then Pure.pure x' else rest') :=
  bind (expect wanted) fun _ => ite (pure hx) h

/-- A demanded token that ends the reader. -/
theorem demand_last {wanted : TokenKind} {x y : β} {x' y' : β'} (hx : τ x = x') (hy : τ y = y') :
    (Parse.expect wanted >>= fun b => if b = true then Pure.pure y else Pure.pure x).Follows w τ
      (Parse.expect wanted >>= fun b => if b = true then Pure.pure y' else Pure.pure x') :=
  bind (expect wanted) fun _ => ite (pure hy) (pure hx)

/-- A semicolon is skipped in both places or in neither. -/
theorem skipSemicolon : Parse.skipSemicolon.Follows w id Parse.skipSemicolon :=
  next_bind fun _ => ite advance (pure rfl)

theorem skipSemicolon_bind {f : Unit → Parse β} {f' : Unit → Parse β'}
    (h : (f ()).Follows w τ (f' ())) :
    (Parse.skipSemicolon >>= f).Follows w τ (Parse.skipSemicolon >>= f') :=
  bind skipSemicolon fun _ => h

end Follows

end Parse

/-! ## Readers -/

open Parse

/-- The readers of `g` are followed by those of `g'`. -/
structure Grammar.Follows (w : Window) (g g' : Grammar Parse) : Prop where
  expression : ∀ p, (g.expression p).Follows w (Expr.moved w.place) (g'.expression p)
  statement : g.statement.Follows w (Option.map (Stmt.moved w.place)) g'.statement

variable {w : Window} {g g' : Grammar Parse}

/-- A binding behind its `let` is read in the same way in both places. -/
theorem follows_binding (hg : g.Follows w g') :
    g.binding.Follows w (Option.map fun b => (b.1.moved w.place, b.2.moved w.place))
      g'.binding := by
  simp only [Grammar.binding, call_bind, liftM_eq]
  refine .demand rfl (.current_bind fun t => .demand rfl (.advance_bind ?_))
  exact .bind (hg.expression .lowest) fun value => .skipSemicolon_bind (.pure rfl)

/-- Statements are read in the same way in both places, with a bound that is at least as large. -/
theorem follows_statements (hg : g.Follows w g') (stop : TokenKind → Bool) {bound bound' : Nat}
    (hbound : bound ≤ bound') :
    (g.statements stop bound).Follows w (movedStatements w.place) (g'.statements stop bound') := by
  -- The bound that is followed goes down to zero, where nothing is read. The other one keeps its
  -- lead.
  induction bound generalizing bound' with
  | zero => exact .exhausted
  | succ bound ih =>
    obtain ⟨bound', rfl⟩ := Nat.exists_eq_add_of_le' hbound
    rw [← Nat.add_assoc]
    simp only [Grammar.statements, tokensAhead_bind, goOn_bind, liftM_eq]
    refine .current_bind fun t => .ite (.pure rfl) (.bind hg.statement fun st => .advance_bind ?_)
    refine .bind (ih (by omega)) fun ss => .pure ?_
    rw [movedStatements_append]
    cases st <;> rfl

/-- A block is read in the same way in both places. -/
theorem follows_block (hg : g.Follows w g') {n n' : Nat} (hn : n ≤ n') :
    (g.block n).Follows w (Block.moved w.place) (g'.block n') := by
  simp only [Grammar.block, call_bind, liftM_eq]
  refine .current_bind fun start =>
    .advance_bind (.bind (follows_statements hg _ hn) fun body => ?_)
  exact .current_bind fun t => .ite (.report_bind (.pure rfl)) (.pure rfl)

/-- A condition in parentheses is read in the same way in both places. -/
theorem follows_condition (hg : g.Follows w g') :
    g.condition.Follows w (Expr.moved w.place) g'.condition := by
  simp only [Grammar.condition, call_bind, liftM_eq]
  refine .demand rfl (.advance_bind (.bind (hg.expression .lowest) fun c => ?_))
  exact .demand rfl (.demand rfl (.pure rfl))

/-- Further conditions with their blocks are read in the same way in both places. -/
theorem follows_elifs (hg : g.Follows w g') {n n' bound bound' : Nat} (hn : n ≤ n')
    (hbound : bound ≤ bound') :
    (g.elifs n bound).Follows w (Option.map (movedElifs w.place)) (g'.elifs n' bound') := by
  induction bound generalizing bound' with
  | zero => exact .exhausted
  | succ bound ih =>
    obtain ⟨bound', rfl⟩ := Nat.exists_eq_add_of_le' hbound
    rw [← Nat.add_assoc]
    simp only [Grammar.elifs, tokensAhead_bind, goOn_bind, liftM_eq]
    refine .next_bind fun t => .ite (.advance_bind (.bind (follows_condition hg) fun c => ?_))
      (.pure rfl)
    rw [Expr.isMissing_moved]
    refine .ite (.pure rfl) (.bind (follows_block hg hn) fun b => ?_)
    refine .bind (ih (by omega)) fun others => .pure ?_
    cases others <;> rfl

/-- A conditional is read in the same way in both places. It keeps the offset of its `if`. -/
theorem follows_conditional (hg : g.Follows w g') {n n' : Nat} (hn : n ≤ n') (pos : Nat) :
    (g.conditional n pos).Follows w (Expr.moved w.place) (g'.conditional n' (w.place pos)) := by
  simp only [Grammar.conditional, call_bind, liftM_eq]
  refine .bind (follows_condition hg) fun c => ?_
  rw [Expr.isMissing_moved]
  refine .ite (.pure rfl) (.bind (follows_block hg hn) fun consequence => ?_)
  refine .bind (follows_elifs hg hn hn) fun others => ?_
  cases others with
  | none => exact .pure rfl
  | some others =>
    refine .next_bind fun t => .ite (.advance_bind (.demand rfl ?_)) (.pure rfl)
    exact .bind (follows_block hg hn) fun alternative => .pure rfl

/-- A loop from the semicolon behind its counter on. -/
theorem follows_turns (hg : g.Follows w g') {n n' : Nat} (hn : n ≤ n') (pos letPos : Nat)
    (counter : Name) (start : Expr) :
    Parse.Follows w (Expr.moved w.place) (do
      advance
      let c ← g.expression .lowest
      if !(← expect .semicolon) then return Expr.missing
      advance
      let some step ← g.statement | return Expr.missing
      if !(← expect .rparen) then return Expr.missing
      if !(← expect .lbrace) then return Expr.missing
      let body ← g.block n
      return Expr.loop pos letPos counter start c step body) (do
      advance
      let c ← g'.expression .lowest
      if !(← expect .semicolon) then return Expr.missing
      advance
      let some step ← g'.statement | return Expr.missing
      if !(← expect .rparen) then return Expr.missing
      if !(← expect .lbrace) then return Expr.missing
      let body ← g'.block n'
      return Expr.loop (w.place pos) (w.place letPos) (counter.moved w.place)
        (start.moved w.place) c step body) := by
  refine .advance_bind (.bind (hg.expression .lowest) fun c => .demand rfl (.advance_bind ?_))
  refine .bind hg.statement fun step => ?_
  cases step with
  | none => exact .pure rfl
  | some step => exact .demand rfl (.demand rfl (.bind (follows_block hg hn) fun body => .pure rfl))

/-- A loop is read in the same way in both places. It keeps the offsets of its `for` and its
`let`. -/
theorem follows_loop (hg : g.Follows w g') {n n' : Nat} (hn : n ≤ n') (pos : Nat) :
    (g.loop n pos).Follows w (Expr.moved w.place) (g'.loop n' (w.place pos)) := by
  simp only [Grammar.loop, call_bind, liftM_eq]
  refine .demand rfl (.advance_bind (.current_bind fun start => .ite (.report_bind (.pure rfl)) ?_))
  refine .bind (follows_binding hg) fun b => ?_
  cases b with
  | none => exact .pure rfl
  | some b =>
    -- The semicolon is demanded where the binding did not take it, and the rest is the same.
    have hturns := follows_turns hg hn pos start.pos b.1 b.2
    exact .current_bind fun t => .ite (.demand rfl hturns) hturns

/-- Further parameters are read in the same way in both places. -/
theorem follows_moreParameters {bound bound' : Nat} (hbound : bound ≤ bound') :
    (Grammar.moreParameters (m := Parse) bound).Follows w
      (Option.map (List.map (Name.moved w.place)))
      (Grammar.moreParameters (m := Parse) bound') := by
  induction bound generalizing bound' with
  | zero => exact .exhausted
  | succ bound ih =>
    obtain ⟨bound', rfl⟩ := Nat.exists_eq_add_of_le' hbound
    rw [← Nat.add_assoc]
    simp only [Grammar.moreParameters, tokensAhead_bind, goOn_bind, liftM_eq]
    refine .next_bind fun t => .ite (.advance_bind (.demand rfl (.current_bind fun t => ?_)))
      (.demand_last rfl rfl)
    refine .bind (ih (by omega)) fun names => .pure ?_
    cases names <;> rfl

/-- The parameters of a function are read in the same way in both places. -/
theorem follows_parameters {n n' : Nat} (hn : n ≤ n') :
    (Grammar.parameters (m := Parse) n).Follows w (Option.map (List.map (Name.moved w.place)))
      (Grammar.parameters (m := Parse) n') := by
  simp only [Grammar.parameters, call_bind, liftM_eq]
  refine .next_bind fun t => .ite (.advance_bind (.pure rfl))
    (.demand rfl (.current_bind fun t => ?_))
  refine .bind (follows_moreParameters hn) fun names => .pure ?_
  cases names <;> rfl

/-- A function is read in the same way in both places. -/
theorem follows_function (hg : g.Follows w g') {n n' : Nat} (hn : n ≤ n') (pos : Nat) :
    (g.function n pos).Follows w (Expr.moved w.place) (g'.function n' (w.place pos)) := by
  simp only [Grammar.function, call_bind, liftM_eq]
  refine .demand rfl (.bind (follows_parameters hn) fun names => ?_)
  cases names with
  | none => exact .pure rfl
  | some names => exact .demand rfl (.bind (follows_block hg hn) fun body => .pure rfl)

/-- Further expressions behind commas are read in the same way in both places. -/
theorem follows_moreExpressions (hg : g.Follows w g') {bound bound' : Nat}
    (hbound : bound ≤ bound') :
    (g.moreExpressions bound).Follows w (movedAll w.place) (g'.moreExpressions bound') := by
  induction bound generalizing bound' with
  | zero => exact .exhausted
  | succ bound ih =>
    obtain ⟨bound', rfl⟩ := Nat.exists_eq_add_of_le' hbound
    rw [← Nat.add_assoc]
    simp only [Grammar.moreExpressions, tokensAhead_bind, goOn_bind, liftM_eq]
    refine .next_bind fun t => .ite (.advance_bind (.advance_bind ?_)) (.pure rfl)
    exact .bind (hg.expression .lowest) fun e => .bind (ih (by omega)) fun es => .pure rfl

/-- Expressions up to a closing token are read in the same way in both places. -/
theorem follows_expressions (hg : g.Follows w g') {n n' : Nat} (hn : n ≤ n') (close : TokenKind) :
    (g.expressions n close).Follows w (movedAll w.place) (g'.expressions n' close) := by
  simp only [Grammar.expressions, call_bind, liftM_eq]
  refine .next_bind fun t => .ite (.advance_bind (.pure rfl)) (.advance_bind ?_)
  refine .bind (hg.expression .lowest) fun e => .bind (follows_moreExpressions hg hn) fun es => ?_
  exact .demand_last rfl rfl

/-- The pairs of a hash are read in the same way in both places. -/
theorem follows_pairs (hg : g.Follows w g') {bound bound' : Nat} (hbound : bound ≤ bound') :
    (g.pairs bound).Follows w (Option.map (movedPairs w.place)) (g'.pairs bound') := by
  induction bound generalizing bound' with
  | zero => exact .exhausted
  | succ bound ih =>
    obtain ⟨bound', rfl⟩ := Nat.exists_eq_add_of_le' hbound
    rw [← Nat.add_assoc]
    simp only [Grammar.pairs, tokensAhead_bind, goOn_bind, liftM_eq]
    refine .next_bind fun t => .ite (.advance_bind (.pure rfl)) (.advance_bind ?_)
    refine .bind (hg.expression .lowest) fun key => .demand rfl (.advance_bind ?_)
    refine .bind (hg.expression .lowest) fun value => .next_bind fun t => ?_
    have hmore : (g.pairs bound >>= fun pairs => pure (pairs.map ((key, value) :: ·))).Follows w
        (Option.map (movedPairs w.place)) (g'.pairs (bound' + bound) >>= fun pairs =>
          pure (pairs.map ((key.moved w.place, value.moved w.place) :: ·))) := by
      refine .bind (ih (by omega)) fun pairs => .pure ?_
      cases pairs <;> rfl
    exact .ite (.demand rfl hmore) hmore

/-- A whole number fits at every offset or at none, and the fault of one that does not is at its
offset. -/
theorem follows_integer (t : Token) :
    (Grammar.integer t).Follows w (Expr.moved w.place) (Grammar.integer (t.moved w.place)) := by
  rw [Grammar.integer, Grammar.integer]
  exact .ite (.pure rfl) (.report_bind (.pure rfl))

/-- A number of 32 bits is finite at every offset or at none. -/
theorem follows_float (t : Token) :
    (Grammar.float t).Follows w (Expr.moved w.place) (Grammar.float (t.moved w.place)) := by
  rw [Grammar.float, Grammar.float]
  dsimp only [Token.moved]
  split
  · exact .ite (.pure rfl) (.report_bind (.pure rfl))
  · exact .report_bind (.pure rfl)

/-- A number of 64 bits is finite at every offset or at none. -/
theorem follows_double (t : Token) :
    (Grammar.double t).Follows w (Expr.moved w.place) (Grammar.double (t.moved w.place)) := by
  rw [Grammar.double, Grammar.double]
  dsimp only [Token.moved]
  split
  · exact .ite (.pure rfl) (.report_bind (.pure rfl))
  · exact .report_bind (.pure rfl)

/-- An operand is read in the same way in both places. Which one it is depends on the kind of its
first token only. -/
theorem follows_operand (hg : g.Follows w g') {n n' : Nat} (hn : n ≤ n') (t : Token) :
    (g.operand n t).Follows w (Option.map (Expr.moved w.place))
      (g'.operand n' (t.moved w.place)) := by
  simp only [Grammar.operand, call_bind, liftM_eq]
  dsimp only [Token.moved]
  -- Both prefix operators are read in the same steps.
  have hprefixed (op : PrefixOp) : Parse.Follows w (Option.map (Expr.moved w.place)) (do
      advance
      return some (Expr.prefixed t.pos op (← g.expression .prefixed))) (do
      advance
      return some (Expr.prefixed (w.place t.pos) op (← g'.expression .prefixed))) :=
    .advance_bind (.bind (hg.expression .prefixed) fun e => .pure rfl)
  split
  next => exact .pure rfl
  next => exact .map (follows_integer t) fun e => rfl
  next => exact .map (follows_float t) fun e => rfl
  next => exact .map (follows_double t) fun e => rfl
  next => exact .pure rfl
  next => exact .pure rfl
  next => exact .pure rfl
  next => exact hprefixed .not
  next => exact hprefixed .negate
  next => exact .advance_bind (.bind (hg.expression .lowest) fun e => .demand_last rfl rfl)
  next => exact .map (follows_conditional hg hn t.pos) fun e => rfl
  next => exact .map (follows_loop hg hn t.pos) fun e => rfl
  next => exact .map (follows_function hg hn t.pos) fun e => rfl
  next => exact .bind (follows_expressions hg hn .rbracket) fun es => .pure rfl
  next =>
    refine .bind (follows_pairs hg hn) fun pairs => ?_
    cases pairs <;> exact .pure rfl
  next => exact .pure rfl

/-- An expression is extended by an operator in the same way in both places. -/
theorem follows_extend (hg : g.Follows w g') {n n' : Nat} (hn : n ≤ n') (t : Token) (left : Expr) :
    (g.extend n t left).Follows w (Expr.moved w.place)
      (g'.extend n' (t.moved w.place) (left.moved w.place)) := by
  simp only [Grammar.extend, call_bind, liftM_eq]
  dsimp only [Token.moved]
  split
  next op _ => exact .advance_bind (.bind (hg.expression op.strength) fun right => .pure rfl)
  next =>
    refine .ite (.bind (follows_expressions hg hn .rparen) fun es => .pure rfl) (.advance_bind ?_)
    exact .bind (hg.expression .lowest) fun key => .demand_last rfl rfl

/-- The operators behind an operand are read in the same way in both places. -/
theorem follows_operators (hg : g.Follows w g') {n n' : Nat} (hn : n ≤ n') (p : Strength)
    {bound bound' : Nat} (hbound : bound ≤ bound') (left : Expr) :
    (g.operators n p bound left).Follows w (Expr.moved w.place)
      (g'.operators n' p bound' (left.moved w.place)) := by
  induction bound generalizing bound' left with
  | zero => exact .exhausted
  | succ bound ih =>
    obtain ⟨bound', rfl⟩ := Nat.exists_eq_add_of_le' hbound
    rw [← Nat.add_assoc]
    simp only [Grammar.operators, tokensAhead_bind, goOn_bind, liftM_eq]
    refine .next_bind fun t => .ite (.advance_bind ?_) (.pure rfl)
    exact .bind (follows_extend hg hn t left) fun longer => ih (by omega) longer

/-- An expression with a bound one higher is read in the same way in both places. -/
theorem follows_expressionStep (hg : g.Follows w g') {n n' : Nat} (hn : n ≤ n') (p : Strength) :
    (g.expressionStep n p).Follows w (Expr.moved w.place) (g'.expressionStep n' p) := by
  simp only [Grammar.expressionStep, call_bind, liftM_eq]
  refine .current_bind fun t => .bind (follows_operand hg hn t) fun o => ?_
  cases o with
  | some left => exact follows_operators hg hn p hn left
  | none => exact .report_bind (.pure rfl)

/-- A statement with a bound one higher is read in the same way in both places. -/
theorem follows_statementStep (hg : g.Follows w g') :
    g.statementStep.Follows w (Option.map (Stmt.moved w.place)) g'.statementStep := by
  simp only [Grammar.statementStep, call_bind, liftM_eq]
  refine .current_bind fun t => ?_
  dsimp only [Token.moved]
  split
  next =>
    refine .bind (follows_binding hg) fun b => .pure ?_
    cases b <;> rfl
  next =>
    exact .advance_bind (.bind (hg.expression .lowest) fun value => .skipSemicolon_bind (.pure rfl))
  next => exact .skipSemicolon_bind (.pure rfl)
  next => exact .bind (hg.expression .lowest) fun value => .skipSemicolon_bind (.pure rfl)

/-- The readers of every bound are followed by those of every larger bound. -/
theorem follows_grammar (w : Window) {n n' : Nat} (hn : n ≤ n') :
    (grammar n).Follows w (grammar n') := by
  induction n generalizing n' with
  | zero => exact ⟨fun _ => .exhausted, .exhausted⟩
  | succ n ih =>
    obtain ⟨n', rfl⟩ := Nat.exists_eq_add_of_le' hn
    have hle : n ≤ n' + n := Nat.le_add_left n n'
    exact ⟨fun p => follows_expressionStep (ih hle) hle p, follows_statementStep (ih hle)⟩

end Rill
