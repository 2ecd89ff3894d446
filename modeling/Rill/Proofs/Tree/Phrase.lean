import Mathlib.Data.List.Forall2
import Rill.Proofs.Token.Lexeme
import Rill.Proofs.Tree.Derivation

/-!
# Reading phrases

A phrase is a sequence of lexemes together with what an expression has to be that is read over them.
Phrases are put together with the marks between them as expressions are.

* `ParserState.Faces`, `ParserState.Awaits`: the lexemes from the current token on, or behind it, in
  a state without a fault.
* `Phrase.Reads`: reading an expression over the lexemes of a phrase gives what the phrase says.
* `ensures_expressions`, `ensures_pairs`: phrases between the marks of an array, a call or a hash.
* `ensures_array`, `ensures_hash`: arrays and hashes of phrases.
* `Phrase.Reads.parse`: a source with the lexemes of a phrase.
-/

namespace Rill

/-! ## Lexemes ahead -/

/-- The text of a token whose kind does not fix it. -/
theorem Token.literal_of_lexeme {t : Token} {kind : TokenKind} {literal : Bytes}
    (h : t.lexeme = (kind, literal)) (hkind : kind.isFixed = false) : t.literal = literal := by
  obtain ⟨rfl, hliteral⟩ := Prod.mk.inj h
  rwa [if_neg (by simp [hkind])] at hliteral

namespace ParserState

variable {s : ParserState} {l : Lexeme} {ls : List Lexeme}

/-- Reading stands at the first of the lexemes, and there was no fault. -/
def Faces (s : ParserState) (ls : List Lexeme) : Prop :=
  s.remaining.map Token.lexeme = ls ∧ s.found = []

/-- The lexemes come next, and there was no fault. -/
def Awaits (s : ParserState) (ls : List Lexeme) : Prop :=
  s.ahead.map Token.lexeme = ls ∧ s.found = []

/-- Behind the current lexeme the other ones come next. -/
theorem Faces.awaits (h : s.Faces (l :: ls)) : s.Awaits ls := by
  obtain ⟨hmap, hfound⟩ := h
  rw [remaining, List.map_cons, List.cons.injEq] at hmap
  exact ⟨hmap.2, hfound⟩

/-- The current token is the first of the lexemes. -/
theorem Faces.current (h : s.Faces (l :: ls)) : s.current.lexeme = l := by
  have hmap := h.1
  rw [remaining, List.map_cons, List.cons.injEq] at hmap
  exact hmap.1

theorem Faces.kind (h : s.Faces (l :: ls)) : s.current.kind = l.1 := congrArg Prod.fst h.current

/-- Lexemes that come next are ahead. -/
theorem Awaits.ahead_ne_nil (h : s.Awaits ls) (hls : ls ≠ []) : s.ahead ≠ [] := by
  intro hnil
  have hmap := h.1
  rw [hnil] at hmap
  exact hls hmap.symm

/-- The next token is the first of the lexemes that come next. -/
theorem Awaits.kind_next (h : s.Awaits (l :: ls)) : s.next.kind = l.1 := by
  have hmap := h.1
  rw [ahead_eq (h.ahead_ne_nil (List.cons_ne_nil _ _)), List.map_cons, List.cons.injEq] at hmap
  exact congrArg Prod.fst hmap.1

/-- Moving on leads to the first of the lexemes that come next. -/
theorem Awaits.advance (h : s.Awaits ls) (hls : ls ≠ []) : s.advance.Faces ls := by
  have hne := h.ahead_ne_nil hls
  obtain ⟨hmap, hfound⟩ := h
  refine ⟨?_, by rw [found_advance, hfound]⟩
  rw [← hmap, ahead_eq hne, remaining, current_advance hne]

end ParserState

open ParserState Parse

/-! ## Readers that find what they look for -/

namespace Parse

variable {α β : Type} {m : Parse α} {f : α → Parse β} {s : ParserState} {l : Lexeme}
  {ls : List Lexeme} {Q : β → ParserState → Prop}

namespace Ensures

/-- What follows a move starts at the first of the lexemes that came next. -/
theorem advance_bind {f : Unit → Parse β} (hs : s.Awaits ls) (hls : ls ≠ [])
    (h : ∀ s', s'.Faces ls → (f ()).Ensures s' Q) : (advance >>= f).Ensures s Q :=
  h s.advance (hs.advance hls)

/-- A demanded token that comes next. -/
theorem demand {kind : TokenKind} {literal : Bytes} {x : β} {rest : Parse β}
    (hs : s.Awaits ((kind, literal) :: ls))
    (h : ∀ s', s'.Faces ((kind, literal) :: ls) → rest.Ensures s' Q) :
    (expect kind >>= fun b => if (!b) = true then Pure.pure x else rest).Ensures s Q := by
  intro b s' hrun
  simp only [Bind.bind, StateT.bind, expect_of_kind_eq hs.kind_next] at hrun
  exact h s.advance (hs.advance (List.cons_ne_nil _ _)) b s' hrun

/-- A demanded token that comes next, and ends the reader. -/
theorem demand_last {kind : TokenKind} {literal : Bytes} {x y : β}
    (hs : s.Awaits ((kind, literal) :: ls)) (h : ∀ s', s'.Faces ((kind, literal) :: ls) → Q y s') :
    (expect kind >>= fun b => if b = true then Pure.pure y else Pure.pure x).Ensures s Q := by
  intro b s' hrun
  simp only [Bind.bind, StateT.bind, expect_of_kind_eq hs.kind_next] at hrun
  cases hrun
  exact h s.advance (hs.advance (List.cons_ne_nil _ _))

/-- A semicolon that comes next is moved over. -/
theorem skipSemicolon_bind {f : Unit → Parse β} (hs : s.Awaits (l :: ls)) (hl : l.1 = .semicolon)
    (h : ∀ s', s'.Faces (l :: ls) → (f ()).Ensures s' Q) : (skipSemicolon >>= f).Ensures s Q := by
  intro b s' hrun
  simp only [Bind.bind, StateT.bind, skipSemicolon_eq, if_pos (hs.kind_next.trans hl)] at hrun
  exact h s.advance (hs.advance (List.cons_ne_nil _ _)) b s' hrun

/-- Where no semicolon comes next, nothing is moved over. -/
theorem skipSemicolon_bind_of_ne {f : Unit → Parse β} (hs : s.Awaits (l :: ls))
    (hl : l.1 ≠ .semicolon) (h : (f ()).Ensures s Q) : (skipSemicolon >>= f).Ensures s Q := by
  intro b s' hrun
  simp only [Bind.bind, StateT.bind, skipSemicolon_eq, if_neg (hs.kind_next ▸ hl)] at hrun
  exact h b s' hrun

end Ensures

end Parse

/-! ## What an expression starts and ends with -/

/-- The kinds of tokens that an expression can start with. -/
def TokenKind.opensExpression : TokenKind → Bool
  | .ident | .int | .float | .double | .string | .true_ | .false_ | .bang | .minus | .lparen
  | .lbracket | .lbrace | .if_ | .for_ | .function => true
  | _ => false

/-- The kinds of tokens that end every expression before them. -/
def TokenKind.endsExpression : TokenKind → Bool
  | .rparen | .rbracket | .rbrace | .comma | .colon | .semicolon | .eof => true
  | _ => false

/-- The kinds of tokens that a conditional goes on with. -/
def TokenKind.continuesBranch : TokenKind → Bool
  | .elif | .else_ => true
  | _ => false

/-- A token that ends expressions is no operator, starts no expression and goes on with no
conditional. -/
theorem TokenKind.endsExpression_spec {kind : TokenKind} (h : kind.endsExpression) :
    kind.strength.rank = 0 ∧ kind.opensExpression = false ∧ kind.continuesBranch = false := by
  revert h
  cases kind <;> decide

/-- The first lexeme ends every expression before it. -/
def Closes (ls : List Lexeme) : Prop := ∃ l tail, ls = l :: tail ∧ l.1.endsExpression

/-! ## Operands and operators -/

section Operators

variable {g : Grammar Parse} {n m : Nat} {p : Strength} {left e : Expr}
  {s : ParserState} {l : Lexeme} {ls tail : List Lexeme} {r : Expr × ParserState}

/-- An operator that binds tightly enough is read. -/
theorem operators_step {R : Expr → ParserState → Prop} (hs : s.Awaits (l :: ls))
    (hl : p.rank < l.1.strength.rank)
    (hextend : ∀ s', s'.Faces (l :: ls) → (g.extend n s'.current left).Ensures s' R)
    (hrun : g.operators n p m left s = some r) :
    ∃ m' longer s', R longer s' ∧ g.operators n p m' longer s' = some r := by
  cases m with
  | zero => cases hrun
  | succ m =>
    -- There is a token ahead, so the operator that was looked at is the current token after moving
    -- on.
    have hnext : s.next = s.advance.current :=
      (current_advance (hs.ahead_ne_nil (List.cons_ne_nil _ _))).symm
    simp only [Grammar.operators, tokensAhead_bind, goOn_bind, liftM_eq] at hrun
    have hrun : (if p.rank < s.next.kind.strength.rank then do
        advance
        let longer ← g.extend n s.next left
        g.operators n p m longer
      else return left : Parse Expr) s = some r := hrun
    rw [if_pos (hs.kind_next ▸ hl), hnext] at hrun
    have hrun : (g.extend n s.advance.current left >>= g.operators n p m) s.advance = some r := hrun
    obtain ⟨longer, s', hfirst, hrest⟩ := exists_of_bind hrun
    exact ⟨m, longer, s', hextend _ (hs.advance (List.cons_ne_nil _ _)) _ _ hfirst, hrest⟩

/-- An operator that does not bind tightly enough is left over. -/
theorem operators_stop (hs : s.Awaits (l :: ls)) (hl : l.1.strength.rank ≤ p.rank)
    (hrun : g.operators n p m left s = some r) : r = (left, s) := by
  cases m with
  | zero => cases hrun
  | succ m =>
    simp only [Grammar.operators, tokensAhead_bind, goOn_bind, liftM_eq] at hrun
    have hrun : (if p.rank < s.next.kind.strength.rank then do
        advance
        let longer ← g.extend n s.next left
        g.operators n p m longer
      else return left : Parse Expr) s = some r := hrun
    rw [hs.kind_next, if_neg (Nat.not_lt.mpr hl)] at hrun
    cases hrun
    rfl

/-- An expression is an operand and the operators behind it. -/
theorem expression_operand {R : Expr → ParserState → Prop}
    (h : ∀ k, ((grammar k).operand k s.current).Ensures s fun o s' => ∃ a, o = some a ∧ R a s')
    (hrun : (grammar n).expression p s = some r) :
    ∃ k a s', R a s' ∧ (grammar k).operators k p k a s' = some r := by
  cases n with
  | zero => cases hrun
  | succ n =>
    have hrun : (grammar n).expressionStep n p s = some r := hrun
    simp only [Grammar.expressionStep, call_bind, liftM_eq] at hrun
    obtain ⟨t, s₁, hcurrent, hrun⟩ := exists_of_bind hrun
    cases hcurrent
    obtain ⟨o, s', hfirst, hrest⟩ := exists_of_bind hrun
    obtain ⟨a, rfl, hread⟩ := h n _ _ hfirst
    exact ⟨n, a, s', hread, hrest⟩

end Operators

/-! ## Phrases -/

/-- Lexemes of an expression, and what the expression is. -/
structure Phrase where
  lexemes : List Lexeme
  means : Expr → Prop

/-- What is read over the lexemes of a phrase is what the phrase says. -/
structure Phrase.Reads (p : Phrase) : Prop where
  opens : ∃ kind literal rest, p.lexemes = (kind, literal) :: rest ∧ kind.opensExpression
  whole : ∀ (n : Nat) (s : ParserState) (ls : List Lexeme), Closes ls → s.Faces (p.lexemes ++ ls) →
    ((grammar n).expression .lowest).Ensures s fun a s' => p.means a ∧ s'.Awaits ls

/-- Pieces with commas between them. -/
def separated : List (List Lexeme) → List Lexeme
  | [] => []
  | ls :: more => ls ++ more.flatMap ((.comma, []) :: ·)

section Phrases

variable {p : Phrase} {ps : List Phrase} {n bound : Nat} {s : ParserState} {close : TokenKind}
  {ls tail : List Lexeme}

namespace Phrase

/-- A phrase is read as a weaker statement says where it is read as a stronger one says. -/
theorem Reads.imp (h : p.Reads) {P : Expr → Prop} (himp : ∀ a, p.means a → P a) :
    Reads ⟨p.lexemes, P⟩ := by
  refine ⟨h.opens, fun n s ls hls hs a s' hrun => ?_⟩
  obtain ⟨hmeans, hs'⟩ := h.whole n s ls hls hs a s' hrun
  exact ⟨himp a hmeans, hs'⟩

/-- A phrase that is an operand, since no operator can follow it. -/
theorem Reads.of_operand (hopens : ∃ kind literal rest, p.lexemes = (kind, literal) :: rest ∧
    kind.opensExpression)
    (h : ∀ (n : Nat) (s : ParserState) (ls : List Lexeme), Closes ls → s.Faces (p.lexemes ++ ls) →
      ((grammar n).operand n s.current).Ensures s fun o s' => ∃ a, o = some a ∧ p.means a ∧
        s'.Awaits ls) :
    p.Reads := by
  refine ⟨hopens, fun n s ls hls hs a s' hrun => ?_⟩
  obtain ⟨k, b, s₁, hread, hrest⟩ :=
    expression_operand (R := fun a s' => p.means a ∧ s'.Awaits ls) (fun k => h k s ls hls hs) hrun
  -- What closes an expression is no operator, so the operand is all of it.
  obtain ⟨l, tail, rfl, hl⟩ := hls
  have hrank : l.1.strength.rank ≤ Strength.lowest.rank :=
    Nat.le_of_eq (TokenKind.endsExpression_spec hl).1
  cases operators_stop hread.2 hrank hrest
  exact hread

/-- A phrase does not start with a token that ends an expression. -/
theorem Reads.kind_next_ne (h : p.Reads) (hclose : close.endsExpression)
    (hs : s.Awaits (p.lexemes ++ ls)) :
    s.next.kind ≠ close := by
  obtain ⟨kind, literal, rest, hlexemes, hkind⟩ := h.opens
  rw [hlexemes] at hs
  rw [hs.kind_next]
  rintro rfl
  rw [(TokenKind.endsExpression_spec hclose).2.1] at hkind
  cases hkind

/-- Reading that stands at a phrase stands at a token that an expression can start with. -/
theorem Reads.opens_current (h : p.Reads) (hs : s.Faces (p.lexemes ++ ls)) :
    s.current.kind.opensExpression := by
  obtain ⟨kind, literal, rest, hlexemes, hkind⟩ := h.opens
  rw [hlexemes] at hs
  rw [hs.kind]
  exact hkind

/-- A phrase has lexemes. -/
theorem Reads.lexemes_ne_nil (h : p.Reads) (ls : List Lexeme) : p.lexemes ++ ls ≠ [] := by
  obtain ⟨kind, literal, rest, hlexemes, -⟩ := h.opens
  simp [hlexemes]

end Phrase

/-- What stands behind a piece: a comma or the closing token. -/
theorem closes_more (more : List (List Lexeme)) (hclose : close.endsExpression) :
    Closes (more.flatMap ((.comma, []) :: ·) ++ (close, []) :: tail) := by
  cases more with
  | nil => exact ⟨_, _, rfl, hclose⟩
  | cons ls more => exact ⟨_, _, rfl, rfl⟩

/-- Phrases that each stand behind a comma. -/
theorem ensures_moreExpressions (hps : ∀ p ∈ ps, p.Reads) (hcomma : close ≠ .comma)
    (hclose : close.endsExpression)
    (hs : s.Awaits ((ps.map Phrase.lexemes).flatMap ((.comma, []) :: ·) ++ (close, []) :: tail)) :
    ((grammar n).moreExpressions bound).Ensures s fun es s' =>
      List.Forall₂ Phrase.means ps es ∧ s'.Awaits ((close, []) :: tail) := by
  induction bound generalizing ps s with
  | zero => exact .exhausted
  | succ bound ih =>
    simp only [Grammar.moreExpressions, tokensAhead_bind, goOn_bind, liftM_eq]
    refine .next_bind ?_
    cases ps with
    | nil =>
      -- The closing token comes next, and that is no comma.
      rw [if_neg (by rw [hs.kind_next]; exact hcomma)]
      exact .pure ⟨.nil, hs⟩
    | cons p ps =>
      obtain ⟨hp, hps⟩ := List.forall_mem_cons.mp hps
      rw [List.map_cons, List.flatMap_cons, List.append_assoc, List.cons_append] at hs
      rw [if_pos hs.kind_next]
      refine .advance_bind hs (by simp) fun s₁ hs₁ => ?_
      refine .advance_bind hs₁.awaits (hp.lexemes_ne_nil _) fun s₂ hs₂ => ?_
      -- What comes behind the phrase is a comma or the closing token, and both end it.
      refine .bind (hp.whole _ _ _ (closes_more _ hclose) hs₂) ?_
      rintro a s₃ ⟨ha, hs₃⟩
      refine .bind (ih hps hs₃) ?_
      rintro es s₄ ⟨hes, hs₄⟩
      exact .pure ⟨.cons ha hes, hs₄⟩

/-- Phrases between commas, and a closing token. -/
theorem ensures_expressions (hps : ∀ p ∈ ps, p.Reads) (hcomma : close ≠ .comma)
    (hclose : close.endsExpression)
    (hs : s.Awaits (separated (ps.map Phrase.lexemes) ++ (close, []) :: tail)) :
    ((grammar n).expressions bound close).Ensures s fun es s' =>
      List.Forall₂ Phrase.means ps es ∧ s'.Awaits tail := by
  simp only [Grammar.expressions, call_bind, liftM_eq]
  refine .next_bind ?_
  cases ps with
  | nil =>
    rw [if_pos hs.kind_next]
    exact .advance_bind hs (by simp) fun s₁ hs₁ => .pure ⟨.nil, hs₁.awaits⟩
  | cons p ps =>
    obtain ⟨hp, hps⟩ := List.forall_mem_cons.mp hps
    rw [List.map_cons, separated, List.append_assoc] at hs
    -- A phrase opens an expression, and the closing token does not.
    rw [if_neg (hp.kind_next_ne hclose hs)]
    refine .advance_bind hs (hp.lexemes_ne_nil _) fun s₁ hs₁ => ?_
    refine .bind (hp.whole _ _ _ (closes_more _ hclose) hs₁) ?_
    rintro a s₂ ⟨ha, hs₂⟩
    refine .bind (ensures_moreExpressions hps hcomma hclose hs₂) ?_
    rintro es s₃ ⟨hes, hs₃⟩
    exact .demand_last hs₃ fun s₄ hs₄ => ⟨.cons ha hes, hs₄.awaits⟩

/-- The lexemes of a key and its value. -/
def pairLexemes (pair : Phrase × Phrase) : List Lexeme :=
  pair.1.lexemes ++ (.colon, []) :: pair.2.lexemes

/-- Pairs of phrases between commas, and a closing brace. -/
theorem ensures_pairs {pairs : List (Phrase × Phrase)}
    (hpairs : ∀ pair ∈ pairs, pair.1.Reads ∧ pair.2.Reads)
    (hs : s.Awaits (separated (pairs.map pairLexemes) ++ (.rbrace, []) :: tail)) :
    ((grammar n).pairs bound).Ensures s fun o s' => ∃ es, o = some es ∧
      List.Forall₂ (fun pair e => pair.1.means e.1 ∧ pair.2.means e.2) pairs es ∧
        s'.Awaits tail := by
  induction bound generalizing pairs s with
  | zero => exact .exhausted
  | succ bound ih =>
    simp only [Grammar.pairs, tokensAhead_bind, goOn_bind, liftM_eq]
    refine .next_bind ?_
    cases pairs with
    | nil =>
      rw [if_pos hs.kind_next]
      exact .advance_bind hs (by simp) fun s₁ hs₁ => .pure ⟨[], rfl, .nil, hs₁.awaits⟩
    | cons pair pairs =>
      obtain ⟨⟨hk, hv⟩, hpairs⟩ := List.forall_mem_cons.mp hpairs
      rw [List.map_cons, separated, pairLexemes, List.append_assoc, List.append_assoc,
        List.cons_append] at hs
      rw [if_neg (hk.kind_next_ne rfl hs)]
      refine .advance_bind hs (hk.lexemes_ne_nil _) fun s₁ hs₁ => ?_
      refine .bind (hk.whole _ _ _ ⟨_, _, rfl, rfl⟩ hs₁) ?_
      rintro k s₂ ⟨hk, hs₂⟩
      refine .demand hs₂ fun s₃ hs₃ =>
        .advance_bind hs₃.awaits (hv.lexemes_ne_nil _) fun s₄ hs₄ => ?_
      refine .bind (hv.whole _ _ _ (closes_more _ rfl) hs₄) ?_
      rintro v s₅ ⟨hv, hs₅⟩
      refine .next_bind ?_
      -- The other pairs are read in the same way behind a comma and without one.
      have hmore : ∀ s₆, s₆.Awaits (separated (pairs.map pairLexemes) ++ (.rbrace, []) :: tail) →
          ((grammar n).pairs bound >>= fun o => pure (o.map ((k, v) :: ·))).Ensures s₆
            fun o s' => ∃ es,
            o = some es ∧ List.Forall₂ (fun pair e => pair.1.means e.1 ∧ pair.2.means e.2)
              (pair :: pairs) es ∧
              s'.Awaits tail := by
        intro s₆ hs₆
        refine .bind (ih hpairs hs₆) ?_
        rintro o s₇ ⟨es, rfl, hes, hs₇⟩
        exact .pure ⟨(k, v) :: es, rfl, .cons ⟨hk, hv⟩ hes, hs₇⟩
      cases pairs with
      | nil =>
        rw [if_neg (by simp [hs₅.kind_next])]
        exact hmore s₅ hs₅
      | cons pair pairs =>
        rw [List.map_cons, List.flatMap_cons, List.append_assoc] at hs₅
        rw [if_pos (by simp [hs₅.kind_next])]
        refine .demand hs₅ fun s₆ hs₆ => hmore s₆ ?_
        rw [List.map_cons, separated, List.append_assoc]
        exact hs₆.awaits

/-- An array of phrases. -/
theorem ensures_array (hps : ∀ p ∈ ps, p.Reads)
    (hs : s.Faces ((.lbracket, []) ::
      (separated (ps.map Phrase.lexemes) ++ (.rbracket, []) :: tail))) :
    ((grammar n).operand n s.current).Ensures s fun o s' =>
      ∃ pos es, o = some (.array pos es) ∧ List.Forall₂ Phrase.means ps es ∧ s'.Awaits tail := by
  have hkind : s.current.kind = .lbracket := hs.kind
  simp only [Grammar.operand, call_bind, hkind]
  refine .bind (ensures_expressions hps (by decide) rfl hs.awaits) ?_
  rintro es s₁ ⟨hes, hs₁⟩
  exact .pure ⟨_, es, rfl, hes, hs₁⟩

/-- A hash of phrases. -/
theorem ensures_hash {pairs : List (Phrase × Phrase)}
    (hpairs : ∀ pair ∈ pairs, pair.1.Reads ∧ pair.2.Reads)
    (hs : s.Faces ((.lbrace, []) :: (separated (pairs.map pairLexemes) ++ (.rbrace, []) :: tail))) :
    ((grammar n).operand n s.current).Ensures s fun o s' => ∃ pos es, o = some (.hash pos es) ∧
      List.Forall₂ (fun pair e => pair.1.means e.1 ∧ pair.2.means e.2) pairs es ∧
        s'.Awaits tail := by
  have hkind : s.current.kind = .lbrace := hs.kind
  simp only [Grammar.operand, call_bind, hkind]
  refine .bind (ensures_pairs hpairs hs.awaits) ?_
  rintro _ s₁ ⟨es, rfl, hes, hs₁⟩
  exact .pure ⟨_, es, rfl, hes, hs₁⟩

/-- A statement that consists of a phrase. -/
theorem Phrase.Reads.statement (h : p.Reads) (hls : Closes ls)
    (hsemi : ∀ l ∈ ls.head?, l.1 ≠ .semicolon) (hs : s.Faces (p.lexemes ++ ls)) :
    (grammar n).statement.Ensures s fun o s' =>
      ∃ t a, o = some (.expression t a) ∧ p.means a ∧ s'.Awaits ls := by
  cases n with
  | zero => exact .exhausted
  | succ n =>
    have hbody : Parse.Ensures (do
        let value ← (grammar n).expression .lowest
        skipSemicolon
        return some (Stmt.expression s.current value)) s fun o s' =>
          ∃ t a, o = some (.expression t a) ∧ p.means a ∧ s'.Awaits ls := by
      refine .bind (h.whole n s ls hls hs) ?_
      rintro a s₁ ⟨ha, hs₁⟩
      obtain ⟨l, tail, rfl, -⟩ := hls
      exact .skipSemicolon_bind_of_ne hs₁ (hsemi l rfl) (.pure ⟨_, a, rfl, ha, hs₁⟩)
    -- What opens an expression is no keyword of a statement.
    have hopens := h.opens_current hs
    show (grammar n).statementStep.Ensures s _
    simp only [Grammar.statementStep, call_bind, liftM_eq]
    refine .current_bind ?_
    generalize s.current.kind = kind at hopens
    split
    · cases hopens
    · cases hopens
    · cases hopens
    · exact hbody

/-- Statements up to the end of a source that consists of a phrase. -/
theorem Phrase.Reads.statements (h : p.Reads) (hs : s.Faces (p.lexemes ++ [(.eof, [])])) :
    ((grammar n).statements (· == .eof) bound).Ensures s fun ss s' =>
      ∃ t a, ss = [.expression t a] ∧ p.means a ∧ s'.found = [] := by
  -- There is a statement to read, as no expression opens with the end token.
  have hcurrent : s.current.kind ≠ .eof := by
    intro heof
    have hopens := h.opens_current hs
    rw [heof] at hopens
    cases hopens
  obtain _ | bound := bound
  · exact .exhausted
  simp only [Grammar.statements, tokensAhead_bind, goOn_bind, liftM_eq]
  refine .current_bind ?_
  rw [if_neg (by simpa using hcurrent)]
  refine .bind (h.statement ⟨_, _, rfl, rfl⟩ (by simp) hs) ?_
  rintro o s₁ ⟨t, a, rfl, ha, hs₁⟩
  refine .advance_bind hs₁ (by simp) fun s₂ hs₂ => ?_
  -- Behind it stands the end token, so there is no second one.
  have hend : ((grammar n).statements (· == .eof) bound).Ensures s₂ fun ss s' => ss = [] ∧
    s'.found = [] := by
    obtain _ | bound := bound
    · exact .exhausted
    · simp only [Grammar.statements, tokensAhead_bind, goOn_bind, liftM_eq]
      refine .current_bind ?_
      rw [if_pos (by simp [hs₂.kind])]
      exact .pure ⟨rfl, hs₂.2⟩
  refine .bind hend ?_
  rintro ss s₃ ⟨rfl, hfound⟩
  exact .pure ⟨t, a, rfl, ha, hfound⟩

/-- A source that consists of a phrase is read without a fault, as one statement. -/
theorem Phrase.Reads.parse (h : p.Reads) {src : Bytes}
    (hsrc : Rill.lexemes src = p.lexemes ++ [(.eof, [])]) :
    ∃ t a, Rill.parse src = ⟨⟨[.expression t a]⟩, []⟩ ∧ p.means a := by
  obtain ⟨t, rest, ss, s₁, htokens, -, hrun, hparse⟩ := exists_parse src
  have hfaces : Faces ⟨t, rest, []⟩ (p.lexemes ++ [(.eof, [])]) := by
    rw [← hsrc, Rill.lexemes, htokens]
    exact ⟨rfl, rfl⟩
  obtain ⟨t, a, rfl, ha, hfound⟩ := h.statements hfaces ss s₁ hrun
  exact ⟨t, a, by rw [hparse, hfound]; rfl, ha⟩

end Phrases

end Rill
