import Rill.Proofs.Tree.Phrase
import Rill.Proofs.Tree.Printed

/-!
# Reading a canonical form

A program that was read from a source without a fault, and whose canonical form can be read again,
is what its canonical form is read as.

* `Expr.Rereads`: reading an expression over the lexemes of `e` gives `e`, and goes on with the
  operators behind it.
* `parse_render_parse`: reading the canonical form of a program that was read.
-/

namespace Rill

open ParserState Parse

/-! ## What the lexemes of a tree start with -/

/-- The canonical form of an expression starts with a token that opens an expression. -/
theorem Expr.lexemes_eq_cons : ∀ (e : Expr), e.Legible →
    ∃ kind literal ls, e.lexemes = (kind, literal) :: ls ∧ kind.opensExpression
  | .missing, h => h.elim
  | .boolean _ value, _ => by cases value <;> exact ⟨_, _, _, rfl, rfl⟩
  | .call _ callee arguments, h => by
    obtain ⟨kind, literal, ls, hcallee, hkind⟩ := callee.lexemes_eq_cons h.1
    rw [Expr.lexemes, hcallee]
    exact ⟨kind, literal, _, rfl, hkind⟩
  | .ident _, _ | .integer .., _ | .float .., _ | .double .., _ | .string .., _ | .array ..,
      _ | .hash .., _
  | .prefixed .., _ | .infixed .., _ | .index .., _ | .function .., _ | .conditional ..,
      _ | .loop .., _ =>
    ⟨_, _, _, rfl, rfl⟩

/-- No statement starts with a closing brace or the end of the source. -/
theorem Stmt.lexemes_eq_cons (st : Stmt) (h : st.Legible) :
    ∃ kind literal ls, st.lexemes = (kind, literal) :: ls ∧ kind ≠ .rbrace ∧ kind ≠ .eof := by
  cases st with
  | binding => exact ⟨_, _, _, rfl, by decide, by decide⟩
  | returned => exact ⟨_, _, _, rfl, by decide, by decide⟩
  | broken => exact ⟨_, _, _, rfl, by decide, by decide⟩
  | expression first value =>
    obtain ⟨kind, literal, ls, hvalue, hkind⟩ := value.lexemes_eq_cons h
    refine ⟨kind, literal, ls, hvalue, ?_, ?_⟩ <;> rintro rfl <;> cases hkind

/-- Where reading stands behind an expression that is `e` up to offsets. -/
def Expr.RereadAs (e : Expr) (tail : List Lexeme) (a : Expr) (s : ParserState) : Prop :=
  a.unplaced = e.unplaced ∧ s.Awaits tail

/-- Reading an expression over the lexemes of `e` goes on with the operators behind `e`. -/
def Expr.Rereads (e : Expr) : Prop :=
  ∀ (n : Nat) (p : Strength) (s : ParserState) (l : Lexeme) (tail : List
    Lexeme) (r : Expr × ParserState),
    p.rank < Strength.call.rank → l.1.continuesBranch = false → s.Faces (e.lexemes ++ l :: tail) →
    (grammar n).expression p s = some r →
      ∃ k m left s', e.RereadAs (l :: tail) left s' ∧ (grammar k).operators k p m left s' = some r

/-- Reading an operand over the lexemes of `e` gives `e`. -/
def Expr.RereadsOperand (e : Expr) : Prop :=
  ∀ (n : Nat) (s : ParserState) (l : Lexeme) (tail : List Lexeme), l.1.continuesBranch = false →
    s.Faces (e.lexemes ++ l :: tail) →
    ((grammar n).operand n s.current).Ensures s fun o s' => ∃ a, o = some a ∧
      e.RereadAs (l :: tail) a s'

/-- The lexemes of `e` are in parentheses, and reading what is between them gives `e`. -/
def Expr.RereadsInside (e : Expr) : Prop :=
  ∃ inner, e.lexemes = (.lparen, []) :: inner ++ [(.rparen, [])] ∧
    ∀ (n : Nat) (s : ParserState) (tail : List Lexeme), s.Faces (inner ++ (.rparen, []) :: tail) →
      ((grammar n).expression .lowest).Ensures s (e.RereadAs ((.rparen, []) :: tail))

section Rereads

variable {e : Expr} {n : Nat} {p : Strength} {s : ParserState} {l : Lexeme} {tail : List Lexeme}

/-- Where the operator behind an expression does not bind tightly enough, the expression ends. -/
theorem Expr.Rereads.expression (h : e.Rereads) (hp : p.rank < Strength.call.rank)
    (hl : l.1.strength.rank ≤ p.rank) (hbranch : l.1.continuesBranch = false)
    (hs : s.Faces (e.lexemes ++ l :: tail)) :
    ((grammar n).expression p).Ensures s (e.RereadAs (l :: tail)) := by
  intro a s' hrun
  obtain ⟨k, m, left, s₁, hleft, hrest⟩ := h n p s l tail _ hp hbranch hs hrun
  cases operators_stop hleft.2 hl hrest
  exact hleft

/-- An expression in a place where any operator may stand. -/
theorem Expr.Rereads.whole (h : e.Rereads) {ls : List Lexeme} (hls : Closes ls)
    (hs : s.Faces (e.lexemes ++ ls)) :
    ((grammar n).expression .lowest).Ensures s (e.RereadAs ls) := by
  obtain ⟨l, tail, rfl, hl⟩ := hls
  obtain ⟨hrank, -, hbranch⟩ := TokenKind.endsExpression_spec hl
  exact h.expression (by decide) (Nat.le_of_eq hrank) hbranch hs

/-- An expression that is read again as an operand is read again. -/
theorem Expr.RereadsOperand.rereads (h : e.RereadsOperand) : e.Rereads := by
  intro n p s l tail r hp hl hs hrun
  obtain ⟨k, a, s', hread, hrest⟩ := expression_operand (fun k => h k s l tail hl hs) hrun
  exact ⟨k, k, a, s', hread, hrest⟩

/-- Parentheses around what reads as `e` read as `e`. -/
theorem Expr.RereadsInside.rereads (h : e.RereadsInside) : e.Rereads := by
  obtain ⟨inner, hlexemes, hinner⟩ := h
  refine RereadsOperand.rereads fun n s l tail hl hs => ?_
  rw [hlexemes] at hs
  have hawaits : s.Awaits (inner ++ (.rparen, []) :: l :: tail) := by simpa using hs.awaits
  have hkind : s.current.kind = .lparen := hs.kind
  simp only [Grammar.operand, call_bind, liftM_eq, hkind]
  refine .advance_bind hawaits (by simp) fun s₁ hs₁ => ?_
  refine .bind (hinner n s₁ (l :: tail) hs₁) ?_
  rintro a s₂ ⟨ha, hs₂⟩
  exact .demand_last hs₂ fun s₃ hs₃ => ⟨a, rfl, ha, hs₃.awaits⟩

end Rereads

/-! ## Leaves -/

section Leaves

variable {pos : Nat} {spelling : Bytes}

/-- A name is read again. -/
theorem rereads_ident (name : Name) : (Expr.ident name).Rereads := by
  refine Expr.RereadsOperand.rereads fun n s l tail hl hs => ?_
  have hkind : s.current.kind = .ident := hs.kind
  have hliteral : s.current.literal = name.text := Token.literal_of_lexeme hs.current rfl
  simp only [Grammar.operand, call_bind, hkind]
  exact .pure ⟨_, rfl, by simp only [Expr.unplaced, Name.unplaced, hliteral], hs.awaits⟩

/-- A whole number that is legible fits in 64 bits, so it is read again. -/
theorem rereads_integer {value : Int64} (h : (Expr.integer pos spelling value).Legible) :
    (Expr.integer pos spelling value).Rereads := by
  refine Expr.RereadsOperand.rereads fun n s l tail hl hs => ?_
  have hkind : s.current.kind = .int := hs.kind
  have hliteral : s.current.literal = spelling := Token.literal_of_lexeme hs.current rfl
  simp only [Grammar.operand, call_bind, liftM_eq, hkind]
  refine .map ?_
  rw [Grammar.integer, hliteral, if_pos h.2.1]
  exact .pure ⟨_, rfl, by rw [Expr.unplaced, Expr.unplaced, h.2.2], hs.awaits⟩

/-- A legible number of 32 bits is finite, so it is read again. -/
theorem rereads_float {value : Float32} (h : (Expr.float pos spelling value).Legible) :
    (Expr.float pos spelling value).Rereads := by
  refine Expr.RereadsOperand.rereads fun n s l tail hl hs => ?_
  have hkind : s.current.kind = .float := hs.kind
  have hliteral : s.current.literal = spelling := Token.literal_of_lexeme hs.current rfl
  simp only [Grammar.operand, call_bind, liftM_eq, hkind]
  refine .map ?_
  rw [Grammar.float, hliteral, h.2.2]
  dsimp only
  rw [if_pos h.2.1]
  exact .pure ⟨_, rfl, rfl, hs.awaits⟩

/-- A legible number of 64 bits is finite, so it is read again. -/
theorem rereads_double {value : Float} (h : (Expr.double pos spelling value).Legible) :
    (Expr.double pos spelling value).Rereads := by
  refine Expr.RereadsOperand.rereads fun n s l tail hl hs => ?_
  have hkind : s.current.kind = .double := hs.kind
  have hliteral : s.current.literal = spelling := Token.literal_of_lexeme hs.current rfl
  simp only [Grammar.operand, call_bind, liftM_eq, hkind]
  refine .map ?_
  rw [Grammar.double, hliteral, h.2.2]
  dsimp only
  rw [if_pos h.2.1]
  exact .pure ⟨_, rfl, rfl, hs.awaits⟩

/-- A boolean is read again. -/
theorem rereads_boolean (value : Bool) : (Expr.boolean pos value).Rereads := by
  refine Expr.RereadsOperand.rereads fun n s l tail hl hs => ?_
  have hkind : s.current.kind = if value then .true_ else .false_ := hs.kind
  simp only [Grammar.operand, call_bind, liftM_eq, hkind]
  cases value <;> exact .pure ⟨_, rfl, rfl, hs.awaits⟩

/-- A text is read again. -/
theorem rereads_string (value : Bytes) : (Expr.string pos value).Rereads := by
  refine Expr.RereadsOperand.rereads fun n s l tail hl hs => ?_
  have hkind : s.current.kind = .string := hs.kind
  have hliteral : s.current.literal = value := Token.literal_of_lexeme hs.current rfl
  simp only [Grammar.operand, call_bind, hkind]
  exact .pure ⟨_, rfl, by rw [hliteral]; rfl, hs.awaits⟩

end Leaves

/-! ## Operators -/

section Compound

variable {pos : Nat} {e left right key : Expr}

/-- A prefix operator and its operand, in front of what ends every expression. -/
theorem ensures_prefixed (op : PrefixOp) (h : e.Rereads) {n : Nat} {s : ParserState}
    {ls : List Lexeme} (hls : Closes ls) (hs : s.Faces ((op.kind, []) :: (e.lexemes ++ ls))) :
    ((grammar n).operand n s.current).Ensures s fun o s' =>
      ∃ a, o = some a ∧ (Expr.prefixed pos op e).RereadAs ls a s' := by
  obtain ⟨l, tail, rfl, hl⟩ := hls
  obtain ⟨hrank, -, hbranch⟩ := TokenKind.endsExpression_spec hl
  -- Both prefix operators are read in the same steps.
  have hbody : Parse.Ensures (do
      advance
      return some (.prefixed s.current.pos op (← (grammar n).expression .prefixed))) s
      fun o s' => ∃ a, o = some a ∧ (Expr.prefixed pos op e).RereadAs (l :: tail) a s' := by
    refine .advance_bind hs.awaits (by simp) fun s₁ hs₁ => ?_
    refine .bind (h.expression (by decide) (by omega) hbranch hs₁) ?_
    rintro a s₂ ⟨ha, hs₂⟩
    refine .pure ?_
    exact ⟨_, rfl, by simp only [Expr.unplaced, ha], hs₂⟩
  have hkind : s.current.kind = op.kind := hs.kind
  simp only [Grammar.operand, call_bind, liftM_eq, hkind]
  cases op <;> exact hbody

/-- A prefix operator with an operand that is read again is read again inside its parentheses. -/
theorem rereadsInside_prefixed (op : PrefixOp) (h : e.Rereads) :
    (Expr.prefixed pos op e).RereadsInside := by
  refine ⟨(op.kind, []) :: e.lexemes, by simp [Expr.lexemes], fun n s tail hs a s' hrun => ?_⟩
  obtain ⟨k, a₁, s₁, hread, hrun⟩ :=
    expression_operand (fun k => ensures_prefixed op h ⟨_, _, rfl, rfl⟩ hs) hrun
  cases operators_stop hread.2 (by decide) hrun
  exact hread

/-- Inside of parentheses, an infix operator and its operands. -/
theorem rereadsInside_infixed (op : InfixOp) (hleft : left.Rereads) (hright : right.Rereads) :
    (Expr.infixed pos op left right).RereadsInside := by
  refine ⟨left.lexemes ++ (op.kind, []) :: right.lexemes, by simp [Expr.lexemes],
    fun n s tail hs a s' hrun => ?_⟩
  -- Behind the left operand reading is in the loop over operators, with what it read so far.
  obtain ⟨k, m, a₁, s₁, ⟨ha₁, hs₁⟩, hrun⟩ :=
    hleft n .lowest s (op.kind, []) (right.lexemes ++ (.rparen, []) :: tail) _ (by decide)
      (by cases op <;> rfl) (by simpa using hs) hrun
  have hextend : ∀ s₂, s₂.Faces ((op.kind, []) :: (right.lexemes ++ (.rparen, []) :: tail)) →
      ((grammar k).extend k s₂.current a₁).Ensures s₂
        ((Expr.infixed pos op left right).RereadAs ((.rparen, []) :: tail)) := by
    intro s₂ hs₂
    have hkind : s₂.current.kind = op.kind := hs₂.kind
    simp only [Grammar.extend, call_bind, liftM_eq, hkind, InfixOp.ofKind?_kind]
    refine .advance_bind hs₂.awaits (by simp) fun s₃ hs₃ => ?_
    refine .bind (hright.expression ?_ (Nat.zero_le _) rfl hs₃) ?_
    · cases op <;> decide
    · rintro a₂ s₄ ⟨ha₂, hs₄⟩
      exact .pure ⟨by simp only [Expr.unplaced, ha₁, ha₂], hs₄⟩
  have hrank : Strength.lowest.rank < (op.kind.strength).rank := by cases op <;> decide
  -- The closing parenthesis binds to nothing, so the loop ends after this one operator.
  obtain ⟨m', longer, s₅, hread, hrun⟩ := operators_step hs₁ hrank hextend hrun
  cases operators_stop hread.2 (by decide) hrun
  exact hread

/-- Inside of parentheses, an index. -/
theorem rereadsInside_index (hleft : left.Rereads) (hkey : key.Rereads) :
    (Expr.index pos left key).RereadsInside := by
  refine ⟨left.lexemes ++ (.lbracket, []) :: key.lexemes ++ [(.rbracket, [])],
    by simp [Expr.lexemes], fun n s tail hs a s' hrun => ?_⟩
  -- The left side is read up to the bracket, which binds tighter than anything before it.
  obtain ⟨k, m, a₁, s₁, ⟨ha₁, hs₁⟩, hrun⟩ := hleft n .lowest s (.lbracket, [])
    (key.lexemes ++ (.rbracket, []) :: (.rparen, []) :: tail) _ (by decide) rfl
      (by simpa using hs) hrun
  have hextend :
    ∀ s₂, s₂.Faces ((.lbracket, []) :: (key.lexemes ++ (.rbracket, []) :: (.rparen, []) :: tail)) →
      ((grammar k).extend k s₂.current a₁).Ensures s₂
        ((Expr.index pos left key).RereadAs ((.rparen, []) :: tail)) := by
    intro s₂ hs₂
    have hkind : s₂.current.kind = .lbracket := hs₂.kind
    simp only [Grammar.extend, call_bind, liftM_eq, hkind]
    refine .advance_bind hs₂.awaits (by simp) fun s₃ hs₃ => ?_
    refine .bind (hkey.expression (by decide) (by decide) rfl hs₃) ?_
    rintro a₂ s₄ ⟨ha₂, hs₄⟩
    exact .demand_last hs₄ fun s₅ hs₅ => ⟨by simp only [Expr.unplaced, ha₁, ha₂], hs₅.awaits⟩
  -- The bracket extends it, and then the closing parenthesis stops the operators.
  obtain ⟨m', longer, s₅, hread, hrun⟩ := operators_step hs₁ (by decide) hextend hrun
  cases operators_stop hread.2 (by decide) hrun
  exact hread

end Compound

/-! ## Collections and calls -/

section Collections

variable {pos n bound : Nat} {es : List Expr} {pairs : List (Expr × Expr)} {s : ParserState}
  {close : TokenKind} {tail : List Lexeme}

/-- An expression that can be read again, with what its lexemes start with. -/
def Expr.Reread (e : Expr) : Prop := e.Legible ∧ e.Rereads

/-- The lexemes of an expression mean the expression. -/
def Expr.phrase (e : Expr) : Phrase := ⟨e.lexemes, fun a => a.unplaced = e.unplaced⟩

/-- An expression that is read again is the reading of its phrase. -/
theorem Expr.Reread.reads {e : Expr} (h : e.Reread) : e.phrase.Reads :=
  ⟨e.lexemes_eq_cons h.1, fun _ _ _ hls hs => h.2.whole hls hs⟩

/-- The lexemes of further elements, each with a comma in front, from the phrases of the
elements. -/
theorem moreElementsLexemes_eq (es : List Expr) :
    moreElementsLexemes es = ((es.map Expr.phrase).map Phrase.lexemes).flatMap
      ((.comma, []) :: ·) := by
  induction es with
  | nil => rfl
  | cons e es ih =>
    rw [moreElementsLexemes, ih]
    rfl

/-- The lexemes of elements, with commas between them, from the phrases of the elements. -/
theorem elementsLexemes_eq (es : List Expr) :
    elementsLexemes es = separated ((es.map Expr.phrase).map Phrase.lexemes) := by
  cases es with
  | nil => rfl
  | cons e es =>
    rw [elementsLexemes, moreElementsLexemes_eq]
    rfl

/-- Phrases that mean expressions with no offset give these expressions without their offsets. -/
theorem unplacedAll_eq {as : List Expr} (h : List.Forall₂ Phrase.means (es.map Expr.phrase) as) :
    unplacedAll as = unplacedAll es := by
  induction es generalizing as with
  | nil =>
    cases h
    rfl
  | cons e es ih =>
    obtain ⟨a, as, ha, has, rfl⟩ := List.forall₂_cons_left_iff.mp h
    have ha : a.unplaced = e.unplaced := ha
    rw [unplacedAll, unplacedAll, ha, ih has]

/-- The phrases of expressions that are read again are read. -/
theorem reads_of_mem_phrases (hes : ∀ e ∈ es, e.Reread) : ∀ p ∈ es.map Expr.phrase, p.Reads := by
  intro p hp
  obtain ⟨e, he, rfl⟩ := List.mem_map.mp hp
  exact (hes e he).reads

/-- An array of expressions that are read again is read again. -/
theorem rereads_array (hes : ∀ e ∈ es, e.Reread) : (Expr.array pos es).Rereads := by
  refine Expr.RereadsOperand.rereads fun n s l tail hl hs => ?_
  have hs : s.Faces ((.lbracket, []) :: (elementsLexemes es ++ (.rbracket, []) :: l :: tail)) := by
    simpa [Expr.lexemes] using hs
  rw [elementsLexemes_eq] at hs
  refine (ensures_array (reads_of_mem_phrases hes) hs).imp ?_
  rintro _ s₁ ⟨pos', as, rfl, has, hs₁⟩
  exact ⟨_, rfl, by simp only [Expr.unplaced, unplacedAll_eq has], hs₁⟩

/-- A call is read again if what is called and its arguments are. -/
theorem rereads_call {callee : Expr} (hcallee : callee.Rereads) (hes : ∀ e ∈ es, e.Reread) :
    (Expr.call pos callee es).Rereads := by
  intro n p s l tail r hp hl hs hrun
  have hs :
    s.Faces (callee.lexemes ++ (.lparen, []) ::
    (elementsLexemes es ++ (.rparen, []) :: l :: tail)) := by
    simpa [Expr.lexemes] using hs
  obtain ⟨k, m, a, s₁, ⟨ha, hs₁⟩, hrun⟩ := hcallee n p s _ _ r hp rfl hs hrun
  have hextend :
    ∀ s₂, s₂.Faces ((.lparen, []) :: (elementsLexemes es ++ (.rparen, []) :: l :: tail)) →
      ((grammar k).extend k s₂.current a).Ensures s₂
        ((Expr.call pos callee es).RereadAs (l :: tail)) := by
    intro s₂ hs₂
    have hkind : s₂.current.kind = .lparen := hs₂.kind
    simp only [Grammar.extend, call_bind, liftM_eq, hkind]
    have hawaits := hs₂.awaits
    rw [elementsLexemes_eq] at hawaits
    refine .bind (ensures_expressions (reads_of_mem_phrases hes) (by decide) rfl hawaits) ?_
    rintro as s₃ ⟨has, hs₃⟩
    refine .pure ?_
    exact ⟨by simp only [Expr.unplaced, ha, unplacedAll_eq has], hs₃⟩
  -- A call joins the callee at every strength in question, and the loop goes on behind it.
  obtain ⟨m', longer, s₄, hread, hrun⟩ := operators_step hs₁ hp hextend hrun
  exact ⟨k, m', longer, s₄, hread, hrun⟩

/-- The lexemes of the pairs of a hash, with commas between them, from the phrases of keys and
values. -/
theorem pairsLexemes_eq (pairs : List (Expr × Expr)) : pairsLexemes pairs =
    separated ((pairs.map fun pair => (pair.1.phrase, pair.2.phrase)).map pairLexemes) := by
  induction pairs with
  | nil => rfl
  | cons pair pairs ih =>
    obtain ⟨k, v⟩ := pair
    rw [pairsLexemes, ih]
    cases pairs with
    | nil => rfl
    | cons pair pairs =>
      simp only [List.map_cons, separated, List.flatMap_cons, pairLexemes, Expr.phrase]
      simp

/-- Phrases of pairs that mean pairs with no offset give these pairs without their offsets. -/
theorem unplacedPairs_eq {as : List (Expr × Expr)}
    (h : List.Forall₂ (fun pair e => pair.1.means e.1 ∧ pair.2.means e.2)
      (pairs.map fun pair => (pair.1.phrase, pair.2.phrase)) as) :
    unplacedPairs as = unplacedPairs pairs := by
  induction pairs generalizing as with
  | nil =>
    cases h
    rfl
  | cons pair pairs ih =>
    obtain ⟨a, as, ⟨hk, hv⟩, has, rfl⟩ := List.forall₂_cons_left_iff.mp h
    have hk : a.1.unplaced = pair.1.unplaced := hk
    have hv : a.2.unplaced = pair.2.unplaced := hv
    rw [unplacedPairs, unplacedPairs, hk, hv, ih has]

/-- A hash of keys and values that are read again is read again. -/
theorem rereads_hash (hpairs : ∀ pair ∈ pairs, pair.1.Reread ∧ pair.2.Reread) :
    (Expr.hash pos pairs).Rereads := by
  refine Expr.RereadsOperand.rereads fun n s l tail hl hs => ?_
  have hs : s.Faces ((.lbrace, []) :: (pairsLexemes pairs ++ (.rbrace, []) :: l :: tail)) := by
    simpa [Expr.lexemes] using hs
  rw [pairsLexemes_eq] at hs
  have hps : ∀ p ∈ pairs.map (fun pair => (pair.1.phrase, pair.2.phrase)), p.1.Reads ∧
    p.2.Reads := by
    intro p hp
    obtain ⟨pair, hpair, rfl⟩ := List.mem_map.mp hp
    exact ⟨(hpairs pair hpair).1.reads, (hpairs pair hpair).2.reads⟩
  refine (ensures_hash hps hs).imp ?_
  rintro _ s₁ ⟨pos', as, rfl, has, hs₁⟩
  exact ⟨_, rfl, by simp only [Expr.unplaced, unplacedPairs_eq has], hs₁⟩

end Collections

/-! ## Statements and blocks -/

/-- Reading a statement over the lexemes of `st` gives `st`. -/
def Stmt.Rereads (st : Stmt) : Prop :=
  ∀ (n : Nat) (s : ParserState) (ls : List Lexeme),
    (st.isExpression → Closes ls ∧ ∀ l ∈ ls.head?, l.1 ≠ .semicolon) → s.Faces (st.lexemes ++ ls) →
      ((grammar n).statement).Ensures s fun o s' =>
        ∃ st', o = some st' ∧ st'.unplaced = st.unplaced ∧ s'.Awaits ls

/-- Reading a block over the lexemes of `b` gives `b`. -/
def Block.Rereads (b : Block) : Prop :=
  ∀ (n depth : Nat) (s : ParserState) (ls : List Lexeme), s.Faces (b.lexemes ++ ls) →
    ((grammar n).block depth).Ensures s fun b' s' => b'.unplaced = b.unplaced ∧ s'.Awaits ls

section Statements

variable {pos n bound : Nat} {e : Expr} {name : Name} {s : ParserState} {ls : List Lexeme}

/-- A name, its value and a semicolon. -/
theorem ensures_binding (he : e.Rereads)
    (hs : s.Awaits ((.ident, name.text) :: (.assign, []) ::
      (e.lexemes ++ (.semicolon, []) :: ls))) :
    (grammar n).binding.Ensures s fun o s' => ∃ name' e', o = some (name', e') ∧
      name'.unplaced = name.unplaced ∧ e'.unplaced = e.unplaced ∧
        s'.Faces ((.semicolon, []) :: ls) := by
  simp only [Grammar.binding, call_bind, liftM_eq]
  refine .demand hs fun s₁ hs₁ => .current_bind (.demand hs₁.awaits fun s₂ hs₂ => ?_)
  refine .advance_bind hs₂.awaits (by simp) fun s₃ hs₃ => ?_
  refine .bind (he.whole ⟨_, _, rfl, rfl⟩ hs₃) ?_
  rintro e' s₄ ⟨he', hs₄⟩
  refine .skipSemicolon_bind hs₄ rfl fun s₅ hs₅ => .pure ⟨_, e', rfl, ?_, he', hs₅⟩
  rw [Name.unplaced, Name.unplaced, Token.literal_of_lexeme hs₁.current rfl]

/-- A binding is read again if its value is. -/
theorem Stmt.rereads_binding (he : e.Rereads) : (Stmt.binding pos name e).Rereads := by
  rintro (_ | n) s ls - hs
  · exact .exhausted
  have hkind : s.current.kind = .let_ := hs.kind
  have hawaits :
    s.Awaits ((.ident, name.text) :: (.assign, []) :: (e.lexemes ++ (.semicolon, []) :: ls)) := by
    simpa using hs.awaits
  show (grammar n).statementStep.Ensures s _
  simp only [Grammar.statementStep, call_bind, liftM_eq]
  refine .current_bind ?_
  rw [hkind]
  refine .bind (ensures_binding he hawaits) ?_
  rintro o s₁ ⟨name', e', ho, hname, he', hs₁⟩
  refine .pure ?_
  exact ⟨_, by rw [ho]; rfl, by simp only [Stmt.unplaced, hname, he'], hs₁.awaits⟩

/-- A `return` is read again if its value is. -/
theorem Stmt.rereads_returned (he : e.Rereads) : (Stmt.returned pos e).Rereads := by
  rintro (_ | n) s ls - hs
  · exact .exhausted
  have hkind : s.current.kind = .return_ := hs.kind
  have hawaits : s.Awaits (e.lexemes ++ (.semicolon, []) :: ls) := by simpa using hs.awaits
  show (grammar n).statementStep.Ensures s _
  simp only [Grammar.statementStep, call_bind, liftM_eq]
  refine .current_bind ?_
  rw [hkind]
  refine .advance_bind hawaits (by simp) fun s₁ hs₁ => ?_
  refine .bind (he.whole ⟨_, _, rfl, rfl⟩ hs₁) ?_
  rintro e' s₂ ⟨he', hs₂⟩
  refine .skipSemicolon_bind hs₂ rfl fun s₃ hs₃ => .pure ?_
  exact ⟨_, rfl, by simp only [Stmt.unplaced, he'], hs₃.awaits⟩

/-- A `break` is read again. -/
theorem Stmt.rereads_broken : (Stmt.broken pos).Rereads := by
  rintro (_ | n) s ls - hs
  · exact .exhausted
  have hkind : s.current.kind = .break_ := hs.kind
  show (grammar n).statementStep.Ensures s _
  simp only [Grammar.statementStep, call_bind, liftM_eq]
  refine .current_bind ?_
  rw [hkind]
  exact .skipSemicolon_bind hs.awaits rfl fun s₁ hs₁ => .pure ⟨_, rfl, rfl, hs₁.awaits⟩

/-- An expression as a statement is read again if the expression is. -/
theorem Stmt.rereads_expression {first : Token} (he : e.Reread) :
    (Stmt.expression first e).Rereads := by
  intro n s ls hls hs
  obtain ⟨hcloses, hsemi⟩ := hls rfl
  refine (he.reads.statement hcloses hsemi hs).imp ?_
  rintro o s' ⟨t, a, rfl, ha, hs'⟩
  have ha : a.unplaced = e.unplaced := ha
  exact ⟨_, rfl, by simp only [Stmt.unplaced, ha], hs'⟩

/-- Statements up to a closing token. -/
theorem ensures_statements {ss : List Stmt} {stop : TokenKind → Bool} {close : TokenKind}
    (hlegible : statementsLegible ss) (hss : ∀ st ∈ ss, st.Rereads) (hstop : stop close)
    (hopen : ∀ kind, kind ≠ .rbrace → kind ≠ .eof → stop kind = false)
    (hclose : close.endsExpression) (hsemi : close ≠ .semicolon)
    (hs : s.Faces (statementsLexemes ss ++ (close, []) :: ls)) :
    ((grammar n).statements stop bound).Ensures s fun ss' s' =>
      unplacedStatements ss' = unplacedStatements ss ∧ s'.Faces ((close, []) :: ls) := by
  induction bound generalizing ss s with
  | zero => exact .exhausted
  | succ bound ih =>
    simp only [Grammar.statements, tokensAhead_bind, goOn_bind, liftM_eq]
    refine .current_bind ?_
    cases ss with
    | nil =>
      rw [if_pos (by rw [hs.kind]; exact hstop)]
      exact .pure ⟨rfl, hs⟩
    | cons st ss =>
      obtain ⟨hst, hlast, hlegible⟩ := hlegible
      obtain ⟨hreread, hss⟩ := List.forall_mem_cons.mp hss
      have hs : s.Faces (st.lexemes ++ (statementsLexemes ss ++ (close, []) :: ls)) := by
        simpa [statementsLexemes] using hs
      -- No statement starts with a token at which the list could end.
      have hgo : stop s.current.kind = false := by
        obtain ⟨kind, literal, rest, hlexemes, hbrace, heof⟩ := st.lexemes_eq_cons hst
        rw [hlexemes] at hs
        rw [hs.kind]
        exact hopen kind hbrace heof
      rw [if_neg (by simp [hgo])]
      -- Only the last statement may be an expression, and the closing token stands behind that one.
      have hbehind : st.isExpression → Closes (statementsLexemes ss ++ (close, []) :: ls) ∧
          ∀ l ∈ (statementsLexemes ss ++ (close, []) :: ls).head?, l.1 ≠ .semicolon := by
        intro hexpression
        rw [hlast hexpression]
        refine ⟨⟨_, _, rfl, hclose⟩, ?_⟩
        rintro l ⟨⟩
        exact hsemi
      refine .bind (hreread n s _ hbehind hs) ?_
      rintro o s₁ ⟨st', ho, hst', hs₁⟩
      refine .advance_bind hs₁ (by simp) fun s₂ hs₂ => ?_
      refine .bind (ih hlegible hss hs₂) ?_
      rintro ss' s₃ ⟨hss', hs₃⟩
      refine .pure ⟨?_, hs₃⟩
      rw [ho]
      simp only [Option.toList, List.cons_append, List.nil_append, unplacedStatements, hst', hss']

/-- A block of statements that are read again is read again. -/
theorem Block.rereads_mk {ss : List Stmt} (hlegible : statementsLegible ss)
    (hss : ∀ st ∈ ss, st.Rereads) :
    (Block.mk pos ss).Rereads := by
  intro n depth s ls hs
  have hawaits : s.Awaits (statementsLexemes ss ++ (.rbrace, []) :: ls) := by simpa using hs.awaits
  simp only [Grammar.block, call_bind, liftM_eq]
  refine .current_bind (.advance_bind hawaits (by simp) fun s₁ hs₁ => ?_)
  refine .bind (ensures_statements hlegible hss rfl ?_ rfl (by decide) hs₁) ?_
  · intro kind hbrace heof
    simp [hbrace, heof]
  · rintro ss' s₂ ⟨hss', hs₂⟩
    refine .current_bind ?_
    rw [if_neg (by simp [hs₂.kind])]
    exact .pure ⟨by simp only [Block.unplaced, hss'], hs₂.awaits⟩

end Statements

/-! ## Functions, conditionals and loops -/

section Branches

variable {pos letPos n bound depth : Nat} {names : List Name} {name : Name}
  {c start : Expr} {b : Block} {elifs : List (Expr × Block)} {alternative : Option Block}
  {step : Stmt} {s : ParserState} {ls : List Lexeme}

/-- Names that each stand behind a comma, and the closing parenthesis. -/
theorem ensures_moreParameters
    (hs : s.Awaits ((names.flatMap fun n => [(.comma, []), (.ident, n.text)]) ++
      (.rparen, []) :: ls)) :
    (Grammar.moreParameters (m := Parse) bound).Ensures s fun o s' => ∃ names', o = some names' ∧
      names'.map Name.unplaced = names.map Name.unplaced ∧ s'.Awaits ls := by
  induction bound generalizing names s with
  | zero => exact .exhausted
  | succ bound ih =>
    simp only [Grammar.moreParameters, tokensAhead_bind, goOn_bind, liftM_eq]
    refine .next_bind ?_
    cases names with
    | nil =>
      rw [if_neg (by simp [hs.kind_next])]
      exact .demand_last hs fun s₁ hs₁ => ⟨[], rfl, rfl, hs₁.awaits⟩
    | cons name names =>
      rw [if_pos hs.kind_next]
      refine .advance_bind hs (by simp) fun s₁ hs₁ => .demand hs₁.awaits fun s₂ hs₂ =>
        .current_bind ?_
      refine .bind (ih hs₂.awaits) ?_
      rintro o s₃ ⟨names', ho, hnames, hs₃⟩
      refine .pure ?_
      refine ⟨_ :: names', by rw [ho]; rfl, ?_, hs₃⟩
      -- The offsets may differ, but the literal of an identifier is its name.
      rw [List.map_cons, List.map_cons, hnames, Name.unplaced, Name.unplaced,
        Token.literal_of_lexeme hs₂.current rfl]

/-- The parameters of a function and the closing parenthesis. -/
theorem ensures_parameters (hs : s.Awaits (parametersLexemes names ++ (.rparen, []) :: ls)) :
    (Grammar.parameters (m := Parse) bound).Ensures s fun o s' => ∃ names', o = some names' ∧
      names'.map Name.unplaced = names.map Name.unplaced ∧ s'.Awaits ls := by
  simp only [Grammar.parameters, call_bind, liftM_eq]
  refine .next_bind ?_
  cases names with
  | nil =>
    rw [if_pos hs.kind_next]
    exact .advance_bind hs (by simp) fun s₁ hs₁ => .pure ⟨[], rfl, rfl, hs₁.awaits⟩
  | cons name names =>
    rw [if_neg (by simp [hs.kind_next])]
    refine .demand hs fun s₁ hs₁ => .current_bind ?_
    refine .bind (ensures_moreParameters hs₁.awaits) ?_
    rintro o s₂ ⟨names', ho, hnames, hs₂⟩
    refine .pure ?_
    refine ⟨_ :: names', by rw [ho]; rfl, ?_, hs₂⟩
    rw [List.map_cons, List.map_cons, hnames, Name.unplaced, Name.unplaced,
      Token.literal_of_lexeme hs₁.current rfl]

/-- A block starts with its opening brace. -/
theorem Block.lexemes_eq_cons (b : Block) : ∃ rest, b.lexemes = (.lbrace, []) :: rest := by
  cases b
  exact ⟨_, rfl⟩

/-- A block behind a token that demands it. -/
theorem ensures_demand_block {α : Type} {x : α} {rest : Parse α} {Q : α → ParserState → Prop}
    (hs : s.Awaits (b.lexemes ++ ls)) (h : ∀ s', s'.Faces (b.lexemes ++ ls) → rest.Ensures s' Q) :
    (expect .lbrace >>= fun b => if (!b) = true then Pure.pure x else rest).Ensures s Q := by
  obtain ⟨inner, hb⟩ := b.lexemes_eq_cons
  rw [hb] at hs h
  exact .demand hs h

/-- A function is read again if its body is, with its parameters. -/
theorem rereads_function (hb : b.Rereads) : (Expr.function pos names b).Rereads := by
  refine Expr.RereadsOperand.rereads fun n s l tail hl hs => ?_
  have hkind : s.current.kind = .function := hs.kind
  have hawaits : s.Awaits ((.lparen, []) :: (parametersLexemes names ++ (.rparen, []) ::
      (b.lexemes ++ l :: tail))) := by simpa using hs.awaits
  simp only [Grammar.operand, call_bind, hkind]
  refine .map ?_
  simp only [Grammar.function, call_bind, liftM_eq]
  refine .demand hawaits fun s₁ hs₁ => ?_
  refine .bind (ensures_parameters hs₁.awaits) ?_
  rintro o s₂ ⟨names', ho, hnames, hs₂⟩
  rw [ho]
  refine ensures_demand_block hs₂ fun s₃ hs₃ => ?_
  refine .bind (hb n n s₃ _ hs₃) ?_
  rintro b' s₄ ⟨hb', hs₄⟩
  refine .pure ?_
  exact ⟨_, rfl, by simp only [Expr.unplaced, hnames, hb'], hs₄⟩

/-- A gap is a gap without offsets too. -/
theorem Expr.isMissing_unplaced (e : Expr) : e.unplaced.isMissing = e.isMissing := by
  cases e <;> rfl

/-- What stands in parentheses is no missing expression. -/
theorem Expr.isMissing_of_isParenthesised {e : Expr} (h : e.isParenthesised) :
    e.isMissing = false := by
  cases e <;> simp_all [isParenthesised, isMissing]

/-- A condition and its block can be read again. -/
def RereadBranch (branch : Expr × Block) : Prop :=
  branch.1.RereadsInside ∧ branch.1.isMissing = false ∧ branch.2.Rereads

/-- A condition, up to the opening brace of its block. -/
theorem ensures_condition (hc : c.RereadsInside) (hmissing : c.isMissing = false)
    (hs : s.Awaits (c.lexemes ++ (b.lexemes ++ ls))) :
    (grammar n).condition.Ensures s fun c' s' =>
      c'.unplaced = c.unplaced ∧ c'.isMissing = false ∧ s'.Faces (b.lexemes ++ ls) := by
  obtain ⟨inner, hlexemes, hinner⟩ := hc
  have hs : s.Awaits ((.lparen, []) :: (inner ++ (.rparen, []) :: (b.lexemes ++ ls))) := by
    simpa [hlexemes] using hs
  simp only [Grammar.condition, call_bind, liftM_eq]
  refine .demand hs fun s₁ hs₁ => .advance_bind hs₁.awaits (by simp) fun s₂ hs₂ => ?_
  refine .bind (hinner n s₂ _ hs₂) ?_
  rintro c' s₃ ⟨hc', hs₃⟩
  refine .demand hs₃ fun s₄ hs₄ => ?_
  refine ensures_demand_block hs₄.awaits fun s₅ hs₅ => .pure ⟨hc', ?_, hs₅⟩
  rw [← c'.isMissing_unplaced, hc', c.isMissing_unplaced, hmissing]

/-- Further conditions with their blocks, where no other one follows. -/
theorem ensures_elifs (helifs : ∀ branch ∈ elifs, RereadBranch branch)
    (hls : ∃ l tail, ls = l :: tail ∧ l.1 ≠ .elif) (hs : s.Awaits (elifsLexemes elifs ++ ls)) :
    ((grammar n).elifs depth bound).Ensures s fun o s' => ∃ elifs', o = some elifs' ∧
      unplacedElifs elifs' = unplacedElifs elifs ∧ s'.Awaits ls := by
  induction bound generalizing elifs s with
  | zero => exact .exhausted
  | succ bound ih =>
    simp only [Grammar.elifs, tokensAhead_bind, goOn_bind, liftM_eq]
    refine .next_bind ?_
    cases elifs with
    | nil =>
      obtain ⟨l, tail, rfl, hl⟩ := hls
      -- What follows is no further condition, so the loop ends here.
      rw [if_neg (by rw [hs.kind_next]; exact hl)]
      exact .pure ⟨[], rfl, rfl, hs⟩
    | cons branch elifs =>
      obtain ⟨c, b⟩ := branch
      obtain ⟨⟨hc, hmissing, hb⟩, helifs⟩ := List.forall_mem_cons.mp helifs
      have hs :
        s.Awaits ((.elif, []) :: (c.lexemes ++ (b.lexemes ++ (elifsLexemes elifs ++ ls)))) := by
        simpa [elifsLexemes] using hs
      rw [if_pos hs.kind_next]
      refine .advance_bind hs (by simp) fun s₁ hs₁ => ?_
      refine .bind (ensures_condition hc hmissing hs₁.awaits) ?_
      rintro c' s₂ ⟨hc', hmissing', hs₂⟩
      -- The condition was read, so its branch is not given up.
      rw [if_neg (by simp [hmissing'])]
      refine .bind (hb n depth s₂ _ hs₂) ?_
      rintro b' s₃ ⟨hb', hs₃⟩
      refine .bind (ih helifs hs₃) ?_
      rintro o s₄ ⟨elifs', ho, helifs', hs₄⟩
      refine .pure ?_
      exact ⟨_ :: elifs', by rw [ho]; rfl, by simp only [unplacedElifs, hc', hb', helifs'], hs₄⟩

/-- A conditional is read again if its conditions and its blocks are. -/
theorem rereads_conditional (hbranch : RereadBranch (c, b))
    (helifs : ∀ branch ∈ elifs, RereadBranch branch)
    (halternative : ∀ b' ∈ alternative, b'.Rereads) :
    (Expr.conditional pos c b elifs alternative).Rereads := by
  obtain ⟨hc, hmissing, hb⟩ := hbranch
  refine Expr.RereadsOperand.rereads fun n s l tail hl hs => ?_
  have hkind : s.current.kind = .if_ := hs.kind
  have hawaits : s.Awaits (c.lexemes ++ (b.lexemes ++ (elifsLexemes elifs ++
      (alternativeLexemes alternative ++ l :: tail)))) := by simpa using hs.awaits
  -- Neither `else` nor what follows the whole conditional is taken for one more condition.
  have hbehind : ∃ l' tail', alternativeLexemes alternative ++ l :: tail = l' :: tail' ∧
    l'.1 ≠ .elif := by
    cases alternative with
    | none =>
      refine ⟨l, tail, rfl, fun h => ?_⟩
      rw [h] at hl
      cases hl
    | some b' => exact ⟨_, _, rfl, by decide⟩
  simp only [Grammar.operand, call_bind, hkind]
  refine .map ?_
  simp only [Grammar.conditional, call_bind, liftM_eq]
  refine .bind (ensures_condition hc hmissing hawaits) ?_
  rintro c' s₁ ⟨hc', hmissing', hs₁⟩
  rw [if_neg (by simp [hmissing'])]
  refine .bind (hb n n s₁ _ hs₁) ?_
  rintro b' s₂ ⟨hb', hs₂⟩
  refine .bind (ensures_elifs helifs hbehind hs₂) ?_
  rintro o s₃ ⟨elifs', ho, helifs', hs₃⟩
  rw [ho]
  refine .next_bind ?_
  cases alternative with
  | none =>
    rw [if_neg]
    · exact .pure ⟨_, rfl, by simp only [Expr.unplaced, unplacedAlternative, hc', hb', helifs'],
        hs₃⟩
    · intro helse
      rw [← hs₃.kind_next, helse] at hl
      cases hl
  | some b₂ =>
    have hs₃ : s₃.Awaits ((.else_, []) :: (b₂.lexemes ++ l :: tail)) := hs₃
    rw [if_pos hs₃.kind_next]
    refine .advance_bind hs₃ (by simp) fun s₄ hs₄ =>
      ensures_demand_block hs₄.awaits fun s₅ hs₅ => ?_
    refine .bind (halternative b₂ rfl n n s₅ _ hs₅) ?_
    rintro b₂' s₆ ⟨hb₂', hs₆⟩
    refine .pure ?_
    exact ⟨_, rfl, by simp only [Expr.unplaced, unplacedAlternative, hc', hb', helifs', hb₂'], hs₆⟩

/-- A loop is read again if its start, its condition, its step and its body are. -/
theorem rereads_loop (hstart : start.Rereads) (hc : c.Rereads) (hstep : step.Rereads)
    (hb : b.Rereads) :
    (Expr.loop pos letPos name start c step b).Rereads := by
  refine Expr.RereadsOperand.rereads fun n s l tail hl hs => ?_
  have hkind : s.current.kind = .for_ := hs.kind
  have hawaits : s.Awaits ((.lparen, []) :: (.let_, []) :: (.ident, name.text) :: (.assign, []) ::
      (start.lexemes ++ (.semicolon, []) ::
        (c.lexemes ++ (.semicolon, []) :: (step.lexemes ++ (.rparen, []) ::
        (b.lexemes ++ l :: tail))))) := by simpa using hs.awaits
  -- A step that is an expression ends at the parenthesis.
  have hclose : step.isExpression → Closes ((.rparen, []) :: (b.lexemes ++ l :: tail)) ∧
      ∀ l' ∈ ((.rparen, []) :: (b.lexemes ++ l :: tail)).head?, l'.1 ≠ .semicolon := by
    refine fun _ => ⟨⟨_, _, rfl, rfl⟩, ?_⟩
    rintro l' ⟨⟩
    decide
  simp only [Grammar.operand, call_bind, hkind]
  refine .map ?_
  simp only [Grammar.loop, call_bind, liftM_eq]
  refine .demand hawaits fun s₁ hs₁ => .advance_bind hs₁.awaits (by simp) fun s₂ hs₂ =>
    .current_bind ?_
  rw [if_neg (by simp [hs₂.kind])]
  refine .bind (ensures_binding hstart hs₂.awaits) ?_
  rintro o s₃ ⟨name', start', ho, hname, hstart', hs₃⟩
  rw [ho]
  refine .current_bind ?_
  rw [if_neg (by simp [hs₃.kind])]
  refine .advance_bind hs₃.awaits (by simp) fun s₄ hs₄ => ?_
  refine .bind (hc.whole ⟨_, _, rfl, rfl⟩ hs₄) ?_
  rintro c' s₅ ⟨hc', hs₅⟩
  refine .demand hs₅ fun s₆ hs₆ => ?_
  refine .advance_bind hs₆.awaits (by simp) fun s₇ hs₇ => ?_
  refine .bind (hstep n s₇ _ hclose hs₇) ?_
  rintro o' s₈ ⟨step', ho', hstep', hs₈⟩
  rw [ho']
  refine .demand hs₈ fun s₉ hs₉ => ensures_demand_block hs₉.awaits fun s₁₀ hs₁₀ => ?_
  refine .bind (hb n n s₁₀ _ hs₁₀) ?_
  rintro b' s₁₁ ⟨hb', hs₁₁⟩
  refine .pure ?_
  exact ⟨_, rfl, by simp only [Expr.unplaced, hname, hstart', hc', hstep', hb'], hs₁₁⟩

end Branches

/-! ## Programs -/

mutual

/-- A legible expression can be read again, and so can what is inside of its parentheses. -/
theorem Expr.rereads_of_legible : ∀ (e : Expr), e.Legible →
    e.Rereads ∧ (e.isParenthesised → e.RereadsInside)
  -- The canonical form puts prefix and infix operations and indices in parentheses. Only those are
  -- asked for what is read inside, as a condition of a branch is read without its own.
  | .missing, h => h.elim
  | .ident name, _ => ⟨rereads_ident name, nofun⟩
  | .integer .., h => ⟨rereads_integer h, nofun⟩
  | .float .., h => ⟨rereads_float h, nofun⟩
  | .double .., h => ⟨rereads_double h, nofun⟩
  | .boolean _ value, _ => ⟨rereads_boolean value, nofun⟩
  | .string _ value, _ => ⟨rereads_string value, nofun⟩
  | .array _ elements, h => ⟨rereads_array (all_reread elements h), nofun⟩
  | .hash _ pairs, h => ⟨rereads_hash (pairs_reread pairs h), nofun⟩
  | .prefixed _ op operand, h =>
    have hinside := rereadsInside_prefixed op (operand.rereads_of_legible h).1
    ⟨hinside.rereads, fun _ => hinside⟩
  | .infixed _ op left right, h =>
    have hinside := rereadsInside_infixed op (left.rereads_of_legible h.1).1
      (right.rereads_of_legible h.2).1
    ⟨hinside.rereads, fun _ => hinside⟩
  | .index _ collection key, h =>
    have hinside := rereadsInside_index (collection.rereads_of_legible h.1).1
      (key.rereads_of_legible h.2).1
    ⟨hinside.rereads, fun _ => hinside⟩
  | .call _ callee arguments, h =>
    ⟨rereads_call (callee.rereads_of_legible h.1).1 (all_reread arguments h.2), nofun⟩
  | .function _ _ body, h => ⟨rereads_function (body.rereads_of_legible h.2), nofun⟩
  | .conditional _ condition consequence elifs alternative, h =>
    have ⟨hparen, hcondition, hconsequence, helifs, halternative⟩ := h
    -- A condition brings its parentheses along, so what counts is how it is read inside of them.
    have hbranch : RereadBranch (condition, consequence) :=
      ⟨(condition.rereads_of_legible hcondition).2 hparen, Expr.isMissing_of_isParenthesised hparen,
        consequence.rereads_of_legible hconsequence⟩
    ⟨rereads_conditional hbranch (elifs_reread elifs helifs)
      (alternative_rereads alternative halternative),
      nofun⟩
  | .loop _ _ _ start condition step body, h =>
    have ⟨_, hstart, hcondition, hstep, hbody⟩ := h
    ⟨rereads_loop (start.rereads_of_legible hstart).1 (condition.rereads_of_legible hcondition).1
      (step.rereads_of_legible hstep) (body.rereads_of_legible hbody), nofun⟩

/-- Expressions in a row that are legible are read again. -/
theorem all_reread : ∀ (es : List Expr), allLegible es → ∀ e ∈ es, e.Reread
  | [], _ => nofun
  | e :: es, h => List.forall_mem_cons.mpr ⟨⟨h.1, (e.rereads_of_legible h.1).1⟩, all_reread es h.2⟩

/-- The pairs of a legible hash are read again. -/
theorem pairs_reread : ∀ (pairs : List (Expr × Expr)), pairsLegible pairs →
    ∀ pair ∈ pairs, pair.1.Reread ∧ pair.2.Reread
  | [], _ => nofun
  | (k, v) :: pairs, h =>
    have hk : k.Reread := ⟨h.1, (k.rereads_of_legible h.1).1⟩
    have hv : v.Reread := ⟨h.2.1, (v.rereads_of_legible h.2.1).1⟩
    List.forall_mem_cons.mpr ⟨⟨hk, hv⟩, pairs_reread pairs h.2.2⟩

/-- Further conditions and their blocks are read again where they are legible. -/
theorem elifs_reread : ∀ (elifs : List (Expr × Block)), elifsLegible elifs →
    ∀ branch ∈ elifs, RereadBranch branch
  | [], _ => nofun
  | (c, b) :: elifs, h =>
    have ⟨hparen, hc, hb, helifs⟩ := h
    have hbranch : RereadBranch (c, b) := ⟨(c.rereads_of_legible hc).2 hparen,
      Expr.isMissing_of_isParenthesised hparen, b.rereads_of_legible hb⟩
    List.forall_mem_cons.mpr ⟨hbranch, elifs_reread elifs helifs⟩

/-- The last block of a conditional is read again where it is legible. -/
theorem alternative_rereads : ∀ (alternative : Option Block), alternativeLegible alternative →
    ∀ b ∈ alternative, b.Rereads
  | none, _ => nofun
  | some b, h => fun _ hb => Option.mem_some.mp hb ▸ b.rereads_of_legible h

/-- A legible statement is read again. -/
theorem Stmt.rereads_of_legible : ∀ (st : Stmt), st.Legible → st.Rereads
  | .binding _ _ value, h => Stmt.rereads_binding (value.rereads_of_legible h.2).1
  | .returned _ value, h => Stmt.rereads_returned (value.rereads_of_legible h).1
  | .broken _, _ => Stmt.rereads_broken
  | .expression _ value, h => Stmt.rereads_expression ⟨h, (value.rereads_of_legible h).1⟩

/-- Legible statements in a row are read again. -/
theorem statements_reread : ∀ (ss : List Stmt), statementsLegible ss → ∀ st ∈ ss, st.Rereads
  | [], _ => nofun
  | st :: ss, h => List.forall_mem_cons.mpr ⟨st.rereads_of_legible h.1, statements_reread ss h.2.2⟩

/-- A legible block is read again. -/
theorem Block.rereads_of_legible : ∀ (b : Block), b.Legible → b.Rereads
  | .mk _ statements, h => Block.rereads_mk h (statements_reread statements h)

end

/-- Reading the canonical form of a legible program finds no fault and gives the program. -/
theorem Program.Legible.parse_render {p : Program} (h : p.Legible) :
    (parse p.render).diagnostics = [] ∧ (parse p.render).program.unplaced = p.unplaced := by
  obtain ⟨t, rest, ss, s', htokens, -, hrun, hparse⟩ := exists_parse p.render
  have hfaces : Faces ⟨t, rest, []⟩ (statementsLexemes p.statements ++ [(.eof, [])]) := by
    rw [← h.lexemes_render, lexemes, htokens]
    exact ⟨rfl, rfl⟩
  obtain ⟨hss, hs'⟩ := ensures_statements h (statements_reread p.statements h) rfl
    (fun kind _ heof => by simp [heof]) rfl (by decide) hfaces ss s' hrun
  -- The state at the end faces the last lexeme, and such states have no faults.
  rw [hparse]
  exact ⟨by rw [hs'.2]; rfl, by rw [Program.unplaced, Program.unplaced, hss]⟩

/-- A source without a fault, in which only the last statement of a list is an expression and every
condition is an operator or an index, is read as a program that reading its canonical form gives
again. -/
theorem parse_render_parse (src : Bytes) (hclean : (parse src).diagnostics = [])
    (hrereadable : (parse src).program.isRereadable) :
    (parse (parse src).program.render).diagnostics = [] ∧
      (parse (parse src).program.render).program.unplaced = (parse src).program.unplaced := by
  obtain ⟨body, last, htokens, hlast, hbody⟩ := tokens_eq_append src
  obtain ⟨p, hparse, hyields⟩ := parseTokens?_spec hlast fun t ht => (hbody t ht).1
  have hsrc : parse src = p := by rw [parse, htokens, hparse, Option.getD_some]
  rw [hsrc] at hclean hrereadable ⊢
  exact ((hyields hclean).legible (fun t ht => (hbody t ht).2) hrereadable).parse_render

theorem parse_render_parse_sample : (parse sample).diagnostics = [] ∧
    (parse sample).program.isRereadable = true ∧
      (parse (parse sample).program.render).diagnostics = [] ∧
      (parse (parse sample).program.render).program.unplaced = (parse sample).program.unplaced :=
  ⟨by decide +kernel, by decide +kernel,
    parse_render_parse sample (by decide +kernel) (by decide +kernel)⟩

end Rill
