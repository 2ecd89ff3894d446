import Rill.Proofs.Token.Concatenation
import Rill.Proofs.Tree.Derivation
import Rill.Proofs.Tree.Diagnostics
import Rill.Proofs.Tree.Relocation

/-!
# Programs one behind the other

A source that is read without a fault and ends with a semicolon can be followed by any source, and
each of the two is read as if the other was not there.

* `Grammar.openStatement`: a statement up to the semicolon behind it, which is all that it looks at.
* `follows_close`: a statement is read in the same way whatever stands behind its semicolon.
* `statements_append`: the statements of the first source are read before those of the second.
* `parse_append_eq`: the program and the diagnostics of two sources one behind the other.
-/

namespace Rill

open ParserState Parse

/-! ## Statements up to their semicolon -/

/-- A statement without the semicolon behind it. -/
def Grammar.openStatement (g : Grammar Parse) : Parse (Option Stmt) := do
  let t ← current
  match t.kind with
  | .let_ =>
    if !(← expect .ident) then return none
    let name ← current
    if !(← expect .assign) then return none
    advance
    return some (.binding t.pos ⟨name.pos, name.literal⟩ (← g.expression .lowest))
  | .return_ =>
    advance
    return some (.returned t.pos (← g.expression .lowest))
  | .break_ => return some (.broken t.pos)
  | _ => return some (.expression t (← g.expression .lowest))

/-- The semicolon behind a statement, if there is a statement. -/
def closeStatement : Option Stmt → Parse (Option Stmt)
  | none => return none
  | some st => do
    skipSemicolon
    return some st

/-- A statement is read up to its semicolon first. -/
theorem statementStep_eq (g : Grammar Parse) :
    g.statementStep = g.openStatement >>= closeStatement := by
  rw [Grammar.statementStep, call_bind, Grammar.openStatement, bind_assoc]
  refine bind_congr fun t => ?_
  generalize t.kind = kind
  split
  -- Only a binding can be given up halfway, and then no semicolon is looked for.
  next =>
    rw [Grammar.binding, call_bind, bind_assoc, bind_assoc]
    refine bind_congr fun b => ?_
    cases b
    · rfl
    · rw [if_neg (by decide), if_neg (by decide), bind_assoc, bind_assoc]
      refine bind_congr fun name => ?_
      rw [bind_assoc, bind_assoc]
      refine bind_congr fun b => ?_
      cases b
      · rfl
      · rw [if_neg (by decide), if_neg (by decide)]
        simp only [bind_assoc, pure_bind]
        rfl
  next =>
    simp only [bind_assoc, pure_bind]
    rfl
  next => rfl
  next =>
    simp only [bind_assoc, pure_bind]
    rfl

variable {g g' : Grammar Parse} {w : Window} {n : Nat} {s s' s₁ s₂ : ParserState}

/-- A statement without its semicolon is read in the same way in both places. -/
theorem follows_openStatement (hg : g.Follows w g') :
    g.openStatement.Follows w (Option.map (Stmt.moved w.place)) g'.openStatement := by
  rw [Grammar.openStatement, Grammar.openStatement]
  refine .current_bind fun t => ?_
  dsimp only [Token.moved]
  split
  next =>
    refine .demand rfl (.current_bind fun name => .demand rfl (.advance_bind ?_))
    exact .bind (hg.expression .lowest) fun value => .pure rfl
  next => exact .advance_bind (.bind (hg.expression .lowest) fun value => .pure rfl)
  next => exact .pure rfl
  next => exact .bind (hg.expression .lowest) fun value => .pure rfl

/-- Up to its semicolon, a statement does not end with one. -/
theorem reads_openStatement (hg : g.Reads n) (hs : s.Terminated) (hn : 2 * s.ahead.length + 2 ≤ n) :
    g.openStatement.Reads s fun o s' _ => (∃ st, o = some st) ∧ s'.current.kind ≠ .semicolon := by
  rw [Grammar.openStatement]
  refine .current_bind ?_
  split
  -- In each case an expression was read last, and none ends with a semicolon.
  next =>
    refine .demand hs (by decide) fun t₁ s₁ hs₁ _ => .current_bind ?_
    refine .demand hs₁.terminated (by decide) fun t₂ s₂ hs₂ heq => ?_
    refine .advance_bind_of_ne hs₂.terminated (by simp [hs₂.current, heq]) fun t₃ s₃ hs₃ _ => ?_
    have h₁ := hs₁.length_eq
    have h₂ := hs₂.length_eq
    have h₃ := hs₃.length_eq
    refine .bind hs₃.terminated (hg.expression .lowest hs₃.terminated (by omega))
      fun value s₄ _ _ => .pure ?_
    exact fun _ hread => ⟨⟨_, rfl⟩, hread.2.1⟩
  next hkind =>
    refine .advance_bind_of_ne hs (by simp [hkind]) fun t s₁ hs₁ _ => ?_
    have h₁ := hs₁.length_eq
    refine .bind hs₁.terminated (hg.expression .lowest hs₁.terminated (by omega))
      fun value s₂ _ _ => .pure ?_
    exact fun _ hread => ⟨⟨_, rfl⟩, hread.2.1⟩
  next hkind => exact .pure ⟨⟨_, rfl⟩, by simp [hkind]⟩
  next =>
    refine .bind hs (hg.expression .lowest hs hn) fun value s₁ _ _ => .pure ?_
    exact fun _ hread => ⟨⟨_, rfl⟩, hread.2.1⟩

/-- A statement takes the semicolon behind it, if there is one. -/
theorem closeStatement_some (st : Stmt) (s : ParserState) : closeStatement (some st) s =
    some (some st, if s.next.kind = .semicolon then s.advance else s) := by
  rw [closeStatement]
  simp only [Bind.bind, StateT.bind, skipSemicolon_eq]
  rfl

/-- A statement that ends with its semicolon is read in the same way whatever stands behind the
semicolon. -/
theorem follows_close (hg : g.Follows w g') (hread : g.Reads n) (hs : w.Matches s s')
    (hterminated : s.Terminated) (hn : 2 * s.ahead.length + 2 ≤ n) {o : Option Stmt}
    (hrun : g.statementStep s = some (o, s₂)) (hclean : s₂.found.length = s.found.length)
    (hsemi : s₂.current.kind = .semicolon) (hahead : s₂.ahead = w.old) :
    ∃ s₂', g'.statementStep s' = some (o.map (Stmt.moved w.place), s₂') ∧ w.Matches s₂ s₂' := by
  rw [statementStep_eq] at hrun ⊢
  obtain ⟨o, s₁, hopen, hclose⟩ := exists_of_bind hrun
  obtain ⟨_, _, hopened, -, hspec⟩ := reads_openStatement hread hterminated hn
  cases hopened.symm.trans hopen
  cases o with
  | none =>
    cases hclose
    obtain ⟨_, -, ⟨_, hsome⟩, -⟩ := hspec hclean
    cases hsome
  | some st =>
    rw [closeStatement_some] at hclose
    by_cases hnext : s₁.next.kind = .semicolon
    · rw [if_pos hnext] at hclose
      cases hclose
      rw [found_advance] at hclean
      obtain ⟨_, -, -, hkind⟩ := hspec hclean
      -- The semicolon was not the current token yet, so it was taken from what was ahead.
      have hne : s₁.ahead ≠ [] := by
        intro hnil
        rw [ParserState.advance, hnil] at hsemi
        exact hkind hsemi
      have hsees : w.Sees s₁ := .inr (by rw [ahead_eq hne, hahead]; exact Nat.lt_succ_self _)
      obtain ⟨s₁', hopen', hs₁⟩ := (follows_openStatement hg).run s s' _ s₁ hs hopen hsees
      refine ⟨s₁'.advance, ?_, hs₁.advance hsees⟩
      simp only [Bind.bind, StateT.bind, hopen']
      have hnext' : s₁'.next.kind = .semicolon := by rw [hs₁.next hsees]; exact hnext
      exact (closeStatement_some _ s₁').trans (by rw [if_pos hnext']; rfl)
    · rw [if_neg hnext] at hclose
      cases hclose
      obtain ⟨_, -, -, hkind⟩ := hspec hclean
      exact absurd hsemi hkind

/-! ## All statements of a source -/

/-- Where the statements are to stop, none is read. -/
theorem statements_of_stop {stop : TokenKind → Bool} {bound : Nat}
    (h : stop s.current.kind = true) :
    g.statements stop (bound + 1) s = some ([], s) := by
  simp only [Grammar.statements, tokensAhead_bind, goOn_bind, liftM_eq]
  exact congrArg (fun m : Parse (List Stmt) => m s) (if_pos h)

/-- One statement, and the others from the token behind it on. -/
theorem statements_of_not_stop {stop : TokenKind → Bool} {bound : Nat}
    (h : ¬stop s.current.kind = true) :
    g.statements stop (bound + 1) s = (g.statement s).bind fun r =>
      (g.statements stop bound r.2.advance).map fun r' => (r.1.toList ++ r'.1, r'.2) := by
  simp only [Grammar.statements, tokensAhead_bind, goOn_bind, liftM_eq]
  refine (congrArg (fun m : Parse (List Stmt) => m s) (if_neg h)).trans ?_
  simp only [Bind.bind, StateT.bind]
  cases g.statement s with
  | none => rfl
  | some r =>
    change (g.statements stop bound r.2.advance).bind _ =
      (g.statements stop bound r.2.advance).map _
    cases g.statements stop bound r.2.advance <;> rfl

/-- The tokens from the current one on end with a semicolon and the token `e`. -/
def ParserState.EndsWith (s : ParserState) (e : Token) : Prop :=
  ∃ front semi, s.remaining = front ++ [semi, e] ∧ semi.kind = .semicolon

/-- One statement of a source that ends with a semicolon, whatever stands behind the source. -/
theorem statement_append {n n' : Nat} {e u : Token} {us : List Token}
    {o : Option Stmt} (hn : n ≤ n') (hs : Window.Matches ⟨id, [e], u :: us⟩ s s')
    (hterminated : s.Terminated) (hend : s.EndsWith e) (hfew : 2 * s.ahead.length + 3 ≤ n)
    (hrun : (grammar n).statement s = some (o, s₂)) (hclean : s₂.found.length = s.found.length) :
    s₂.EndsWith e ∧ ∃ s₂', (grammar n').statement s' = some (o, s₂') ∧
      Window.Matches ⟨id, [e], u :: us⟩ s₂ s₂' := by
  obtain ⟨_, _, hread, hmoved, hspec⟩ := (reads_grammar n).statement hterminated hfew
  cases hread.symm.trans hrun
  obtain ⟨_, -, hkind, -⟩ := hspec hclean
  have hne := (hmoved.terminated hterminated).ahead_ne_nil hkind
  obtain ⟨front, semi, hremaining, hsemi⟩ := hend
  -- At least two tokens are left, so the last two of them are those of the source.
  have hsuffix : [semi, e] <:+ s₂.remaining := by
    refine List.suffix_of_suffix_length_le (List.suffix_append front _)
      (hremaining ▸ hmoved.suffix) ?_
    have hlength := List.length_pos_iff.mpr hne
    simp only [remaining, List.length_cons, List.length_nil]
    omega
  have hmoved_id : ∀ o : Option Stmt, o.map (Stmt.moved id) = o := by
    intro o
    cases o with
    | none => rfl
    | some st => rw [Option.map_some, st.moved_id]
  obtain ⟨front, hfront⟩ := hsuffix
  refine ⟨⟨front, semi, hfront.symm, hsemi⟩, ?_⟩
  -- The statement ends with the last semicolon, where looking further would leave the window, or
  -- before it.
  rw [remaining] at hfront
  obtain ⟨n, rfl⟩ : ∃ k, n = k + 1 := ⟨n - 1, by omega⟩
  obtain ⟨n', rfl⟩ : ∃ k, n' = k + 1 := ⟨n' - 1, by omega⟩
  cases front with
  | nil =>
    obtain ⟨hcurrent, hahead⟩ := List.cons.inj hfront
    have hclose := follows_close (follows_grammar _ (Nat.le_of_succ_le_succ hn))
      (reads_grammar n) hs hterminated (by omega) hrun hclean (hcurrent ▸ hsemi) hahead.symm
    rwa [hmoved_id] at hclose
  | cons t front =>
    obtain ⟨-, hahead⟩ := List.cons.inj hfront
    have hsees : Window.Sees ⟨id, [e], u :: us⟩ s₂ := .inr (by rw [← hahead]; simp)
    have hfollows := (follows_grammar _ hn).statement.run s s' o s₂ hs hrun hsees
    rwa [hmoved_id] at hfollows

/-- In front of the end token there are tokens ahead. -/
theorem ParserState.EndsWith.ahead_ne_nil {e : Token} (h : s.EndsWith e) : s.ahead ≠ [] := by
  obtain ⟨front, semi, hremaining, -⟩ := h
  intro hnil
  rw [remaining, hnil] at hremaining
  cases front <;> simp at hremaining

theorem advance_of_ahead {t : Token} {ts : List Token} (h : s.ahead = t :: ts) :
    s.advance = ⟨t, ts, s.found⟩ := by
  rw [ParserState.advance, h]

/-- Moving on takes one of the tokens ahead, if there is any. -/
theorem length_ahead_advance (s : ParserState) : s.advance.ahead.length = s.ahead.length - 1 := by
  cases h : s.ahead with
  | nil => rw [ParserState.advance, h, h, List.length_nil]
  | cons t ts => rw [advance_of_ahead h, List.length_cons, Nat.add_sub_cancel]

/-- From a token of a source that ends with a semicolon, one comes to its end or to another such
token. -/
theorem ParserState.EndsWith.advance {e : Token} (h : s.EndsWith e) :
    s.ahead = [e] ∨ 1 < s.ahead.length ∧ s.advance.EndsWith e := by
  obtain ⟨front, semi, hremaining, hsemi⟩ := h
  rw [remaining] at hremaining
  cases front with
  | nil => exact .inl (List.cons.inj hremaining).2
  | cons t front =>
    have hahead : s.ahead = front ++ [semi, e] := (List.cons.inj hremaining).2
    have hne : s.ahead ≠ [] := by simp [hahead]
    refine .inr ⟨by simp [hahead], front, semi, ?_, hsemi⟩
    rw [remaining, current_advance hne, ← ahead_eq hne, hahead]

/-- The first of the statements that are read without a fault, and the others. -/
theorem exists_first_statement {n bound : Nat} {ss : List Stmt} (hterminated : s.Terminated)
    (hcurrent : s.current.kind ≠ .eof) (hfew : 2 * s.ahead.length + 3 ≤ n)
    (hbound : s.ahead.length < bound + 1)
    (hrun : (grammar n).statements (· == .eof) (bound + 1) s = some (ss, s₁))
    (hclean : s₁.found = []) :
    ∃ o s₂ rest, (grammar n).statement s = some (o, s₂) ∧ Moved s s₂ ∧ s₂.found = [] ∧
      (grammar n).statements (· == .eof) bound s₂.advance = some (rest, s₁) ∧
        ss = o.toList ++ rest := by
  obtain ⟨o, s₂, hstatement, hmoved, -⟩ := (reads_grammar n).statement hterminated hfew
  rw [statements_of_not_stop (by simpa using hcurrent), hstatement, Option.bind_some] at hrun
  obtain ⟨⟨rest, s₁⟩, hrest, heq⟩ := Option.map_eq_some_iff.mp hrun
  cases heq
  have hmoved₂ := hmoved.trans (.advance s₂)
  have hlength := List.length_pos_iff.mpr (hterminated.ahead_ne_nil hcurrent)
  have hle := hmoved.length_le
  have hadvance := length_ahead_advance s₂
  -- No fault is taken back, so there was none behind the first statement.
  obtain ⟨_, _, hread, hmoved', -⟩ :=
    reads_statements (reads_grammar n) (· == .eof) (by decide) bound
    (hmoved₂.terminated hterminated) (by omega) (by omega)
  cases hread.symm.trans hrest
  have hfaults := hmoved'.faults
  rw [hclean, found_advance] at hfaults
  exact ⟨o, s₂, rest, hstatement, hmoved,
    List.length_eq_zero_iff.mp (Nat.le_zero.mp hfaults), hrest, rfl⟩

/-- The statements of a source that ends with a semicolon are read first, whatever stands behind the
source, and reading goes on with the first token behind it. -/
theorem statements_append {n n' bound : Nat} {e u : Token} {us : List Token}
    {ss : List Stmt} (hn : n ≤ n') (heof : e.kind = .eof)
    (hs : Window.Matches ⟨id, [e], u :: us⟩ s s') (hterminated : s.Terminated) (hend : s.EndsWith e)
    (hfew : 2 * s.ahead.length + 3 ≤ n) (hbound : s.ahead.length < bound)
    (hrun : (grammar n).statements (· == .eof) bound s = some (ss, s₁)) (hfound : s.found = [])
    (hclean : s₁.found = []) :
    ∃ count ≤ s.ahead.length, ∀ extra, (grammar n').statements (· == .eof) (count + extra) s' =
      ((grammar n').statements (· == .eof) extra ⟨u, us, []⟩).map fun r => (ss ++ r.1, r.2) := by
  induction bound generalizing s s' ss with
  | zero => exact absurd hbound (Nat.not_lt_zero _)
  | succ bound ih =>
    have hpos := List.length_pos_iff.mpr hend.ahead_ne_nil
    have hcurrent : s.current.kind ≠ .eof :=
      fun heof => hend.ahead_ne_nil (hterminated.ahead_eq_nil heof)
    obtain ⟨o, s₂, rest, hstatement, hmoved, hfound₂, hrest, rfl⟩ :=
      exists_first_statement hterminated hcurrent hfew hbound hrun hclean
    obtain ⟨hend₂, s₂', hstatement', hs₂⟩ := statement_append hn hs hterminated hend hfew hstatement
      (by rw [hfound, hfound₂])
    have hstep : ∀ extra, (grammar n').statements (· == .eof) (extra + 1) s' =
        ((grammar n').statements (· == .eof) extra s₂'.advance).map fun r =>
          (o.toList ++ r.1, r.2) := by
      intro extra
      rw [statements_of_not_stop (by simpa [hs.current, Token.moved] using hcurrent), hstatement',
        Option.bind_some]
    have hle := hmoved.length_le
    have hadvance := length_ahead_advance s₂
    obtain hahead | ⟨hmore, hend₃⟩ := hend₂.advance
    · -- The semicolon at the end was reached. The next token is the first one behind the source.
      have hfound₂' : s₂'.found = [] := by rw [hs₂.found, hfound₂]; rfl
      obtain ⟨ts, hts, hahead'⟩ := hs₂.ahead
      obtain rfl : ts = [] := List.append_left_eq_self.mp (hts.symm.trans hahead)
      obtain ⟨bound, rfl⟩ : ∃ k, bound = k + 1 := ⟨bound - 1, by omega⟩
      rw [advance_of_ahead hahead, statements_of_stop (by simp [heof])] at hrest
      cases hrest
      refine ⟨1, hpos, fun extra => ?_⟩
      rw [Nat.add_comm, hstep, advance_of_ahead hahead', hfound₂', List.append_nil]
    · obtain ⟨count, hcount, hih⟩ :=
        ih (hs₂.advance (.inr hmore)) ((hmoved.trans (.advance s₂)).terminated hterminated)
        hend₃ (by omega) (by omega) hrest (by rw [found_advance, hfound₂])
      refine ⟨count + 1, by omega, fun extra => ?_⟩
      rw [Nat.add_right_comm, hstep, hih, Option.map_map]
      refine congrArg (Option.map · _) (funext fun r => ?_)
      exact congrArg (·, r.2) (List.append_assoc _ _ _).symm

/-! ## Two sources -/

/-- The tokens of a source that ends with a semicolon, alone and with another source behind it: up
to the semicolon they are the same. -/
theorem exists_tokens_append {src : Bytes} (hsemi : EndsWithSemicolon src) (more : Bytes) :
    ∃ c mid e, e.kind = .eof ∧ EndsWith ⟨c, mid ++ [e], []⟩ e ∧ tokens src = c :: (mid ++ [e]) ∧
      tokens (src ++ more) = c :: (mid ++ (tokens more).map (Token.moved (· + src.length))) := by
  obtain ⟨body, semi, hkind, happend⟩ := tokens_append hsemi
  have hsrc := happend []
  rw [List.append_nil] at hsrc
  obtain ⟨c, mid, hmid⟩ := List.exists_cons_of_ne_nil (List.concat_ne_nil semi body)
  have hfront : ∀ ts, body ++ semi :: ts = c :: (mid ++ ts) := by
    intro ts
    rw [List.append_cons, hmid, List.cons_append]
  refine ⟨c, mid, Token.moved (· + src.length) ⟨.eof, [], 0⟩, rfl,
    ⟨body, semi, (hfront _).symm, hkind⟩, ?_, ?_⟩
  · rw [← hfront]
    exact hsrc
  · rw [← hfront, happend]

/-- The second of two sources is read as if it stood alone. -/
theorem parse_append_eq {src : Bytes} (more : Bytes) (hclean : (parse src).diagnostics = [])
    (hsemi : EndsWithSemicolon src) : parse (src ++ more) =
      ⟨⟨(parse src).program.statements ++ movedStatements (· + src.length)
        (parse more).program.statements⟩,
        (parse more).diagnostics.map (Diagnostic.moved (· + src.length))⟩ := by
  obtain ⟨c, mid, e, heof, hend, hsrc, happend⟩ := exists_tokens_append hsemi more
  obtain ⟨_, _, ss, s₁, htokens, hterminated, hrun, hparse⟩ := exists_parse src
  cases hsrc.symm.trans htokens
  obtain ⟨u, us, ts, t₁, htokens, -, hrun', hparse'⟩ := exists_parse more
  rw [htokens] at happend
  obtain ⟨_, _, all, s₁', htokens', -, hrun'', hparse''⟩ := exists_parse (src ++ more)
  cases happend.symm.trans htokens'
  have hfound : s₁.found = [] := by
    rw [hparse] at hclean
    exact List.reverse_eq_nil_iff.mp hclean
  have hn : nestingBound ((mid ++ [e]).length + 1) = 2 * mid.length + 8 := by
    simp [nestingBound]; omega
  have hn' : nestingBound (us.length + 1) = 2 * us.length + 6 := by simp [nestingBound]; omega
  have hn'' : nestingBound ((mid ++ (u :: us).map (Token.moved (· + src.length))).length + 1) =
      2 * mid.length + 2 * us.length + 8 := by
    simp [nestingBound]
    omega
  rw [hn] at hrun
  rw [hn'] at hrun'
  rw [hn''] at hrun''
  -- The first source, with the second one behind it in place of its end.
  have hstart : Window.Matches ⟨id, [e], (u :: us).map (Token.moved (· + src.length))⟩
    ⟨c, mid ++ [e], []⟩ ⟨c, mid ++ (u :: us).map (Token.moved (· + src.length)), []⟩ :=
    ⟨rfl, ⟨mid, rfl, congrArg (· ++ _) (List.map_id mid).symm⟩, rfl⟩
  obtain ⟨count, hcount, hfirst⟩ := statements_append
    (Nat.add_le_add_right (Nat.le_add_right _ (2 * us.length)) 8) heof hstart hterminated hend
    (by simp; omega) (by simp; omega) hrun rfl hfound
  simp only [List.length_append, List.length_singleton] at hcount
  -- The second source: what is left of the bound suffices for it.
  have hmoved : Window.Matches ⟨(· + src.length), [], []⟩ ⟨u, us, []⟩
      ⟨u.moved (· + src.length), us.map (Token.moved (· + src.length)), []⟩ :=
    ⟨rfl, ⟨us, (List.append_nil _).symm, (List.append_nil _).symm⟩, rfl⟩
  have hgrammar := follows_grammar ⟨(· + src.length), [], []⟩
    (show 2 * us.length + 6 ≤ 2 * mid.length + 2 * us.length + 8 by omega)
  have hextra : 2 * us.length + 6 ≤ 2 * mid.length + 2 * us.length + 8 - count := by omega
  obtain ⟨s₂, hsecond, hs₂⟩ :=
    (follows_statements hgrammar (· == .eof) hextra).run _ _ ts t₁ hmoved hrun'
    (.inl ⟨rfl, rfl⟩)
  have hall := hfirst (2 * mid.length + 2 * us.length + 8 - count)
  rw [Nat.add_sub_of_le (by omega), hrun''] at hall
  cases hall.trans (congrArg (Option.map _) hsecond)
  rw [hparse, hparse', hparse'', hs₂.found, List.map_reverse]

end Rill
