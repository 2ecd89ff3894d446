import Rill.Proofs.Tree.Reading

/-!
# Readers that count

The readers of trees with an account of their work: every call of a reader is counted, and every
round of a loop that goes on is noted with the number of tokens ahead when it began and when it
ended. `Counted.Keeps` ties a reader that counts to the one that does not.

* `Effort`: the calls and the rounds.
* `Counted`: readers that also tell their effort. They use the steps of `Parse` as they are, and
  their account has no influence on what is read.
* `countedGrammar`, `parseCounted?`: the readers of `Grammar` that count.
* `Counted.Keeps c m s budget spare`: `c` reads in state `s` what `m` reads, and the work is paid
  for. Each token that is moved over pays for eight units, and besides these there is a `budget`, of
  which `spare` remains.
-/

namespace Rill

/-- A round of a loop that goes on, by the number of tokens ahead. -/
structure Round where
  /-- The tokens ahead when the round begins. -/
  before : Nat
  /-- The tokens ahead when it ends. -/
  after : Nat
  deriving DecidableEq, Repr

/-- The work that reading takes. -/
structure Effort where
  /-- How many readers were called. -/
  calls : Nat := 0
  /-- The rounds of all the loops, in order. -/
  rounds : List Round := []
  deriving DecidableEq, Repr

namespace Effort

instance : Append Effort := ⟨fun w w' => ⟨w.calls + w'.calls, w.rounds ++ w'.rounds⟩⟩

theorem empty_append (w : Effort) : {} ++ w = w := by
  show Effort.mk (0 + w.calls) w.rounds = w
  rw [Nat.zero_add]

@[simp]
theorem rounds_append (w w' : Effort) : (w ++ w').rounds = w.rounds ++ w'.rounds := rfl

/-- All units of work. -/
def total (w : Effort) : Nat := w.calls + w.rounds.length

@[simp]
theorem total_append (w w' : Effort) : (w ++ w').total = w.total + w'.total := by
  show w.calls + w'.calls + (w.rounds ++ w'.rounds).length = _
  rw [List.length_append, total, total]
  omega

end Effort

/-- A reader that also tells its effort. -/
def Counted (α : Type) : Type := Parse (α × Effort)

instance : Monad Counted where
  pure a := fun s => some ((a, {}), s)
  bind c d := fun s => (c s).bind fun r => (d r.1.1 r.2).map fun r' =>
    ((r'.1.1, r.1.2 ++ r'.1.2), r'.2)

/-- The steps of reading are no calls. -/
instance : MonadLift Parse Counted := ⟨fun m s => (m s).map fun r => ((r.1, {}), r.2)⟩

namespace Counted

/-- Counts the call of a reader. -/
def call : Counted Unit := fun s => some (((), { calls := 1 }), s)

/-- How many tokens are ahead. -/
def tokensAhead : Counted Nat := fun s => some ((s.ahead.length, {}), s)

/-- Notes the end of a round that began with `before` tokens ahead. -/
def goOn (before : Nat) : Counted Unit :=
  fun s => some (((), { rounds := [⟨before, s.ahead.length⟩] }), s)

end Counted

instance : Account Counted := ⟨Counted.call, Counted.tokensAhead, Counted.goOn⟩

/-- The readers that count, for expressions and statements that nest at most `n` deep. -/
def countedGrammar : (n : Nat) → Grammar Counted := Grammar.nested Counted

/-- Reads tokens and counts. -/
def parseCounted? (ts : List Token) : Option (Parsed × Effort) :=
  match ts with
  | [] => some (⟨⟨[]⟩, []⟩, { calls := 1 })
  | t :: rest =>
    let n := nestingBound ts.length
    ((countedGrammar n).program n ⟨t, rest, []⟩).map fun r => (⟨⟨r.1.1⟩, r.2.found.reverse⟩, r.1.2)

/-! ## Paying for the work -/

namespace Effort

variable {w w' : Effort} {s s' s'' : ParserState} {t : Token} {budget k spare spare' : Nat}

/-- Reading went from `s` to `s'` with an effort that the tokens that it moved over and the budget
pay for, and no round of a loop went by without a token. -/
structure Within (w : Effort) (s s' : ParserState) (budget spare : Nat) : Prop where
  /-- No token was put back. -/
  moved : Moved s s'
  /-- Every round took a token. -/
  rounds : ∀ r ∈ w.rounds, r.after < r.before
  /-- The effort is paid for, with eight units for a token. -/
  paid : w.total + 8 * s'.ahead.length + spare ≤ 8 * s.ahead.length + budget

/-- An effort that does not move. -/
theorem within_self (hrounds : ∀ r ∈ w.rounds, r.after < r.before) (h : w.total + spare ≤ budget) :
    w.Within s s budget spare :=
  ⟨Moved.refl s, hrounds, by omega⟩

/-- The effort behind a first effort may use what that one spared, and what was not in its
budget. -/
theorem Within.append (h : w.Within s s' k spare) (hk : k ≤ budget)
    (h' : w'.Within s' s'' (budget - k + spare) spare') : (w ++ w').Within s s'' budget spare' := by
  refine ⟨h.moved.trans h'.moved, fun r hr => ?_, ?_⟩
  · rcases List.mem_append.mp (rounds_append w w' ▸ hr) with hr | hr
    · exact h.rounds r hr
    · exact h'.rounds r hr
  · have hpaid := h.paid
    have hpaid' := h'.paid
    rw [total_append]
    omega

/-- Moving on by a token adds to the budget. -/
theorem Within.of_shift (hshift : Shift s t s') (h : w.Within s' s'' (budget + 8) spare) :
    w.Within s s'' budget spare := by
  refine ⟨hshift.moved.trans h.moved, h.rounds, ?_⟩
  have hpaid := h.paid
  have hlength := hshift.length_eq
  omega

/-- Effort within a budget behind a fault is within it before the fault, which takes no token. -/
theorem Within.of_blame {offset : Nat} {fault : SyntaxFault}
    (h : w.Within (s.blame offset fault) s' budget spare) :
    w.Within s s' budget spare :=
  ⟨(Moved.blame s offset fault).trans h.moved, h.rounds, h.paid⟩

end Effort

namespace Counted

variable {α β : Type} {c : Counted α} {d : α → Counted β} {m : Parse α} {f : α → Parse β}
  {s : ParserState} {budget k : Nat} {spare : α → Nat} {spare' : β → Nat}

/-- What `m` reads, `c` reads too, and its effort is paid for; how much of the budget is spared can
depend on what is read. -/
def Keeps (c : Counted α) (m : Parse α) (s : ParserState) (budget : Nat) (spare : α → Nat) : Prop :=
  ∀ a s', m s = some (a, s') → ∃ w, c s = some ((a, w), s') ∧ w.Within s s' budget (spare a)

namespace Keeps

/-- A reader that runs out of its bound takes no effort. -/
theorem exhausted :
    Keeps (liftM (Parse.exhausted : Parse α)) (liftM (Parse.exhausted : Parse α)) s budget spare :=
  fun _ _ h => by cases h

/-- A result without a step keeps a budget that its spare part fits in. -/
theorem pure {a : α} (h : spare a ≤ budget) : Keeps (pure a) (pure a) s budget spare := by
  rintro _ _ ⟨⟩
  exact ⟨{}, rfl, Effort.within_self (by simp) (by simpa [Effort.total] using h)⟩

/-- A first reader may use a part of the budget. -/
theorem bind (hk : k ≤ budget) (hs : s.Terminated) (hc : c.Keeps m s k spare)
    (hd : ∀ a s', s'.Terminated → s'.ahead.length ≤ s.ahead.length →
      (d a).Keeps (f a) s' (budget - k + spare a) spare') :
    (c >>= d).Keeps (m >>= f) s budget spare' := by
  intro b s'' hrun
  obtain ⟨a, s', hfirst, hrest⟩ := Parse.exists_of_bind hrun
  obtain ⟨w, hw, hwithin⟩ := hc a s' hfirst
  obtain ⟨w', hw', hwithin'⟩ :=
    hd a s' (hwithin.moved.terminated hs) hwithin.moved.length_le b s'' hrest
  refine ⟨w ++ w', ?_, hwithin.append hk hwithin'⟩
  show ((c s).bind fun r => _) = _
  rw [hw, Option.bind_some, hw']
  rfl

/-- A reader that keeps a budget keeps a larger one. -/
theorem weaken (hk : k ≤ budget) (h : c.Keeps m s k spare) : c.Keeps m s budget spare := by
  intro a s' hrun
  obtain ⟨w, hw, hwithin⟩ := h a s' hrun
  exact ⟨w, hw, hwithin.moved, hwithin.rounds, by have := hwithin.paid; omega⟩

/-- What is made of the result of a reader takes no effort of its own. -/
theorem map {g : α → β} (hs : s.Terminated) (h : c.Keeps m s budget fun a => spare' (g a)) :
    Keeps (g <$> c) (g <$> m) s budget spare' := by
  have hsame : g <$> m = m >>= fun a => Pure.pure (g a) := map_eq_pure_bind g m
  rw [hsame]
  exact bind (Nat.le_refl _) hs h fun a s' _ _ => .pure (by omega)

/-- A step that only counts. -/
theorem count_bind {e : Counted β} {c : β → Counted α} {b : β} {w : Effort}
    (he : e s = some ((b, w), s)) (hrounds : ∀ r ∈ w.rounds, r.after < r.before)
    (hk : w.total ≤ budget) (h : (c b).Keeps m s (budget - w.total) spare) :
    (e >>= c).Keeps m s budget spare := by
  intro a s' hrun
  obtain ⟨w', hw', hwithin⟩ := h a s' hrun
  have hfirst : w.Within s s w.total 0 := Effort.within_self hrounds (Nat.le_refl _)
  refine ⟨w ++ w', ?_, hfirst.append hk hwithin⟩
  show ((e s).bind fun r => _) = _
  rw [he, Option.bind_some, hw']
  rfl

/-- A call is paid for by one more in the budget. -/
theorem call_bind {c : Unit → Counted α} {m : Unit → Parse α}
    (h : (c ()).Keeps (m ()) s budget spare) :
    (Account.call >>= c).Keeps (Account.call >>= m) s (budget + 1) spare :=
  count_bind (b := ()) (w := { calls := 1 }) rfl (by simp) (by simp [Effort.total])
    (by simpa [Effort.total, Parse.call_bind] using h)

/-- Counting the tokens ahead takes no effort, and only the counting reader sees the number. -/
theorem tokensAhead_bind {c : Nat → Counted α} {m : Nat → Parse α}
    (h : (c s.ahead.length).Keeps (m 0) s budget spare) :
    (Account.tokensAhead >>= c).Keeps (Account.tokensAhead >>= m) s budget spare :=
  count_bind (w := {}) rfl (by simp) (by simp [Effort.total])
    (by simpa [Effort.total, Parse.tokensAhead_bind] using h)

/-- A round that goes on is a unit of work, and has to have taken a token. -/
theorem goOn_bind {before before' : Nat} {c : Unit → Counted α} {m : Unit → Parse α}
    (hk : 1 ≤ budget) (hless : s.ahead.length < before)
    (h : (c ()).Keeps (m ()) s (budget - 1) spare) :
    (Account.goOn before >>= c).Keeps (Account.goOn before' >>= m) s budget spare :=
  count_bind (b := ()) (w := { rounds := [⟨before, s.ahead.length⟩] }) rfl (by simpa using hless)
    (by simpa [Effort.total] using hk) (by simpa [Effort.total, Parse.goOn_bind] using h)

/-- A step that both readers take. -/
theorem step_bind {p : Parse α} {a : α} {s' : ParserState} (hp : p s = some (a, s'))
    (hback : ∀ w s'' spare, Effort.Within w s' s'' k spare → w.Within s s'' budget spare)
    (h : (d a).Keeps (f a) s' k spare') :
    (liftM p >>= d).Keeps (liftM p >>= f) s budget spare' := by
  -- The step itself is free, and what follows it is all the effort there is.
  intro b s'' hrun
  obtain ⟨a', s₁, hfirst, hrest⟩ := Parse.exists_of_bind hrun
  cases hp.symm.trans hfirst
  obtain ⟨w, hw, hwithin⟩ := h b s'' hrest
  refine ⟨w, ?_, hback _ _ _ hwithin⟩
  show (((p s).map fun r => _).bind fun r => _) = _
  rw [hp, Option.map_some, Option.bind_some, hw, Option.map_some, Effort.empty_append]

/-- A reader that has no other reader to call. -/
theorem of_reads {P : α → ParserState → List Token → Prop} (h : m.Reads s P) :
    Keeps (liftM m) (liftM m) s 0 fun _ => 0 := by
  intro a s' hrun
  obtain ⟨a', s'', hrun', hmoved, -⟩ := h
  cases hrun.symm.trans hrun'
  refine ⟨{}, ?_, hmoved, by simp, ?_⟩
  · show (m s).map _ = _
    rw [hrun']
    rfl
  · have hlength := hmoved.length_le
    show 0 + _ + 0 ≤ _
    omega

/-- A look at the current token takes no effort. -/
theorem current_bind {c : Token → Counted α} {m : Token → Parse α}
    (h : (c s.current).Keeps (m s.current) s budget spare) :
    (liftM Parse.current >>= c).Keeps (liftM Parse.current >>= m) s budget spare :=
  step_bind rfl (fun _ _ _ => id) h

/-- A look at the next token takes no effort. -/
theorem next_bind {c : Token → Counted α} {m : Token → Parse α}
    (h : (c s.next).Keeps (m s.next) s budget spare) :
    (liftM Parse.next >>= c).Keeps (liftM Parse.next >>= m) s budget spare :=
  step_bind rfl (fun _ _ _ => id) h

/-- A fault takes no effort. -/
theorem report_bind {offset : Nat} {fault : SyntaxFault} {c : Unit → Counted α} {m : Unit → Parse α}
    (h : (c ()).Keeps (m ()) (s.blame offset fault) budget spare) :
    (liftM (Parse.report offset fault) >>= c).Keeps (liftM (Parse.report offset fault) >>= m) s
      budget spare :=
  step_bind rfl (fun _ _ _ => .of_blame) h

/-- Moving on takes the next token, if there is one. -/
theorem advance_bind {c : Unit → Counted α} {m : Unit → Parse α} (hs : s.Terminated)
    (hend : s.current.kind = .eof → (c ()).Keeps (m ()) s budget spare)
    (h : ∀ t s', Shift s t s' → (c ()).Keeps (m ()) s' (budget + 8) spare) :
    (liftM Parse.advance >>= c).Keeps (liftM Parse.advance >>= m) s budget spare := by
  -- At the end of the source nothing is taken, so nothing is earned.
  by_cases hahead : s.ahead = []
  · have hsame : s.advance = s := by rw [ParserState.advance, hahead]
    have hcurrent : s.current.kind = .eof := Decidable.not_not.mp fun h => hs.ahead_ne_nil h hahead
    exact step_bind (congrArg (fun s => some ((), s)) hsame) (fun _ _ _ => id) (hend hcurrent)
  · have hshift := Shift.advance hs hahead
    exact step_bind rfl (fun _ _ _ => .of_shift hshift) (h _ _ hshift)

/-- Moving on from a token that is not the end. -/
theorem advance_bind_of_ne {c : Unit → Counted α} {m : Unit → Parse α} (hs : s.Terminated)
    (hcurrent : s.current.kind ≠ .eof)
    (h : ∀ t s', Shift s t s' → (c ()).Keeps (m ()) s' (budget + 8) spare) :
    (liftM Parse.advance >>= c).Keeps (liftM Parse.advance >>= m) s budget spare :=
  advance_bind hs (fun heof => absurd heof hcurrent) h

/-- Moving on, whether or not there is a token. -/
theorem advance_bind_skip {c : Unit → Counted α} {m : Unit → Parse α} (hs : s.Terminated)
    (h : ∀ s' n, s'.Terminated → s'.ahead.length ≤ s.ahead.length → budget ≤ n →
      (c ()).Keeps (m ()) s' n spare) :
    (liftM Parse.advance >>= c).Keeps (liftM Parse.advance >>= m) s budget spare :=
  advance_bind hs (fun _ => h s budget hs (Nat.le_refl _) (Nat.le_refl _)) fun _ s' hs' =>
    h s' _ hs'.terminated hs'.moved.length_le (by omega)

/-- A token without which reading goes another way. -/
theorem expect_bind {wanted : TokenKind} {c : Bool → Counted α} {m : Bool → Parse α}
    (hs : s.Terminated) (hwanted : wanted ≠ .eof)
    (hmiss : ∀ s', (c false).Keeps (m false) s' budget spare)
    (h : ∀ t s', Shift s t s' → t.kind = wanted → (c true).Keeps (m true) s' (budget + 8) spare) :
    (liftM (Parse.expect wanted) >>= c).Keeps (liftM (Parse.expect wanted) >>= m) s
      budget spare := by
  by_cases hkind : s.next.kind = wanted
  · have hshift := Shift.advance hs (hs.ahead_ne_nil_of_next (hkind ▸ hwanted))
    exact step_bind (Parse.expect_of_kind_eq hkind) (fun _ _ _ => .of_shift hshift)
      (h _ _ hshift hkind)
  · exact step_bind (Parse.expect_of_kind_ne hkind) (fun _ _ _ => .of_blame) (hmiss _)

/-- A token without which reading gives up with the result `a`. -/
theorem demand {wanted : TokenKind} {a : α} {c : Counted α} {m : Parse α} (hs : s.Terminated)
    (hwanted : wanted ≠ .eof) (ha : spare a ≤ budget)
    (h : ∀ t s', Shift s t s' → t.kind = wanted → c.Keeps m s' (budget + 8) spare) :
    (liftM (Parse.expect wanted) >>= fun b => if (!b) = true then Pure.pure a else c).Keeps
      (liftM (Parse.expect wanted) >>= fun b => if (!b) = true then Pure.pure a else m) s
        budget spare :=
  expect_bind hs hwanted (fun _ => .pure ha) h

/-- A token without which reading gives up, if it is wanted at all. -/
theorem demand_if {wanted : TokenKind} {a : α} {c : Counted α} {m : Parse α}
    (p : Prop) [Decidable p] (hs : s.Terminated) (hwanted : wanted ≠ .eof) (ha : spare a ≤ budget)
    (h : ∀ s' n, s'.Terminated → s'.ahead.length ≤ s.ahead.length → budget ≤ n →
      s'.current.kind = wanted ∨ ¬p ∧ s' = s → c.Keeps m s' n spare) :
    (if p then liftM (Parse.expect wanted) >>= fun b =>
      if (!b) = true then Pure.pure a else c else c).Keeps
      (if p then liftM (Parse.expect wanted) >>= fun b =>
        if (!b) = true then Pure.pure a else m else m)
      s budget spare := by
  split
  next =>
    refine demand hs hwanted ha fun t s' hs' ht => ?_
    exact h s' _ hs'.terminated hs'.moved.length_le (by omega) (.inl (hs'.current ▸ ht))
  next hp => exact h s budget hs (Nat.le_refl _) (Nat.le_refl _) (.inr ⟨hp, rfl⟩)

/-- At most one semicolon is taken. -/
theorem skipSemicolon_bind {c : Unit → Counted α} {m : Unit → Parse α} (hs : s.Terminated)
    (h : ∀ s' n, s'.Terminated → budget ≤ n → (c ()).Keeps (m ()) s' n spare) :
    (liftM Parse.skipSemicolon >>= c).Keeps (liftM Parse.skipSemicolon >>= m) s budget spare := by
  by_cases hkind : s.next.kind = .semicolon
  · have hshift := Shift.advance hs (hs.ahead_ne_nil_of_next (by simp [hkind]))
    refine step_bind ((Parse.skipSemicolon_eq s).trans (by rw [if_pos hkind]))
      (fun _ _ _ => .of_shift hshift) ?_
    exact h _ _ hshift.terminated (by omega)
  · refine step_bind ((Parse.skipSemicolon_eq s).trans (by rw [if_neg hkind])) (fun _ _ _ => id) ?_
    exact h _ _ hs (Nat.le_refl _)

end Keeps

end Counted

end Rill
