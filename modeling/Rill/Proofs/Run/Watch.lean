import Rill.Proofs.Run.Evaluation

/-!
# Runs under watch

To say that something holds at every point of a run, the run is watched: before every evaluation of
a node, at any depth, a condition is checked, and where it fails the evaluation gives a fault
instead. The evaluation of a node is the one that runs otherwise, `Interpreter.evalNode`, so nothing
of a run escapes the watch.

* `Interpreter.watch`: the evaluator that checks a condition and gives a fault where it fails.
* `Interpreter.Throughout`: the watch never steps in, whatever fault it would give.
  `Interpreter.Sometime` says of the opposite condition that it does.
* `Interpreter.Throughout.check_start`: the first point is among those at which the condition is
  checked.
* `Interpreter.watch_eq_eval_or_fault`: a fault ends every run that meets it. So a watched run is
  the run itself, or the watch stepped in and its fault is the result.
* `Interpreter.Throughout.of_watch`: so one watched run shows that a condition holds throughout, if
  other parts can make it fail only where a fault stopped them.
-/

namespace Rill

namespace Interpreter

/-- A condition on a point of a run: the bound on what follows, the evaluator of the parts, and what
is evaluated in which scope of which world. -/
abbrev Check := Nat → Evaluator → Node → ScopeId → World → Prop

/-- The opposite of a condition. -/
def Check.not (check : Check) : Check :=
  fun bound self node scope w => ¬ check bound self node scope w

instance (check : Check) [∀ bound self node scope w, Decidable (check bound self node scope w)]
    (bound : Nat) (self : Evaluator) (node : Node) (scope : ScopeId) (w : World) :
    Decidable (check.not bound self node scope w) :=
  inferInstanceAs (Decidable (¬ check bound self node scope w))

section Watch

variable (it : Interpreter) (check : Check)
  [∀ bound self node scope w, Decidable (check bound self node scope w)]

/-- Evaluates a node, and gives a fault instead wherever a condition fails. -/
def watch (fault : Fault) : Nat → Evaluator
  | 0, _, _ => fun _ => none
  | bound + 1, node, scope => fun w =>
    if check bound (watch fault bound) node scope w then
      it.evalNode bound (watch fault bound) node scope w
    else some (.error fault, w)

/-- A condition holds at every point of a run: the watch makes no difference, whatever its fault
is. -/
def Throughout (bound : Nat) (node : Node) (scope : ScopeId) (w : World) : Prop :=
  ∀ fault, it.watch check fault bound node scope w = it.eval bound node scope w

/-- A condition holds at some point of a run. -/
def Sometime (bound : Nat) (node : Node) (scope : ScopeId) (w : World) : Prop :=
  ¬ it.Throughout check.not bound node scope w

variable {it check} {fault : Fault} {bound : Nat} {node : Node} {scope : ScopeId} {w : World}

theorem watch_of_check (h : check bound (it.watch check fault bound) node scope w) :
    it.watch check fault (bound + 1) node scope w =
      it.evalNode bound (it.watch check fault bound) node scope w := by
  rw [watch]
  exact if_pos h

theorem watch_of_not_check (h : ¬ check bound (it.watch check fault bound) node scope w) :
    it.watch check fault (bound + 1) node scope w = some (.error fault, w) := by
  rw [watch]
  exact if_neg h

/-- What holds throughout a run holds where it starts, if it does not look at how the parts are
evaluated. -/
theorem Throughout.check_start (h : it.Throughout check (bound + 1) node scope w)
    (hparts : ∀ parts parts', check bound parts node scope w → check bound parts' node scope w)
    (parts : Evaluator) : check bound parts node scope w := by
  apply Classical.byContradiction
  intro hnot
  -- The watch would step in at once, and the run would give every fault there is.
  have hfault : ∀ fault, it.eval (bound + 1) node scope w = some (.error fault, w) := by
    intro fault
    rw [← h fault, watch_of_not_check fun hcheck => hnot (hparts _ _ hcheck)]
  have hgap := hfault .gap
  rw [hfault .divisionByZero] at hgap
  cases hgap

end Watch

/-! ## Watched runs and runs -/

section Together

variable {it : Interpreter} {check : Check}
  [∀ bound self node scope w, Decidable (check bound self node scope w)]

/-- Under a discipline a watched run and the run itself are in lockstep, if they part in the right
way wherever the condition fails. -/
theorem together_watch {D : Discipline} [D.Lenient] {P : Parting} (hit : it.registry = standard)
    (hpermits : ∀ scopes s name, D.Permits scopes s name) {fault : Fault}
    (hcheck : ∀ bound node scope w, D.Fits node → D.Holds w → D.Open w.scopes scope →
      check bound (it.watch check fault bound) node scope w ∨
        P.Ends .error (some (Value.error fault, w)) (it.eval (bound + 1) node scope w))
    (bound : Nat) : Together D P (it.watch check fault bound) (it.eval bound) := by
  induction bound with
  | zero => exact fun _ _ _ _ _ _ => .inl ⟨rfl, by rintro _ _ ⟨⟩⟩
  | succ bound ih =>
    intro node scope w hfits hw hscope
    by_cases h : check bound (it.watch check fault bound) node scope w
    · refine .congr (watch_of_check h) rfl (lockstep_evalNode ih hit bound hw hscope hfits ?_ ?_)
      · exact fun _ _ _ _ => .of_lenient fun _ _ _ _ _ _ _ _ => hpermits _ _ _
      · exact fun _ _ _ _ => .of_lenient
    · refine .inr ?_
      rw [watch_of_not_check h]
      exact (hcheck bound node scope w hfits hw hscope).resolve_left h

/-- A watched run is the run itself, unless the watch steps in: then its fault is the result. -/
theorem watch_eq_eval_or_fault (hit : it.registry = standard) (fault : Fault) (bound : Nat)
    (node : Node) (scope : ScopeId) (w : World) :
    it.watch check fault bound node scope w = it.eval bound node scope w ∨
      ∃ w', it.watch check fault bound node scope w = some (.error fault, w') := by
  have htogether : Together .free (.stopping fault) (it.watch check fault bound)
    (it.eval bound) := by
    refine together_watch hit (fun _ _ _ => trivial) ?_ bound
    exact fun _ _ _ w _ _ _ => .inr ⟨w, rfl⟩
  exact (htogether node (.of_lax id) trivial trivial).imp_left And.left

/-- Other parts make a condition fail only where a fault stopped the first ones, and then it stops
the node. -/
def Check.Steady (check : Check) (it : Interpreter) : Prop :=
  ∀ ⦃fault : Fault⦄ ⦃bound : Nat⦄ ⦃self
    self' : Evaluator⦄ ⦃node : Node⦄ ⦃scope : ScopeId⦄ ⦃w : World⦄,
    Together .free (.stopping fault) self self' → check bound self node scope w →
      check bound self' node scope w ∨ ∃ w',
        it.evalNode bound self node scope w = some (.error fault, w')

/-- Two watched runs do the same until the watch steps in. -/
theorem together_watches (hit : it.registry = standard) (hsteady : check.Steady it)
    (fault fault' : Fault) (bound : Nat) :
    Together .free (.stopping fault) (it.watch check fault bound)
    (it.watch check fault' bound) := by
  induction bound with
  | zero => exact fun _ _ _ _ _ _ => .inl ⟨rfl, by rintro _ _ ⟨⟩⟩
  | succ bound ih =>
    intro node scope w hfits hw hscope
    by_cases h : check bound (it.watch check fault bound) node scope w
    · rcases hsteady ih h with h' | ⟨w', hstop⟩
      · refine .congr (watch_of_check h) (watch_of_check h')
          (lockstep_evalNode ih hit bound hw hscope hfits ?_ ?_)
        · exact fun _ _ _ _ => .of_lenient fun _ _ _ _ _ _ _ _ => trivial
        · exact fun _ _ _ _ => .of_lenient
      · exact .inr ⟨w', (watch_of_check h).trans hstop⟩
    · exact .inr ⟨w, watch_of_not_check h⟩

/-- A condition holds throughout a run if the run gives no breach while the watch would step in with
one. -/
theorem Throughout.of_watch (hit : it.registry = standard) (hsteady : check.Steady it)
    (why : Breach) {bound : Nat} {node : Node} {scope : ScopeId} {w : World}
    (h : ∀ r ∈ it.watch check (.breach why) bound node scope w, r.1.isBreach = false) :
    it.Throughout check bound node scope w := by
  -- A watch that ends in no breach has never stopped, so it is the plain run.
  -- Any other fault would have stopped it at the same point.
  have hnot (w' : World) : it.watch check (.breach why) bound node scope w ≠
    some (.error (.breach why), w') := by
    intro hstop
    cases h _ hstop
  have heval : it.watch check (.breach why) bound node scope w = it.eval bound node scope w :=
    (watch_eq_eval_or_fault hit (.breach why) bound node scope w).resolve_right
      fun ⟨w', hstop⟩ => hnot w' hstop
  intro fault
  have hwatches : it.watch check (.breach why) bound node scope w =
    it.watch check fault bound node scope w ∨
      ∃ w', it.watch check (.breach why) bound node scope w = some (.error (.breach why), w') :=
    (together_watches hit hsteady (.breach why) fault bound node (.of_lax id) trivial
      trivial).imp_left And.left
  rcases hwatches with heq | ⟨w', hstop⟩
  · exact heq.symm.trans heval
  · exact (hnot w' hstop).elim

end Together

end Interpreter

end Rill
