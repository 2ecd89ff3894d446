import Rill.Proofs.Run.Call
import Rill.Proofs.Session.Confinement

/-!
# Assignments happen at once or not at all

The right side of an assignment can do anything, assign the same name and fail halfway included.
What comes after it is all or nothing: an assignment that fails leaves the world as its right side
left it, and one that succeeds assigns its value once.

* `Interpreter.assignmentResult`: what an assignment comes to. The value that a compound one starts
  from is the one that the name has after the right side.
* `Interpreter.Settles`: what an assignment does to the world that its right side left.
* `Interpreter.exists_evalAssignment`: the assignment as the evaluator makes it.
* `Interpreter.AtomicIn`: all assignments that could be made in a world are atomic, and compound
  ones make no scope an owner.
* `Interpreter.throughout_atomicAt`: so it is in every world that a run of a session comes to.
-/

namespace Rill

/-- Whether an infix operator assigns. -/
def InfixOp.assigns : InfixOp → Bool
  | .assign | .addAssign | .subAssign | .mulAssign | .divAssign => true
  | _ => false

namespace Interpreter

/-! ## One assignment -/

/-- What an assignment to a name comes to, if its right side gives `r` and the name has the value
`current` then. -/
def assignmentResult (op : InfixOp) (name : Bytes) (current : Option Value) (r : Value) : Value :=
  if r.isError ∨ op = .assign then r
  else current.elim (.error (.unbound name)) fun c => Value.compound op c r

/-- What an assignment with the result `v` does to the world `u` that its right side left: nothing
if it fails, and else it assigns the result once. -/
structure Settles (scope : ScopeId) (name : Bytes) (v : Value) (u w' : World) : Prop where
  failed : v.isError = true → w' = u
  done : v.isError = false → World.Noted { u with scopes := (u.scopes.assign scope name v).2 } w'

variable {it : Interpreter} {self : Evaluator} {scope : ScopeId} {op : InfixOp} {left right : Expr}
  {pos bound : Nat} {name : Name} {n : Bytes} {current : Option Value} {r v : Value}
  {w w₁ w' u : World}

/-- An error settles nothing: the world stays as it is. -/
theorem settles_error (scope : ScopeId) (n : Bytes) (fault : Fault) (u : World) :
    Settles scope n (.error fault) u u :=
  ⟨fun _ => rfl, fun h => nomatch h⟩

/-- A value that is no error is assigned. -/
theorem exists_settles (hv : v.isError = false) (scope : ScopeId) (n : Bytes) (u : World) :
    ∃ w', (do Run.assign scope n v; return v : Run Value) u = some (v, w') ∧
      Settles scope n v u w' := by
  obtain ⟨w', hassign, hnoted⟩ := Run.assign_noted scope n v u
  refine ⟨w', ?_, fun h => ?_, fun _ => hnoted⟩
  · rw [Run.bind_apply, hassign]
    rfl
  · rw [hv] at h
    cases h

theorem assignmentResult_of_isError (hr : r.isError = true) : assignmentResult op n current r = r :=
  if_pos (.inl hr)

theorem assignmentResult_assign : assignmentResult .assign n current r = r := if_pos (.inr rfl)

/-- A compound assignment gives the compound of the old value and the right side, or the fault that
there is no old one. -/
theorem assignmentResult_compound (hr : r.isError = false) (hop : op ≠ .assign) :
    assignmentResult op n current r = current.elim (.error (.unbound n)) fun c =>
      Value.compound op c r :=
  if_neg (by simp [hr, hop])

/-- An assignment to a name has a result if its right side has one. -/
theorem exists_evalAssignment (op : InfixOp) (name : Name)
    (hright : self (.expr right) scope w = some (r, u)) :
    ∃ w', evalAssignment self scope op (.ident name) right w =
        some (assignmentResult op name.text (u.scopes.get? scope name.text) r, w') ∧
      Settles scope name.text (assignmentResult op name.text (u.scopes.get? scope name.text) r) u
        w' := by
  have hget : Run.get? scope name.text u = some (u.scopes.get? scope name.text, u) := rfl
  rw [evalAssignment, Run.bind_apply, hright, Option.bind_some]
  dsimp only
  -- The right side may fail, then the name may have no value, and last the operator may refuse its
  -- operands.
  split
  next fault => exact ⟨u, rfl, settles_error _ _ _ _⟩
  next hnot =>
    have hr : r.isError = false := Value.isError_eq_false hnot
    split
    next hop =>
      rw [hop, assignmentResult_assign]
      exact exists_settles hr _ _ _
    next hop =>
      rw [assignmentResult_compound hr hop, Run.bind_apply, hget, Option.bind_some]
      dsimp only
      cases u.scopes.get? scope name.text with
      | none => exact ⟨u, rfl, settles_error _ _ _ _⟩
      | some c =>
        dsimp only [Option.elim_some]
        generalize Value.compound op c r = v
        split
        next => exact ⟨u, rfl, settles_error _ _ _ _⟩
        next hnot => exact exists_settles (Value.isError_eq_false hnot) _ _ _

/-! ## All assignments in a world -/

/-- The assignments that could be made in a world, from all scopes that are there, are atomic. The
right side is evaluated in the world `w₁`, in which nothing but the log has changed. -/
structure AtomicIn (it : Interpreter) (w : World) : Prop where
  /-- An assignment to something that is no name fails, and changes nothing but the log. -/
  refused : ∀ bound scope pos op left right, op.assigns = true → (∀ name, left ≠ .ident name) →
    ∃ w', it.eval (bound + 1) (.expr (.infixed pos op left right)) scope w =
        some (.error (.notAssignable left.render), w') ∧ w.Noted w'
  /-- An assignment to a name has no result if its right side has none. -/
  unfinished : ∀ bound scope pos op name right w₁, op.assigns = true →
    announce (.expr (.infixed pos op (.ident name) right)) w = some ((), w₁) →
    it.eval bound (.expr right) scope w₁ = none →
    it.eval (bound + 1) (.expr (.infixed pos op (.ident name) right)) scope w = none
  /-- Else it has one, and settles what the right side left. -/
  settled : ∀ bound scope pos op name right w₁ r u, op.assigns = true →
    announce (.expr (.infixed pos op (.ident name) right)) w = some ((), w₁) →
    it.eval bound (.expr right) scope w₁ = some (r, u) →
    ∃ v w', it.eval (bound + 1) (.expr (.infixed pos op (.ident name) right)) scope w =
      some (v, w') ∧
      v = assignmentResult op name.text (u.scopes.get? scope name.text) r ∧
        Settles scope name.text v u w'
  /-- A compound assignment makes no scope an owner beyond those that its right side makes
  owners. -/
  owners : ∀ bound scope pos op name right w₁ r u v w', scope < w.scopes.size → op.assigns = true →
    op ≠ .assign →
    announce (.expr (.infixed pos op (.ident name) right)) w = some ((), w₁) →
    it.eval bound (.expr right) scope w₁ = some (r, u) →
    it.eval (bound + 1) (.expr (.infixed pos op (.ident name) right)) scope w = some (v, w') →
    ∀ s n, w'.scopes.owns s n = u.scopes.owns s n

/-- An assignment is evaluated as one. -/
theorem eval_of_assigns (hop : op.assigns = true)
    (hlog : announce (.expr (.infixed pos op left right)) w = some ((), w₁)) :
    it.eval (bound + 1) (.expr (.infixed pos op left right)) scope w =
      evalAssignment (it.eval bound) scope op left right w₁ := by
  rw [eval, evalNode_of_announce hlog]
  cases op with
  | assign | addAssign | subAssign | mulAssign | divAssign => rfl
  | _ => cases hop

/-- An assignment whose right side has a value has one too, and changes its name with it or not at
all. -/
theorem exists_eval_assignment (hop : op.assigns = true)
    (hlog : announce (.expr (.infixed pos op (.ident name) right)) w = some ((), w₁))
    (hright : it.eval bound (.expr right) scope w₁ = some (r, u)) :
    ∃ v w', it.eval (bound + 1)
      (.expr (.infixed pos op (.ident name) right)) scope w = some (v, w') ∧
      v = assignmentResult op name.text (u.scopes.get? scope name.text) r ∧
        Settles scope name.text v u w' := by
  obtain ⟨w', hrun, hsettles⟩ := exists_evalAssignment op name hright
  exact ⟨_, w', (eval_of_assigns hop hlog).trans hrun, rfl, hsettles⟩

/-- A compound assignment that succeeds assigns a name that can be read, so it makes no scope an
owner. -/
theorem Settles.owns_eq (h : Settles scope n v u w')
    (hv : v = assignmentResult op n (u.scopes.get? scope n) r) (hop : op ≠ .assign)
    (hu : u.scopes.Arisen) (hscope : scope < u.scopes.size) (s : ScopeId) (m : Bytes) :
    w'.scopes.owns s m = u.scopes.owns s m := by
  cases herror : v.isError with
  | true => rw [h.failed herror]
  | false =>
    obtain ⟨files, journal, rfl⟩ := h.done herror
    have hr : r.isError = false := by
      refine Bool.eq_false_iff.mpr fun hr => ?_
      rw [hv, assignmentResult_of_isError hr, hr] at herror
      cases herror
    -- Without a value to start from there is a fault, so the name can be read.
    have hread : (u.scopes.get? scope n).isSome = true := by
      rw [hv, assignmentResult_compound hr hop] at herror
      cases hget : u.scopes.get? scope n with
      | none =>
        rw [hget] at herror
        cases herror
      | some c => rfl
    -- A name that can be read has an owner, and assigning it makes no other.
    exact hu.anchored.owns_assign hu.formed hscope hread v s m

section

variable (hit : it.registry = standard)

include hit

/-- In a sound world all assignments are atomic. -/
theorem atomicIn (hw : w.Sound) : it.AtomicIn w := by
  refine ⟨?_, ?_, fun _ _ _ _ _ _ _ _ _ => exists_eval_assignment, ?_⟩
  · intro bound scope pos op left right hop hleft
    obtain ⟨w₁, hlog, hnoted⟩ := Run.log_noted .trace "eval"
      [("node", .word (Node.expr (.infixed pos op left right)).label)] w
    refine ⟨w₁, ?_, hnoted⟩
    rw [eval_of_assigns hop hlog]
    cases left with
    | ident name => exact absurd rfl (hleft name)
    | _ => rfl
  · intro bound scope pos op name right w₁ hop hlog hright
    rw [eval_of_assigns hop hlog, evalAssignment, Run.bind_apply, hright]
    rfl
  · intro bound scope pos op name right w₁ r u v w' hscope hop hne hlog hright hrun
    obtain ⟨hscopes, hloader, -⟩ := Run.quiet_log _ _ _ _ _ _ hlog
    have hw₁ : w₁.Sound := hw.congr hscopes (congrArg Loader.cache hloader)
    have hscope₁ : scope < w₁.scopes.size := hscopes ▸ hscope
    -- The right side leaves a sound world in which the scope is still there.
    obtain ⟨hu, hgrown, -⟩ :=
      ((together_loose hit bound).part (.expr right) (.of_lax id) hw₁ hscope₁).keeps r u hright
    obtain ⟨v', w'', hrun', hv, hsettles⟩ := exists_eval_assignment hop hlog hright
    obtain ⟨rfl, rfl⟩ := Prod.mk.inj (Option.some.inj (hrun.symm.trans hrun'))
    exact hsettles.owns_eq hv hne hu.arisen (Nat.lt_of_lt_of_le hscope₁ hgrown.size_le)

end

/-! ## Whole runs -/

/-- At a point of a run all assignments that could be made are atomic, whatever is evaluated
there. -/
def AtomicAt (it : Interpreter) (_bound : Nat) (_parts : Evaluator) (_node : Node)
    (_scope : ScopeId) (w : World) :
    Prop :=
  it.AtomicIn w

open Classical in
noncomputable instance (bound : Nat) (parts : Evaluator) (node : Node)
    (scope : ScopeId) (w : World) :
    Decidable (it.AtomicAt bound parts node scope w) :=
  inferInstance

/-- In every world that a run of a session comes to, assignments are atomic. -/
theorem throughout_atomicAt (it : Interpreter) (hit : it.registry = standard)
    (p : Program) (bound : Nat) (scope : ScopeId) (w : World) (h : it.Starts p scope w) :
    it.Throughout it.AtomicAt bound (.program p) scope w := by
  intro fault
  obtain ⟨hw, hscope⟩ := h.sound hit
  have htogether : Together loose .never (it.watch it.AtomicAt fault bound) (it.eval bound) := by
    refine together_watch hit permits_loose ?_ bound
    exact fun bound node scope w _ hw _ => .inl (atomicIn hit hw)
  exact ((htogether (.program p) (.of_lax id) hw hscope).resolve_right id).1

/-- The right side of a compound assignment assigns the same name, and a second one divides by
zero. -/
def overtaken : Bytes := text "let x = 10; let f = fn() { x = 5; return 2; }; x += f(); x /= 0;"

/-- The first compound assignment takes effect as a whole, and the one that fails not at all. -/
theorem throughout_overtaken :
    (parse overtaken).diagnostics = [] ∧
      plain.Starts (parse overtaken).program World.globalScope plainWorld ∧
      plain.Throughout plain.AtomicAt 30 (.program (parse overtaken).program)
        World.globalScope plainWorld ∧
      (plain.eval 30 (.program (parse overtaken).program) World.globalScope plainWorld).map
        (fun result => (result.1.isError,
          (result.2.scopes.get? World.globalScope (text "x")).bind result.2.scopes.inspect)) =
        some (true, some (text "7")) := by
  have hstarts : plain.Starts (parse overtaken).program World.globalScope plainWorld :=
    .program (.start _ _) (by decide) _
  refine ⟨by decide +kernel, hstarts, ?_, by decide +kernel⟩
  exact throughout_atomicAt plain rfl _ 30 World.globalScope plainWorld hstarts

end Interpreter

end Rill
