import Mathlib
import Rill.Proofs.Session.Reachable
import Rill.Proofs.Signal.Agreement

/-!
# Signals stay signals exactly where no node uses one

The blocks of a branch or a loop can end with a signal, and branches and loops are expressions. So a
signal can come up wherever a value is asked for. This module shows that the nodes that use a value
as `Uses` says are the only places where a signal becomes one: operators, branches, loops, closures,
modules and builtins add nothing to that.

* `Interpreter.agrees_evalNode`: the step. A node that uses no signal leaves the shelter whole.
* `Interpreter.contained_iff_signalFreeAt`: at one point, a node uses no signal exactly if none has
  become a value around it.
* `Interpreter.alike_watch`: the run. Watching for the one is watching for the other.
* `Interpreter.throughout_signalFreeAt_iff`: a run is free of signals among its values, from the
  first point to the last, exactly if no node of it uses one. Then its result is no signal either
  (`Interpreter.eval_program_of_throughout`).
* `Interpreter.isSignal_nestedReturn`: a run that is not.
-/

namespace Rill

namespace Interpreter

variable {it : Interpreter} {S : ScopeId → Prop} {self self' : Evaluator} {base : Nat}
  {scope : ScopeId} {w : World}

/-! ## One node -/

section Step

variable (hself : Alike S self self') (hscope : S scope) (hlt : scope < base)
  (hw : w.Sheltered S base)

/-- Reading a name in a sheltered scope agrees with itself, and gives a settled value. -/
theorem agrees_evalName (name : Bytes) (hscope : S scope) (hw : w.Sheltered S base) :
    Run.Agrees S base (·.Settled S) (it.evalName scope name) (it.evalName scope name) w := by
  unfold evalName
  split
  · exact .pure hw (.leaf rfl)
  · refine (Run.agrees_get? hw hscope).bind fun found w' _ hw' hfound => ?_
    cases found with
    | none => exact .pure hw' (.leaf rfl)
    | some v => exact .pure hw' (hfound v rfl)

/-- What a call applies is settled, if the call uses no signal. -/
theorem agrees_apply_of_callOf (hself : Alike S self self') (hit : it.registry = standard)
    {e : Expr} {f : Value} {args : List Value} {u : World} (hcall : CallOf self scope w e f args u)
    (hu : u.Sheltered S base) (hf : f.Outcome S) (hargs : ∀ v ∈ args, v.Outcome S)
    (huses : ∀ use, Uses self scope w (.expr e) use → use.value.isSignal = false) :
    Run.Agrees S base (·.Settled S) (it.apply self f args) (it.apply self' f args) u := by
  refine agrees_apply hself hit hu hf ?_ ?_
  · intro v hv
    exact (hargs v hv).to_settled (huses _ (.argument hcall hv))
  · rintro stamp stamp' parameters body outer inner v u w' rfl hcount henter hbody
    exact huses _ (.function hcall hcount henter hbody)

include hself hscope hlt hw

/-- A plain assignment binds its right side as it is. What a compound assignment binds is the result
of an operator, and that is never a signal. -/
theorem agrees_evalAssignment {pos : Nat} {op : InfixOp} {left right : Expr}
    (huses : ∀ use, Uses self scope w (.expr (.infixed pos op left right)) use →
      use.value.isSignal = false) :
    Run.Agrees S base (·.Outcome S) (evalAssignment self scope op left right)
      (evalAssignment self' scope op left right) w := by
  cases left with
  | ident name =>
    refine (hself _ hscope hlt hw).bind fun v w₁ hright hw₁ hv => ?_
    cases v with
    | error => exact .pure hw₁ hv
    | _ =>
      dsimp only
      split
      next hop =>
        subst hop
        have hsettled := hv.to_settled (huses _ (.assignment hright rfl))
        exact (Run.agrees_assign hw₁ hsettled).bind fun _ w₂ _ hw₂ _ => .pure hw₂ hv
      next =>
        refine (Run.agrees_get? hw₁ hscope).bind fun found w₂ _ hw₂ _ => ?_
        cases found with
        | none => exact .pure hw₂ (.leaf rfl)
        | some current =>
          -- Operators give leaves, whatever their operands are.
          have hleaf := fun v => Value.isLeaf_of_isPlain (Value.isPlain_compound op current v)
          dsimp only
          split
          next => exact .pure hw₂ (.leaf rfl)
          next =>
            refine (Run.agrees_assign hw₂ (.leaf (hleaf _))).bind fun _ w₃ _ hw₃ _ => ?_
            exact .pure hw₃ (.leaf (hleaf _))
  | _ => exact .pure hw (.leaf rfl)

/-- A call gives a settled value, and so does that of a member of a module. -/
theorem agrees_evalCall (hit : it.registry = standard) {rounds pos : Nat} {callee : Expr}
    {arguments : List Expr}
    (huses : ∀ use, Uses self scope w (.expr (.call pos callee arguments)) use →
      use.value.isSignal = false) :
    Run.Agrees S base (·.Settled S) (it.evalExpr rounds self scope (.call pos callee arguments))
      (it.evalExpr rounds self' scope (.call pos callee arguments)) w := by
  refine (hself _ hscope hlt hw).bind fun f w₁ hcallee hw₁ hf => ?_
  cases f with
  | error => exact .pure hw₁ (.leaf rfl)
  -- What is called may be anything but a fault, also a signal, which is no function.
  | _ =>
    refine (agrees_evalAll hself hscope hlt hw₁ arguments).bind fun r w₂ hargs hw₂ hr => ?_
    cases r with
    | error => exact .pure hw₂ (.leaf rfl)
    | ok args =>
      exact agrees_apply_of_callOf hself hit (.call hcallee rfl hargs) hw₂ hf (hr args rfl) huses

/-- A member of a module is the same in the shelter, if no signal is used for it. -/
theorem agrees_evalMember (hit : it.registry = standard) {pos : Nat} {left right : Expr}
    (huses : ∀ use, Uses self scope w (.expr (.infixed pos .member left right)) use →
      use.value.isSignal = false) :
    Run.Agrees S base (·.Settled S) (it.evalMember self scope left right)
      (it.evalMember self' scope left right) w := by
  refine (hself _ hscope hlt hw).bind fun v w₁ hleft hw₁ hv => ?_
  cases v with
  | module name path inner =>
    -- Names are looked up in the scope of the module, which is sheltered with it.
    have hinner : S inner := hv.module_scope
    cases right with
    | ident name =>
      refine (Run.agrees_get? hw₁ hinner).bind fun found w₂ _ hw₂ hfound => .pure hw₂ ?_
      cases found with
      | none => exact .leaf rfl
      | some v => exact hfound v rfl
    | call pos' callee arguments =>
      cases callee with
      | ident name =>
        refine (Run.agrees_get? hw₁ hinner).bind fun found w₂ hread hw₂ hfound => ?_
        obtain ⟨hget, rfl⟩ := Prod.mk.inj (Option.some.inj hread)
        cases found with
        | none => exact .pure hw₁ (.leaf rfl)
        | some f =>
          refine (agrees_evalAll hself hscope hlt hw₁ arguments).bind fun r w₂ hargs hw₂ hr => ?_
          cases r with
          | error => exact .pure hw₂ (.leaf rfl)
          | ok args =>
            -- A call through a module is a call, so its arguments are among what is used.
            have hcall : CallOf self scope w
                (.infixed pos .member left (.call pos' (.ident name) arguments)) f args w₂ :=
              .member hleft hget hargs
            exact agrees_apply_of_callOf hself hit hcall hw₂ (.settled (hfound f rfl))
              (hr args rfl) huses
      | _ => exact .pure hw₁ (.leaf rfl)
    | _ => exact .pure hw₁ (.leaf rfl)
  | _ => exact .pure hw₁ (.leaf rfl)

/-- An expression gives the same outcome in the shelter, if no signal is used for it. -/
theorem agrees_evalExpr (hit : it.registry = standard) (rounds : Nat) (e : Expr)
    (huses : ∀ use, Uses self scope w (.expr e) use → use.value.isSignal = false) :
    Run.Agrees S base (·.Outcome S) (it.evalExpr rounds self scope e)
      (it.evalExpr rounds self' scope e) w := by
  cases e with
  | ident name => exact (agrees_evalName name.text hscope hw).imp fun _ _ _ h => .settled h
  | array pos elements =>
    refine (agrees_evalAll hself hscope hlt hw elements).bind fun r w₁ hrun hw₁ hr => ?_
    cases r with
    | error => exact .pure hw₁ (.leaf rfl)
    | ok vs =>
      have hvs : ∀ v ∈ vs, v.Settled S := fun v hv =>
        (hr vs rfl v hv).to_settled (huses _ (.element hrun hv))
      have hquiet := Run.quiet_array (Value.hereditary_settled S) hvs
      exact (Run.Agrees.of_quiet hw₁ hquiet).imp fun _ _ _ h => .settled h
  | hash pos pairs =>
    refine (agrees_evalPairs hself hscope hlt hw (List.forall_mem_nil _) pairs).imp ?_
    rintro v w₁ hrun (hleaf | ⟨stamp, entries, rfl, hentries⟩)
    · exact .leaf hleaf
    · refine .settled (.hash (fun e he => (hentries e he).1) fun e he => ?_)
      exact (hentries e he).2.to_settled (huses _ (.entry hrun he))
  | prefixed pos op operand =>
    refine (hself _ hscope hlt hw).bind fun v w₁ _ hw₁ _ => ?_
    cases v with
    | error => exact .pure hw₁ (.leaf rfl)
    | _ => exact .pure hw₁ (.leaf (Value.isLeaf_of_isPlain (Value.isPlain_prefixed _ _)))
  | infixed pos op left right =>
    cases op with
    | assign | addAssign | subAssign | mulAssign | divAssign =>
      exact agrees_evalAssignment hself hscope hlt hw huses
    | member =>
      exact (agrees_evalMember hself hscope hlt hw hit huses).imp fun _ _ _ h => .settled h
    | _ =>
      refine (hself _ hscope hlt hw).bind fun a w₁ _ hw₁ _ => ?_
      cases a with
      | error => exact .pure hw₁ (.leaf rfl)
      | _ =>
        refine (hself _ hscope hlt hw₁).bind fun b w₂ _ hw₂ _ => ?_
        cases b with
        | error => exact .pure hw₂ (.leaf rfl)
        | _ => exact .pure hw₂ (.leaf (Value.isLeaf_of_isPlain (Value.isPlain_infixed _ _ _)))
  | index pos collection key =>
    refine (hself _ hscope hlt hw).bind fun c w₁ _ hw₁ hc => ?_
    -- A signal has no elements, so indexing it is a fault.
    have hindex : ∀ k, (Value.index c k).Outcome S := by
      intro k
      cases hc with
      | settled hc => exact .settled ((Value.hereditary_settled S).index hc k).settled
      | broken => exact .leaf rfl
      | returned => exact .leaf rfl
    cases c with
    | error => exact .pure hw₁ (.leaf rfl)
    | _ =>
      refine (hself _ hscope hlt hw₁).bind fun k w₂ _ hw₂ _ => ?_
      cases k with
      | error => exact .pure hw₂ (.leaf rfl)
      | _ => exact .pure hw₂ (hindex _)
  | call pos callee arguments =>
    exact (agrees_evalCall hself hscope hlt hw hit huses).imp fun _ _ _ h => .settled h
  | function pos parameters body =>
    refine (Run.Agrees.of_quiet hw Run.quiet_stamp).bind fun stamp w₁ _ hw₁ _ => ?_
    exact .pure hw₁ (.settled (.function hscope))
  | conditional pos condition consequence elifs alternative =>
    exact agrees_evalElifs hself hscope hlt hw alternative _
  | loop pos letPos counter start condition step body =>
    refine .bind_scope hw (fun o ho => Option.some.inj ho ▸ hscope) fun inner w₁ _ _ hinner hw₁ =>
      ?_
    refine (hself _ hinner (Nat.lt_succ_self inner) hw₁).bind fun v w₂ _ hw₂ hv => ?_
    cases v with
    | error => exact .pure hw₂ hv
    | _ => exact agrees_evalRounds hself hscope _ _ _ _ _ hinner (Nat.lt_succ_self inner) hw₂
  | _ => exact .pure hw (.leaf rfl)

/-- A statement gives the same outcome in the shelter, if no signal is used for it. -/
theorem agrees_evalStmt (s : Stmt)
    (huses : ∀ use, Uses self scope w (.stmt s) use → use.value.isSignal = false) :
    Run.Agrees S base (·.Outcome S) (evalStmt self scope s) (evalStmt self' scope s) w := by
  cases s with
  | binding pos name value =>
    refine (hself _ hscope hlt hw).bind fun v w₁ hrun hw₁ hv => ?_
    cases v with
    | error => exact .pure hw₁ hv
    | _ =>
      -- The value is used, so it is no signal, and what is bound is settled.
      have hsettled := hv.to_settled (huses _ (.binding hrun rfl))
      exact (Run.agrees_create hw₁ hsettled).bind fun _ w₂ _ hw₂ _ => .pure hw₂ (.leaf rfl)
  | returned pos value =>
    refine (hself _ hscope hlt hw).bind fun v w₁ _ hw₁ hv => ?_
    cases v with
    | error => exact .pure hw₁ hv
    | _ =>
      refine (Run.Agrees.of_quiet hw₁ Run.quiet_stamp).bind fun stamp w₂ _ hw₂ _ => ?_
      exact .pure hw₂ (.returned hv)
  | broken => exact .pure hw .broken
  | expression first value => exact hself _ hscope hlt hw

omit hself hscope hlt hw in
/-- A program gives a signal only by giving up one that its `return` carries. -/
theorem carriedBy_of_evalProgram {result v : Value} {w' : World} {statements : List Stmt}
    (hresult : result.isSignal = false)
    (h : evalProgram self scope result statements w = some (v, w')) (hv : v.isSignal = true) :
    carriedBy self scope statements w = some (some v, w') := by
  induction statements generalizing result w with
  | nil =>
    obtain ⟨rfl, -⟩ := Prod.mk.inj (Option.some.inj h)
    -- Statements that end without a `return` give the value of the last one, which is no signal: a
    -- `break` at this level gives the null value.
    rw [hresult] at hv
    cases hv
  | cons s ss ih =>
    obtain ⟨u, w₁, hs, hrest⟩ := Run.exists_of_bind_eq_some h
    rw [carriedBy, Run.bind_apply, hs, Option.bind_some]
    cases u with
    | returned =>
      obtain ⟨rfl, rfl⟩ := Prod.mk.inj (Option.some.inj hrest)
      rfl
    | error =>
      obtain ⟨rfl, -⟩ := Prod.mk.inj (Option.some.inj hrest)
      cases hv
    | broken => exact ih rfl hrest
    | _ => exact ih rfl hrest

/-- A node that uses no signal leaves the shelter whole. If it is a program or a call, it gives
none. -/
theorem agrees_evalNode (hit : it.registry = standard) {rounds : Nat} {node : Node}
    (hcontained : Contained rounds self node scope w) :
    Run.Agrees S base (fun v => v.Outcome S ∧ (unwraps node = true → v.isSignal = false))
      (it.evalNode rounds self node scope) (it.evalNode rounds self' node scope) w := by
  refine (Run.Agrees.of_quiet hw (Run.quiet_log _ _ _)).bind fun _ w₁ hlog hw₁ _ => ?_
  have huses := hcontained w₁ hlog
  cases node with
  | program p =>
    refine (agrees_evalProgram hself hscope hlt hw₁ (.leaf rfl) p.statements).imp ?_
    intro v w₂ hrun hv
    refine ⟨hv, fun _ => ?_⟩
    cases hsignal : v.isSignal with
    | false => rfl
    | true =>
      rw [← hsignal]
      exact huses _ (.program (carriedBy_of_evalProgram rfl hrun hsignal))
  | block b =>
    refine (agrees_evalBlock hself hscope hlt hw₁ (.leaf rfl) b.statements).imp ?_
    exact fun v _ _ hv => ⟨hv, by rintro ⟨⟩⟩
  | stmt s =>
    refine (agrees_evalStmt hself hscope hlt hw₁ s huses).imp ?_
    exact fun v _ _ hv => ⟨hv, by rintro ⟨⟩⟩
  | expr e =>
    -- Only calls unwrap a signal. Of all other expressions nothing more is claimed than an outcome.
    have hplain : unwraps (.expr e) = false → Run.Agrees S base
        (fun v => v.Outcome S ∧ (unwraps (.expr e) = true → v.isSignal = false))
        (it.evalExpr rounds self scope e) (it.evalExpr rounds self' scope e) w₁ := by
      intro hnot
      refine (agrees_evalExpr hself hscope hlt hw₁ hit rounds e huses).imp ?_
      exact fun v _ _ hv => ⟨hv, fun h => absurd h (by simp [hnot])⟩
    cases e with
    | call =>
      refine (agrees_evalCall hself hscope hlt hw₁ hit huses).imp ?_
      exact fun v _ _ hv => ⟨.settled hv, fun _ => hv.isSignal_eq_false⟩
    | infixed pos op left right =>
      cases op with
      | member =>
        refine (agrees_evalMember hself hscope hlt hw₁ hit huses).imp ?_
        exact fun v _ _ hv => ⟨.settled hv, fun _ => hv.isSignal_eq_false⟩
      | _ => exact hplain rfl
    | _ => exact hplain rfl

end Step

/-! ## Uses under another evaluator -/

section Transfer

variable (hself : Alike S self self') (hscope : S scope) (hlt : scope < base)
  (hw : w.Sheltered S base)

/-- The body of a function starts in a whole shelter, if its arguments are settled. -/
theorem sheltered_enter {outer inner : ScopeId} {parameters : List Name} {args : List Value}
    {w' : World} (hw : w.Sheltered S base) (houter : S outer) (hargs : ∀ v ∈ args, v.Settled S)
    (h : enter outer parameters args w = some (inner, w')) :
    S inner ∧ w'.Sheltered S (inner + 1) := by
  obtain ⟨id, w₁, hmake, h⟩ := Run.exists_of_bind_eq_some h
  obtain ⟨_, w₂, hbind, h⟩ := Run.exists_of_bind_eq_some h
  obtain ⟨rfl, rfl⟩ := Prod.mk.inj (Option.some.inj h)
  obtain ⟨rfl, rfl⟩ := Prod.mk.inj (Option.some.inj hmake)
  refine ⟨hw.fresh _ hw.base_le_size, ?_⟩
  have hfresh : World.Sheltered S (w.scopes.size + 1)
      { w with scopes := (w.scopes.fresh (some outer)).2 } :=
    hw.fresh_scope fun o ho => Option.some.inj ho ▸ houter
  exact ((agrees_bindAll hfresh parameters hargs).2 _ _ hbind).1

include hself hscope hlt hw

/-- Evaluators that are alike in the shelter make the same calls in it. -/
theorem CallOf.alike {e : Expr} {f : Value} {args : List Value} {w' : World}
    (h : CallOf self scope w e f args w') :
    CallOf self' scope w e f args w' ∧ f.Outcome S ∧ (∀ v ∈ args, v.Outcome S) ∧
      w'.Sheltered S base := by
  cases h with
  | call hcallee hf hargs =>
    obtain ⟨heq, hpost⟩ := hself _ hscope hlt hw
    obtain ⟨hu, hout⟩ := hpost _ _ hcallee
    obtain ⟨heq', hpost'⟩ := agrees_evalAll hself hscope hlt hu _
    obtain ⟨hw', hvs⟩ := hpost' _ _ hargs
    exact ⟨.call (heq ▸ hcallee) hf (heq' ▸ hargs), hout, hvs _ rfl, hw'⟩
  | member hleft hf hargs =>
    obtain ⟨heq, hpost⟩ := hself _ hscope hlt hw
    obtain ⟨hu, hout⟩ := hpost _ _ hleft
    obtain ⟨heq', hpost'⟩ := agrees_evalAll hself hscope hlt hu _
    obtain ⟨hw', hvs⟩ := hpost' _ _ hargs
    have hf' := hu.get? hout.module_scope hf
    exact ⟨.member (heq ▸ hleft) hf (heq' ▸ hargs), .settled hf', hvs _ rfl, hw'⟩

/-- The uses are the same under both evaluators. For what a function ends with, its arguments have
to be known as settled, or its body might not start in the shelter. -/
theorem Uses.alike {node : Node} {use : Use} (h : Uses self scope w node use)
    (hpassed : ∀ v, Uses self scope w node (.passed v) → v.isSignal = false) :
    Uses self' scope w node use := by
  cases h with
  | binding hvalue hv => exact .binding ((hself _ hscope hlt hw).1 ▸ hvalue) hv
  | assignment hright hv => exact .assignment ((hself _ hscope hlt hw).1 ▸ hright) hv
  | element helements hv =>
    exact .element ((agrees_evalAll hself hscope hlt hw _).1 ▸ helements) hv
  | entry hpairs he =>
    have hempty : ∀ e ∈ Entries.empty.pairs, e.2.1.Settled S ∧ e.2.2.Outcome S :=
      List.forall_mem_nil _
    exact .entry ((agrees_evalPairs hself hscope hlt hw hempty _).1 ▸ hpairs) he
  | argument hcall hv => exact .argument (hcall.alike hself hscope hlt hw).1 hv
  | function hcall hcount henter hbody =>
    obtain ⟨hcall', hf, hargs, hu⟩ := hcall.alike hself hscope hlt hw
    -- The body runs in a scope of its own, which is sheltered if no argument is a signal.
    obtain ⟨hinner, hu'⟩ := sheltered_enter hu hf.function_scope
      (fun v hv => (hargs v hv).to_settled (hpassed v (.argument hcall hv))) henter
    exact .function hcall' hcount henter ((hself _ hinner (Nat.lt_succ_self _) hu').1 ▸ hbody)
  | program hend => exact .program ((agrees_carriedBy hself hscope hlt hw _).1 ▸ hend)

end Transfer

/-! ## A use of a signal shows -/

/-- A program that returns a value gives what is carried. -/
theorem evalProgram_of_carriedBy {v result : Value} {w' : World} {statements : List Stmt}
    (h : carriedBy self scope statements w = some (some v, w')) :
    evalProgram self scope result statements w = some (v, w') := by
  induction statements generalizing result w with
  | nil => cases h
  | cons s ss ih =>
    obtain ⟨u, w₁, hs, hrest⟩ := Run.exists_of_bind_eq_some h
    rw [evalProgram, Run.bind_apply, hs, Option.bind_some]
    cases u with
    | returned =>
      obtain ⟨hv, rfl⟩ := Prod.mk.inj (Option.some.inj hrest)
      cases hv
      rfl
    | error => cases hrest
    | _ => exact ih hrest

/-- Whatever a node uses shows around it: what it binds can be reached from its scope, what it
stores from its result, and what a function or the program ends with is the result. -/
theorem SignalFreeAt.isSignal_eq_false (hself : Alike S self self) (hscope : S scope)
    (hlt : scope < base) (hw : w.Sheltered S base) {rounds : Nat} {node : Node}
    (h : it.SignalFreeAt rounds self node scope w) {w₁ : World}
    (hlog : announce node w = some ((), w₁)) {use : Use} (huse : Uses self scope w₁ node use) :
    use.value.isSignal = false := by
  have hw₁ : w₁.Sheltered S base :=
    ((Run.Agrees.of_quiet hw (Run.quiet_log _ _ _)).2 _ _ hlog).1
  -- For each use: the node is evaluated to the end, and the value is found in what that leaves.
  cases huse with
  | @binding pos name value v w₂ hvalue hv =>
    have hsize := Nat.lt_of_lt_of_le hlt ((hself _ hscope hlt hw₁).2 _ _ hvalue).1.base_le_size
    obtain ⟨w₃, heval, hscopes⟩ := exists_evalNode_binding it rounds hlog hvalue hv
    have hstored : w₃.scopes.stored? name.text scope = some v := by
      rw [hscopes, Scopes.stored?_create hsize, if_pos ⟨rfl, rfl⟩]
    exact h.after _ _ heval v (.stored (.root (.inl rfl)) hstored)
  | @assignment pos name right v w₂ hright hv =>
    have hsize := Nat.lt_of_lt_of_le hlt ((hself _ hscope hlt hw₁).2 _ _ hright).1.base_le_size
    obtain ⟨w₃, heval, hscopes⟩ := exists_evalNode_assignment it rounds hlog hright hv
    have hstored : w₃.scopes.stored? name.text scope = some v := by
      rw [hscopes, Scopes.stored?_assign hsize]
    exact h.after _ _ heval v (.stored (.root (.inl rfl)) hstored)
  | @element pos elements vs v w₂ helements hv =>
    have heval : it.evalNode rounds self (.expr (.array pos elements)) scope w =
        some (.array w₂.nextStamp vs, { w₂ with nextStamp := w₂.nextStamp + 1 }) := by
      rw [evalNode_of_announce hlog]
      dsimp only
      rw [evalExpr, Run.bind_apply, helements]
      rfl
    exact h.result _ _ heval rfl v (.element (.root rfl) hv)
  | @entry pos pairs stamp entries e w₂ hpairs he =>
    have heval : it.evalNode rounds self (.expr (.hash pos pairs)) scope w =
        some (.hash stamp entries, w₂) := by
      rw [evalNode_of_announce hlog]
      exact hpairs
    exact h.result _ _ heval rfl _ (.entry (.root rfl) he)
  | argument hcall hv => exact h.passed w₁ hlog _ (.argument hcall hv)
  | @function e _ _ _ _ _ _ _ v _ _ w₂ hcall hcount henter hbody =>
    have heval : it.evalNode rounds self (.expr e) scope w = some (v, w₂) := by
      rw [evalNode_of_announce hlog]
      dsimp only
      rw [evalExpr_of_callOf hcall, apply_of_enter hcount henter hbody]
      rfl
    have hcalls : unwraps (.expr e) = true := by
      cases hcall <;> rfl
    exact h.unwrapped _ _ heval hcalls
  | @program p v w₂ hend =>
    have heval : it.evalNode rounds self (.program p) scope w = some (v, w₂) := by
      rw [evalNode_of_announce hlog]
      exact evalProgram_of_carriedBy hend
    exact h.unwrapped _ _ heval rfl

/-! ## One point and the whole run -/

/-- Evaluators are alike from either side. -/
theorem Alike.symm (hself : Alike S self self') : Alike S self' self :=
  fun node _ _ hscope hlt hw => (hself node hscope hlt hw).symm

/-- An evaluator that is like another one is like itself. -/
theorem Alike.right (hself : Alike S self self') : Alike S self' self' := by
  intro base node scope w hscope hlt hw
  obtain ⟨heq, hpost⟩ := hself.symm node hscope hlt hw
  exact ⟨rfl, hpost⟩

/-- At one point of a run the two conditions are the same, even if the parts are evaluated by
different evaluators that agree in the shelter. -/
theorem contained_iff_signalFreeAt (hit : it.registry = standard) (hself : Alike S self self')
    (hscope : S scope) (hlt : scope < base) (hw : w.Sheltered S base) (rounds : Nat) (node : Node) :
    Contained rounds self node scope w ↔ it.SignalFreeAt rounds self' node scope w := by
  have hentered : ∀ w₁, announce node w = some ((), w₁) → w₁.Sheltered S base := fun w₁ hlog =>
    ((Run.Agrees.of_quiet hw (Run.quiet_log _ _ _)).2 _ _ hlog).1
  constructor
  · intro hcontained
    obtain ⟨heq, hpost⟩ := agrees_evalNode hself hscope hlt hw hit hcontained
    refine ⟨hw.signalFree hscope, ?_, ?_, ?_, ?_⟩
    · -- An argument is no signal under the one evaluator, and so under the other.
      intro w₁ hlog v huse
      cases huse with
      | argument hcall hv =>
        have hcall' := (hcall.alike hself.symm hscope hlt (hentered w₁ hlog)).1
        exact hcontained w₁ hlog _ (.argument hcall' hv)
    · intro v w' hrun
      exact (hpost v w' (heq.trans hrun)).1.signalFree hscope
    · intro v w' hrun hsignal
      obtain ⟨hw', hv, -⟩ := hpost v w' (heq.trans hrun)
      apply hw'.signalFreeFrom
      rintro _ rfl
      exact hv.to_settled hsignal
    · intro v w' hrun hunwraps
      exact (hpost v w' (heq.trans hrun)).2.2 hunwraps
  · intro hfree w₁ hlog use huse
    have hw₁ := hentered w₁ hlog
    have hpassed : ∀ v, Uses self scope w₁ node (.passed v) → v.isSignal = false := by
      intro v huse
      cases huse with
      | argument hcall hv =>
        exact hfree.passed w₁ hlog v (.argument (hcall.alike hself hscope hlt hw₁).1 hv)
    -- Both evaluators make the same use, so it shows in the run of the second.
    have huse' := huse.alike hself hscope hlt hw₁ hpassed
    exact hfree.isSignal_eq_false hself.right hscope hlt hw hlog huse'

/-- Watching that no node uses a signal is, in a shelter, watching that no signal becomes a
value. -/
theorem alike_watch (hit : it.registry = standard) (fault : Fault) (bound : Nat) :
    Alike S (it.watch Contained fault bound) (it.watch it.SignalFreeAt fault bound) := by
  induction bound with
  | zero =>
    intro base node scope w _ _ _
    exact ⟨rfl, by rintro _ _ ⟨⟩⟩
  | succ bound ih =>
    intro base node scope w hscope hlt hw
    have hiff := contained_iff_signalFreeAt hit ih hscope hlt hw bound node
    unfold Run.Agrees
    by_cases hcontained : Contained bound (it.watch Contained fault bound) node scope w
    · -- Neither watch steps in here, and what the node does leaves the shelter whole.
      rw [watch_of_check hcontained, watch_of_check (hiff.mp hcontained)]
      exact (agrees_evalNode ih hscope hlt hw hit hcontained).imp fun v _ _ hv => hv.1
    · -- Both watches step in.
      rw [watch_of_not_check hcontained, watch_of_not_check (mt hiff.mpr hcontained)]
      refine ⟨rfl, ?_⟩
      rintro v w' h
      obtain ⟨rfl, rfl⟩ := Prod.mk.inj (Option.some.inj h)
      exact ⟨hw, .leaf rfl⟩

/-- From an environment without signals, no signal becomes a value in the run of a program exactly
if no node of the run uses one. -/
theorem throughout_signalFreeAt_iff (it : Interpreter) (hit : it.registry = standard) (p : Program)
    (bound : Nat) (scope : ScopeId) (w : World) (hscope : scope < w.scopes.size)
    (hfree : w.SignalFree scope) :
    it.Throughout it.SignalFreeAt bound (.program p) scope w ↔
      it.Throughout Contained bound (.program p) scope w := by
  have hwatch : ∀ fault, it.watch Contained fault bound (.program p) scope w =
      it.watch it.SignalFreeAt fault bound (.program p) scope w := fun fault =>
    (alike_watch hit fault bound _ (.inl (.root (.inl rfl))) hscope hfree.sheltered).1
  unfold Throughout
  simp only [hwatch]

/-- A program in whose run no node uses a signal gives none, and leaves none behind. -/
theorem eval_program_of_throughout (hit : it.registry = standard) {p : Program} {bound : Nat}
    {v : Value} {w' : World} (hscope : scope < w.scopes.size) (hfree : w.SignalFree scope)
    (hcontained : it.Throughout Contained bound (.program p) scope w)
    (hrun : it.eval bound (.program p) scope w = some (v, w')) :
    v.isSignal = false ∧ w'.SignalFree scope := by
  cases bound with
  | zero => cases hrun
  | succ bound =>
    -- Any fault will do for the watch, as it does not step in.
    rw [← hcontained .gap] at hrun
    have hin : w.shelter scope scope := .inl (.root (.inl rfl))
    by_cases hcheck : Contained bound (it.watch Contained .gap bound) (.program p) scope w
    · rw [watch_of_check hcheck] at hrun
      obtain ⟨-, hpost⟩ := agrees_evalNode (alike_watch hit .gap bound) hin hscope
        hfree.sheltered hit hcheck
      obtain ⟨hw', -, hv⟩ := hpost v w' hrun
      exact ⟨hv rfl, hw'.signalFree hin⟩
    · rw [watch_of_not_check hcheck] at hrun
      obtain ⟨rfl, rfl⟩ := Prod.mk.inj (Option.some.inj hrun)
      exact ⟨rfl, hfree⟩

/-! ## Two runs -/

/-- In a world at its start nothing is bound. -/
theorem signalFree_start (files : Files) (journal : Journal) :
    (World.start files journal).SignalFree World.globalScope := by
  have hsheltered : (World.start files journal).Sheltered (fun _ => True) 0 := by
    obtain ⟨hstored, howned, hcached⟩ :=
      World.holding_start files journal (Value.Settled fun _ => True)
    exact ⟨Nat.zero_le _, fun _ _ => trivial, fun _ _ _ _ => trivial,
      fun s name v _ h => hstored s name v h, fun s name v _ h => howned s name v h, hcached⟩
  exact hsheltered.signalFree trivial

/-- A `return` from within a loop and a branch, which is no value anywhere. -/
def searching : Bytes :=
  text "let f = fn() { for (let i = 0; true; i) { if (true) { return [5]; } } }; f()"

set_option maxRecDepth 1000 in
theorem throughout_searching :
    (parse searching).diagnostics = [] ∧
      plain.Throughout plain.SignalFreeAt 30 (.program (parse searching).program) World.globalScope
        plainWorld := by
  refine ⟨by decide +kernel, ?_⟩
  refine (throughout_signalFreeAt_iff plain rfl _ 30 World.globalScope plainWorld (by decide)
    (signalFree_start _ _)).mpr ?_
  intro fault
  cbv

/-- A `return` that carries another one. -/
def nestedReturn : Bytes := text "return if (true) { return 5; };"

/-- The program gives up what the outer `return` carries, and that is the inner one. -/
theorem isSignal_nestedReturn :
    (parse nestedReturn).diagnostics = [] ∧
      (plain.eval 30 (.program (parse nestedReturn).program) World.globalScope plainWorld).map
        (fun result => result.1.isSignal) = some true := by
  decide +kernel

end Interpreter

end Rill
