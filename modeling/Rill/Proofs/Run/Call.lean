import Rill.Proofs.Run.Watch

/-!
# Calls and bindings

What an expression calls, with which arguments, and in which world; and what is bound and assigned.

* `Interpreter.CallOf`: the call in an expression, of a function or of a member of a module.
* `Interpreter.CallOf.keeps`: calls are made under every discipline under which they are evaluated.
* `Interpreter.evalExpr_of_callOf`, `Interpreter.apply_of_enter`: what a call gives.
* `Interpreter.exists_evalNode_binding`, `Interpreter.exists_evalNode_assignment`: what a node that
  binds or assigns a value does with it.
-/

namespace Rill

namespace Interpreter

/-- The call in an expression, of a function or of a member of a module: what is called with which
arguments, and the world once these are evaluated. -/
inductive CallOf (self : Evaluator) (scope : ScopeId) (w : World) :
    Expr → Value → List Value → World → Prop where
  | call {pos : Nat} {callee : Expr} {arguments : List Expr} {f : Value} {args : List Value}
      {u w' : World} (hcallee : self (.expr callee) scope w = some (f, u)) (hf : f.isError = false)
      (hargs : evalAll self scope arguments u = some (.ok args, w')) :
      CallOf self scope w (.call pos callee arguments) f args w'
  | member {pos pos' : Nat} {left : Expr} {name : Name} {arguments : List Expr}
      {moduleName path : Bytes} {inner : ScopeId} {f : Value} {args : List Value} {u w' : World}
      (hleft : self (.expr left) scope w = some (.module moduleName path inner, u))
      (hf : u.scopes.get? inner name.text = some f)
      (hargs : evalAll self scope arguments u = some (.ok args, w')) :
      CallOf self scope w (.infixed pos .member left (.call pos' (.ident name) arguments)) f args w'

/-- The call in an expression, if it comes to one. -/
def callOf? (self : Evaluator) (scope : ScopeId) (w : World) :
    Expr → Option (Value × List Value × World)
  | .call _ callee arguments =>
    match self (.expr callee) scope w with
    | some (f, u) =>
      match evalAll self scope arguments u with
      | some (.ok args, w') => if f.isError then none else some (f, args, w')
      | _ => none
    | none => none
  | .infixed _ .member left (.call _ (.ident name) arguments) =>
    match self (.expr left) scope w with
    | some (.module _ _ inner, u) =>
      match u.scopes.get? inner name.text, evalAll self scope arguments u with
      | some f, some (.ok args, w') => some (f, args, w')
      | _, _ => none
    | _ => none
  | _ => none

/-- A call is found by evaluating what is called and its arguments. -/
theorem callOf?_eq_some_iff {self : Evaluator} {scope : ScopeId} {w w' : World}
    {e : Expr} {f : Value} {args : List Value} :
    callOf? self scope w e = some (f, args, w') ↔ CallOf self scope w e f args w' := by
  constructor
  · intro h
    -- Either a callee that is no error, or a name found in a module. Wherever a part gives nothing
    -- there is no call.
    unfold callOf? at h
    split at h
    · split at h
      next hcallee =>
        split at h
        next hargs =>
          split at h
          · cases h
          next hf =>
            obtain ⟨rfl, rfl, rfl⟩ : _ = f ∧ _ = args ∧ _ = w' := by simpa using h
            exact .call hcallee (by simpa using hf) hargs
        next => cases h
      next => cases h
    · split at h
      next hleft =>
        split at h
        next hf hargs =>
          obtain ⟨rfl, rfl, rfl⟩ : _ = f ∧ _ = args ∧ _ = w' := by simpa using h
          exact .member hleft hf hargs
        next => cases h
      next => cases h
    · cases h
  · intro h
    cases h with
    | call hcallee hf hargs => simp [callOf?, hcallee, hargs, hf]
    | member hleft hf hargs => simp [callOf?, hleft, hf, hargs]

variable {it : Interpreter} {self : Evaluator} {scope : ScopeId} {w : World}

/-- A node is evaluated behind its record. -/
theorem evalNode_of_announce {rounds : Nat} {node : Node} {w₁ : World}
    (hlog : announce node w = some ((), w₁)) :
    it.evalNode rounds self node scope w = (match node with
      | .program p => evalProgram self scope .null p.statements
      | .block b => evalBlock self scope .null b.statements
      | .stmt s => evalStmt self scope s
      | .expr e => it.evalExpr rounds self scope e) w₁ := by
  unfold announce at hlog
  unfold evalNode
  rw [Run.bind_apply, hlog]
  rfl

/-- A binding is made once its value is evaluated, if this gives no fault. -/
theorem exists_evalNode_binding (it : Interpreter) (rounds : Nat) {pos : Nat} {name : Name}
    {value : Expr} {v : Value} {w₁ u : World}
    (hlog : announce (.stmt (.binding pos name value)) w = some ((), w₁))
    (hvalue : self (.expr value) scope w₁ = some (v, u)) (hv : v.isError = false) :
    ∃ w', it.evalNode rounds self (.stmt (.binding pos name value)) scope w = some (.null, w') ∧
      w'.scopes = u.scopes.create scope name.text v := by
  obtain ⟨w', hcreate, hscopes⟩ := Run.exists_create scope name.text v u
  refine ⟨w', ?_, hscopes⟩
  rw [evalNode_of_announce hlog]
  dsimp only
  rw [evalStmt, Run.bind_apply, hvalue, Option.bind_some]
  cases v with
  | error => cases hv
  | _ =>
    dsimp only
    rw [Run.bind_apply, hcreate]
    rfl

/-- A plain assignment is made once its right side is evaluated, if this gives no fault. -/
theorem exists_evalNode_assignment (it : Interpreter) (rounds : Nat) {pos : Nat} {name : Name}
    {right : Expr} {v : Value} {w₁ u : World}
    (hlog : announce (.expr (.infixed pos .assign (.ident name) right)) w = some ((), w₁))
    (hright : self (.expr right) scope w₁ = some (v, u)) (hv : v.isError = false) :
    ∃ w', it.evalNode rounds self (.expr (.infixed pos .assign (.ident name) right)) scope w =
      some (v, w') ∧
      w'.scopes = (u.scopes.assign scope name.text v).2 := by
  obtain ⟨w', hassign, hscopes⟩ := Run.exists_assign scope name.text v u
  refine ⟨w', ?_, hscopes⟩
  rw [evalNode_of_announce hlog]
  dsimp only
  rw [evalExpr, evalAssignment, Run.bind_apply, hright, Option.bind_some]
  cases v with
  | error => cases hv
  | _ =>
    dsimp only
    rw [if_pos rfl, Run.bind_apply, hassign]
    rfl

private theorem get?_apply_of_eq_some {name : Bytes} {v : Value}
    (h : w.scopes.get? scope name = some v) :
    Run.get? scope name w = some (some v, w) := by
  rw [← h]
  rfl

/-- What a call gives, from its parts. -/
theorem evalExpr_of_callOf {rounds : Nat} {e : Expr} {f : Value} {args : List Value} {w' : World}
    (h : CallOf self scope w e f args w') :
    it.evalExpr rounds self scope e w = it.apply self f args w' := by
  cases h with
  | call hcallee hf hargs =>
    rw [evalExpr, Run.bind_apply, hcallee, Option.bind_some]
    cases f with
    -- An error is not called.
    | error => cases hf
    | _ =>
      dsimp only
      rw [Run.bind_apply, hargs]
      rfl
  | member hleft hf hargs =>
    rw [evalExpr, evalMember, Run.bind_apply, hleft, Option.bind_some]
    dsimp only
    rw [Run.bind_apply, get?_apply_of_eq_some hf, Option.bind_some]
    dsimp only
    rw [Run.bind_apply, hargs]
    rfl

/-- Parts that do the same until a fault stops them make the same call, or the fault stops the
expression. -/
theorem CallOf.of_together {rounds : Nat} {self' : Evaluator} {fault : Fault} {e : Expr} {f : Value}
    {args : List Value} {w' : World} (hself : Together .free (.stopping fault) self self')
    (h : CallOf self' scope w e f args w') :
    CallOf self scope w e f args w' ∨
      ∃ u, it.evalExpr rounds self scope e w = some (.error fault, u) := by
  cases h with
  -- A fault in what is called or in an argument is what the whole expression gives.
  | @call _ callee arguments _ _ u _ hcallee hf hargs =>
    rcases hself (.expr callee) (.of_lax id) trivial trivial with ⟨heq, -⟩ | ⟨v, hstop⟩
    · have hcallee := heq.trans hcallee
      rcases lockstep_evalAll hself trivial trivial False.elim with ⟨heq', -⟩ | ⟨v, hstop⟩
      · exact .inl (.call hcallee hf (heq'.trans hargs))
      · refine .inr ⟨v, ?_⟩
        rw [evalExpr, Run.bind_apply, hcallee, Option.bind_some]
        cases f with
        | error => cases hf
        | _ =>
          dsimp only
          rw [Run.bind_apply, hstop]
          rfl
    · refine .inr ⟨v, ?_⟩
      rw [evalExpr, Run.bind_apply, hstop]
      rfl
  | @member _ _ left _ _ _ _ _ _ _ _ _ hleft hf hargs =>
    rcases hself (.expr left) (.of_lax id) trivial trivial with ⟨heq, -⟩ | ⟨v, hstop⟩
    · have hleft := heq.trans hleft
      rcases lockstep_evalAll hself trivial trivial False.elim with ⟨heq', -⟩ | ⟨v, hstop⟩
      · exact .inl (.member hleft hf (heq'.trans hargs))
      · refine .inr ⟨v, ?_⟩
        rw [evalExpr, evalMember, Run.bind_apply, hleft, Option.bind_some]
        dsimp only
        rw [Run.bind_apply, get?_apply_of_eq_some hf, Option.bind_some]
        dsimp only
        rw [Run.bind_apply, hstop]
        rfl
    · refine .inr ⟨v, ?_⟩
      rw [evalExpr, evalMember, Run.bind_apply, hstop]
      rfl

/-- A call is made under a discipline if it is evaluated under one. -/
theorem CallOf.keeps {D : Discipline} {self : Evaluator} {scope : ScopeId} {w w' : World} {e : Expr}
    {f : Value} {args : List Value} (hself : Together D .never self self) (hfits : D.Fits (.expr e))
    (hw : D.Holds w) (hscope : D.Open w.scopes scope) (h : CallOf self scope w e f args w') :
    D.Holds w' ∧ D.Leads scope w w' ∧ D.Allows w'.scopes f ∧ ∀ v ∈ args, D.Allows w'.scopes v := by
  cases h with
  | @call _ callee _ _ _ _ _ hcallee hf hargs =>
    obtain ⟨hcallee', harguments⟩ := D.both hfits
    obtain ⟨hu, hlead, hallows⟩ := (hself.part (.expr callee) hcallee' hw hscope).keeps _ _ hcallee
    obtain ⟨hw', hlead', hall⟩ :=
      (lockstep_evalAll hself hu (D.open_of_leads hlead hscope) harguments).keeps _ _ hargs
    exact ⟨hw', D.leads_trans hlead hlead', D.allows_of_leads hlead' (hallows.allows hf), hall⟩
  | @member _ _ left _ _ _ _ _ _ _ _ _ hleft hf hargs =>
    obtain ⟨hleft', hright⟩ := D.both hfits
    obtain ⟨-, harguments⟩ := D.both hright
    obtain ⟨hu, hlead, hallows⟩ := (hself.part (.expr left) hleft' hw hscope).keeps _ _ hleft
    obtain ⟨hw', hlead', hall⟩ :=
      (lockstep_evalAll hself hu (D.open_of_leads hlead hscope) harguments).keeps _ _ hargs
    have hinner := D.allows_module.mp (hallows.allows rfl)
    refine ⟨hw', D.leads_trans hlead hlead', ?_, hall⟩
    -- The member is read before the arguments are evaluated, and stays allowed while they are.
    exact D.allows_of_leads hlead' (D.allows_get? hu hinner hf)

/-- A function called with as many arguments as it has parameters gives the result of its body. -/
theorem apply_of_enter {stamp : Stamp} {parameters : List Name} {body : Block}
    {outer inner : ScopeId} {args : List Value} {v : Value} {u w' : World}
    (hcount : args.length = parameters.length)
    (henter : enter outer parameters args w = some (inner, u))
    (hbody : self (.block body) inner u = some (v, w')) :
    it.apply self (.function stamp parameters body outer) args w = some (callResult v, w') := by
  rw [apply_function hcount, Run.bind_apply, Run.bind_apply, henter, Option.bind_some, hbody]
  rfl

/-- The log record that the call of a builtin starts with. -/
abbrev announceBuiltin (name : Bytes) (args : List Value) : Run Unit :=
  Run.log .debug "calling builtin" [("name", .word name), ("args", .count args.length)]

/-- A builtin is run behind its record. -/
theorem apply_builtin {name : Bytes} {b : Builtin} {args : List Value} {u u₁ : World}
    (hlog : announceBuiltin name args u = some ((), u₁)) (hb : it.registry.lookup name = some b) :
    it.apply self (.builtin name) args u =
      (do return (← b.run (it.host self) args).getD .null : Run Value) u₁ := by
  unfold announceBuiltin at hlog
  rw [apply, Run.bind_apply, hlog, Option.bind_some, hb]

end Interpreter

end Rill
