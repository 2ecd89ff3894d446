import Rill.Proofs.Signal.Use

/-!
# Evaluators that agree in a shelter

Two evaluators that do the same wherever the shelter is whole, and that leave it whole, do so as
well as parts of a larger evaluation. This is shown for each function of the evaluator in turn, by
induction on what it goes through.

* `Value.Outcome`: what an evaluation may give, a settled value or a signal on its way.
* `Interpreter.Alike`: two evaluators that agree in a shelter.
* `Interpreter.agrees_apply`: applying a value to settled arguments gives a settled value, if the
  `return` that ends it carries no signal.
-/

namespace Rill

/-- A settled value, or a signal with such a one inside. -/
inductive Value.Outcome (S : ScopeId → Prop) : Value → Prop where
  | settled {v : Value} (h : v.Settled S) : Value.Outcome S v
  | broken : Value.Outcome S .broken
  | returned {stamp : Stamp} {v : Value} (h : Value.Outcome S v) :
      Value.Outcome S (.returned stamp v)

/-- A fault, or a hash whose values may be signals. -/
def Value.Gathered (S : ScopeId → Prop) (v : Value) : Prop :=
  v.isLeaf = true ∨ ∃ stamp entries, v = .hash stamp entries ∧
    ∀ e ∈ entries.pairs, e.2.1.Settled S ∧ e.2.2.Outcome S

namespace Value.Outcome

variable {S : ScopeId → Prop} {v : Value}

theorem leaf (h : v.isLeaf = true) : v.Outcome S := .settled (.leaf h)

/-- An outcome that is no signal is settled. -/
theorem to_settled (h : v.Outcome S) (hsignal : v.isSignal = false) : v.Settled S := by
  cases h with
  | settled h => exact h
  | broken => cases hsignal
  | returned => cases hsignal

/-- What a returned value carries is an outcome. -/
theorem carried {stamp : Stamp} (h : (Value.returned stamp v).Outcome S) : v.Outcome S := by
  cases h with
  | settled h =>
    cases h with
    | leaf h => cases h
  | returned h => exact h

/-- The scope of a module that is an outcome is sheltered. -/
theorem module_scope {name path : Bytes} {scope : ScopeId}
    (h : (Value.module name path scope).Outcome S) : S scope := by
  cases h.to_settled rfl with
  | leaf h => cases h
  | module h => exact h

/-- The scope of a function that is an outcome is sheltered. -/
theorem function_scope {stamp : Stamp} {parameters : List Name} {body : Block} {scope : ScopeId}
    (h : (Value.function stamp parameters body scope).Outcome S) : S scope := by
  cases h.to_settled rfl with
  | leaf h => cases h
  | function h => exact h

end Value.Outcome

namespace Interpreter

/-- In the shelter of `S` two evaluators do the same, and give no more than an outcome. -/
def Alike (S : ScopeId → Prop) (self self' : Evaluator) : Prop :=
  ∀ {base : Nat} (node : Node) {scope : ScopeId} {w : World}, S scope → scope < base →
    w.Sheltered S base → Run.Agrees S base (·.Outcome S) (self node scope) (self' node scope) w

variable {it : Interpreter} {S : ScopeId → Prop} {self self' : Evaluator} {base : Nat}
  {scope : ScopeId} {w : World}

section Parts

variable (hself : Alike S self self') (hscope : S scope) (hlt : scope < base)

include hself hscope hlt

/-! ## Statements -/

/-- The statements of a program give the same outcome in the shelter. -/
theorem agrees_evalProgram (hw : w.Sheltered S base) {result : Value} (hresult : result.Outcome S)
    (statements : List Stmt) :
    Run.Agrees S base (·.Outcome S) (evalProgram self scope result statements)
      (evalProgram self' scope result statements) w := by
  induction statements generalizing result w with
  | nil => exact .pure hw hresult
  | cons s ss ih =>
    refine (hself _ hscope hlt hw).bind fun v w' _ hw' hv => ?_
    cases v with
    | returned => exact .pure hw' hv.carried
    | error => exact .pure hw' hv
    | broken => exact ih hw' (.leaf rfl)
    | _ => exact ih hw' hv

/-- What the statements of a program return is the same in the shelter. -/
theorem agrees_carriedBy (hw : w.Sheltered S base) (statements : List Stmt) :
    Run.Agrees S base (fun r => ∀ v, r = some v → v.Outcome S) (carriedBy self scope statements)
      (carriedBy self' scope statements) w := by
  induction statements generalizing w with
  | nil => exact .pure hw (by rintro _ ⟨⟩)
  | cons s ss ih =>
    refine (hself _ hscope hlt hw).bind fun v w' _ hw' hv => ?_
    cases v with
    | returned =>
      apply Run.Agrees.pure hw'
      rintro _ ⟨⟩
      exact hv.carried
    | error => exact .pure hw' (by rintro _ ⟨⟩)
    | _ => exact ih hw'

/-- The statements of a block give the same outcome in the shelter. -/
theorem agrees_evalBlock (hw : w.Sheltered S base) {result : Value} (hresult : result.Outcome S)
    (statements : List Stmt) :
    Run.Agrees S base (·.Outcome S) (evalBlock self scope result statements)
      (evalBlock self' scope result statements) w := by
  induction statements generalizing result w with
  | nil => exact .pure hw hresult
  | cons s ss ih =>
    refine (hself _ hscope hlt hw).bind fun v w' _ hw' hv => ?_
    cases v with
    | returned | error | broken => exact .pure hw' hv
    | _ => exact ih hw' hv

/-! ## Expressions in a row -/

/-- Expressions in a row give the same outcomes in the shelter. -/
theorem agrees_evalAll (hw : w.Sheltered S base) (es : List Expr) :
    Run.Agrees S base (fun r => ∀ vs, r = .ok vs → ∀ v ∈ vs, v.Outcome S) (evalAll self scope es)
      (evalAll self' scope es) w := by
  induction es generalizing w with
  | nil =>
    apply Run.Agrees.pure hw
    rintro _ ⟨⟩
    exact List.forall_mem_nil _
  | cons e es ih =>
    refine (hself _ hscope hlt hw).bind fun v w' _ hw' hv => ?_
    cases v with
    | error => exact .pure hw' (by rintro _ ⟨⟩)
    | _ =>
      refine (ih hw').bind fun r w'' _ hw'' hr => ?_
      cases r with
      | error => exact .pure hw'' (by rintro _ ⟨⟩)
      | ok vs =>
        apply Run.Agrees.pure hw''
        rintro _ ⟨⟩
        exact List.forall_mem_cons.mpr ⟨hv, hr vs rfl⟩

/-- The pairs of a hash are gathered in the same way in the shelter. Their values may be signals. -/
theorem agrees_evalPairs (hw : w.Sheltered S base) {entries : Entries}
    (hentries : ∀ e ∈ entries.pairs, e.2.1.Settled S ∧ e.2.2.Outcome S)
    (pairs : List (Expr × Expr)) :
    Run.Agrees S base (·.Gathered S) (evalPairs self scope entries pairs)
      (evalPairs self' scope entries pairs) w := by
  induction pairs generalizing entries w with
  | nil =>
    refine (Run.Agrees.of_quiet hw Run.quiet_stamp).bind fun stamp w' _ hw' _ => ?_
    exact .pure hw' (.inr ⟨stamp, entries, rfl, hentries⟩)
  | cons pair pairs ih =>
    have hinsert : ∀ (filed : Key) (key value : Value), key.isLeaf = true → value.Outcome S →
        ∀ e ∈ (Entries.insert filed key value entries).pairs, e.2.1.Settled S ∧
          e.2.2.Outcome S := by
      intro filed key value hkey hvalue e he
      rcases Table.mem_put he with rfl | he
      · exact ⟨.leaf hkey, hvalue⟩
      · exact hentries e he
    refine (hself _ hscope hlt hw).bind fun key w' _ hw' hkey => ?_
    cases key with
    -- Only these can be filed, and they are leaves. The value under one may be a signal.
    | integer | float | double | boolean | string =>
      refine (hself _ hscope hlt hw').bind fun value w'' _ hw'' hvalue => ?_
      cases value with
      | error => exact .pure hw'' (.inl rfl)
      | _ => exact ih hw'' (hinsert _ _ _ rfl hvalue)
    | _ => exact .pure hw' (.inl rfl)

/-! ## Branches and loops -/

/-- The branches of a conditional give the same outcome in the shelter. -/
theorem agrees_evalElifs (hw : w.Sheltered S base) (alternative : Option Block)
    (elifs : List (Expr × Block)) :
    Run.Agrees S base (·.Outcome S) (evalElifs self scope alternative elifs)
      (evalElifs self' scope alternative elifs) w := by
  induction elifs generalizing w with
  | nil =>
    cases alternative with
    | none => exact .pure hw (.leaf rfl)
    | some b => exact hself _ hscope hlt hw
  | cons elif elifs ih =>
    refine (hself _ hscope hlt hw).bind fun v w' _ hw' hv => ?_
    cases v with
    | error => exact .pure hw' hv
    | _ =>
      dsimp only
      split
      · exact hself _ hscope hlt hw'
      · exact ih hw'

end Parts

section Loops

/-- A round starts with what the variable reads as at the end of the round before, and that is
settled. -/
theorem agrees_nextRound {outer : ScopeId} (houter : S outer) {counter : Bytes}
    {round round' : ScopeId → Run Value} (hscope : S scope) (hw : w.Sheltered S base)
    (hround : ∀ {next base u}, S next → next < base → World.Sheltered S base u →
      Run.Agrees S base (·.Outcome S) (round next) (round' next) u) :
    Run.Agrees S base (·.Outcome S) (nextRound outer counter scope round)
      (nextRound outer counter scope round') w := by
  refine (Run.agrees_get? hw hscope).bind fun found w₁ _ hw₁ hfound => ?_
  cases found with
  | none => exact .pure hw₁ (.leaf rfl)
  | some value =>
    refine .bind_scope hw₁ (fun o ho => Option.some.inj ho ▸ houter) fun next w₂ _ hle hnext hw₂ =>
      ?_
    refine (Run.agrees_create hw₂ (hfound value rfl)).bind fun _ w₃ _ hw₃ _ => ?_
    exact hround hnext (Nat.lt_succ_self next) hw₃

variable (hself : Alike S self self')

include hself

/-- The rounds of a loop give the same outcome in the shelter. -/
theorem agrees_evalRounds {outer : ScopeId} (houter : S outer) (counter : Bytes) (condition : Expr)
    (step : Stmt) (body : Block) (rounds : Nat) (hscope : S scope) (hlt : scope < base)
    (hw : w.Sheltered S base) :
    Run.Agrees S base (·.Outcome S)
      (evalRounds self outer counter condition step body rounds scope)
      (evalRounds self' outer counter condition step body rounds scope) w := by
  induction rounds generalizing scope base w with
  | zero => exact ⟨rfl, by rintro _ _ ⟨⟩⟩
  | succ rounds ih =>
    refine (hself _ hscope hlt hw).bind fun v w' _ hw' hv => ?_
    cases v with
    | boolean b =>
      cases b with
      | false => exact .pure hw' (.leaf rfl)
      | true =>
        refine (hself _ hscope hlt hw').bind fun v w'' _ hw'' hv => ?_
        cases v with
        | error | returned => exact .pure hw'' hv
        -- The loop takes a `break` for itself and passes a `return` on.
        | broken => exact .pure hw'' (.leaf rfl)
        | _ =>
          refine (hself _ hscope hlt hw'').bind fun v w₁ _ hw₁ hv => ?_
          cases v with
          | error => exact .pure hw₁ hv
          | _ => exact agrees_nextRound houter hscope hw₁ ih
    | _ => exact .pure hw' (.leaf rfl)

/-! ## Modules -/

/-- The scope of a module is fresh, and the module is remembered with that scope. -/
theorem agrees_evaluateModule (hw : w.Sheltered S base) (path src : Bytes) (program : Program) :
    Run.Agrees S base (·.Settled S) (Import.evaluateModule (it.host self) path src program)
      (Import.evaluateModule (it.host self') path src program) w := by
  refine .bind_scope hw (by rintro _ ⟨⟩) fun id w₁ _ _ hid hw₁ => ?_
  -- The stack of files is outside of the shelter, so entering and leaving keep it whole.
  have hwithin : Run.Agrees S (id + 1) (·.Outcome S)
      (Import.within path ((it.host self).evaluate program id))
      (Import.within path ((it.host self').evaluate program id)) w₁ := by
    refine (Run.agrees_modify (hw₁.congr rfl rfl)).bind fun _ w₂ _ hw₂ _ => ?_
    refine (hself (.program program) hid (Nat.lt_succ_self id) hw₂).bind fun v w₃ _ hw₃ hv => ?_
    exact (Run.agrees_modify (hw₃.congr rfl rfl)).bind fun _ w₄ _ hw₄ _ => .pure hw₄ hv
  refine hwithin.bind fun v w₂ _ hw₂ hv => ?_
  dsimp only
  split
  next herror =>
    apply Run.Agrees.pure hw₂
    cases v with
    | error => exact .leaf rfl
    | _ => cases herror
  next =>
    have hmodule : (Value.module (Import.moduleName path) path id).Settled S := .module hid
    exact (Run.agrees_modify (hw₂.cache hmodule)).bind fun _ w₃ _ hw₃ _ => .pure hw₃ hmodule

/-- The loading of a path gives the same settled value in the shelter. -/
theorem agrees_loadPath (hw : w.Sheltered S base) (path : Bytes) :
    Run.Agrees S base (·.Settled S) (Import.loadPath (it.host self) path)
      (Import.loadPath (it.host self') path) w := by
  have hparse : Import.parseFile (it.host self') = Import.parseFile (it.host self) := rfl
  unfold Import.loadPath
  rw [hparse]
  refine (Run.agrees_get hw).bind fun _ w' _ hw' hwhole => ?_
  subst hwhole
  cases w.files.read path with
  | error => exact .pure hw' (.leaf rfl)
  | ok src =>
    dsimp only
    split
    next loaded hloaded =>
      -- A module in the cache is settled, as the shelter covers what is remembered.
      have hcached := hw.cached path loaded (Option.filter_eq_some_iff.mp hloaded).1
      exact (Run.Agrees.of_quiet hw' (Run.quiet_log _ _ _)).bind fun _ _ _ hw'' _ =>
        .pure hw'' hcached
    next =>
      refine (Run.Agrees.of_quiet hw' (Run.quiet_log _ _ _)).bind fun _ _ _ hw₁ _ => ?_
      refine (Run.Agrees.of_quiet hw₁ (Import.quiet_parseFile _ _ _)).bind
        fun parsed w₂ _ hw₂ _ => ?_
      cases parsed with
      | error => exact .pure hw₂ (.leaf rfl)
      | ok program => exact agrees_evaluateModule hself hw₂ path src program

/-- An import gives the same settled value in the shelter. -/
theorem agrees_load (hw : w.Sheltered S base) (name : Bytes) :
    Run.Agrees S base (·.Settled S) (Import.load (it.host self) name)
      (Import.load (it.host self') name) w := by
  have hresolve : Import.resolve (it.host self') = Import.resolve (it.host self) := rfl
  unfold Import.load
  rw [hresolve]
  refine (Run.agrees_get hw).bind fun v w' _ hw' _ => ?_
  cases Import.resolve (it.host self) v.files v.loader.stack name with
  | error => exact .pure hw' (.leaf rfl)
  | ok path =>
    dsimp only
    split
    · exact .pure hw' (.leaf rfl)
    · exact agrees_loadPath hself hw' path

/-! ## Calls -/

omit hself in
/-- Parameters are bound to settled arguments in the same way in the shelter. -/
theorem agrees_bindAll (hw : w.Sheltered S base) (parameters : List Name) {args : List Value}
    (hargs : ∀ v ∈ args, v.Settled S) :
    Run.Agrees S base (fun _ => True) (bindAll scope parameters args)
      (bindAll scope parameters args) w := by
  induction parameters generalizing args w with
  | nil => exact .pure hw trivial
  | cons p ps ih =>
    cases args with
    | nil => exact .pure hw trivial
    | cons v vs =>
      obtain ⟨hv, hvs⟩ := List.forall_mem_cons.mp hargs
      exact (Run.agrees_create hw hv).bind fun _ w' _ hw' _ => ih hw' hvs

/-- The builtin for imports gives the same settled value in the shelter. -/
theorem agrees_import (hw : w.Sheltered S base) (args : List Value) :
    Run.Agrees S base (fun r => ∀ v, r = some v → v.Settled S)
      (Import.builtin.run (it.host self) args) (Import.builtin.run (it.host self') args) w := by
  have hfault : ∀ fault, Run.Agrees S base (fun r => ∀ v, r = some v → v.Settled S)
      (pure (some (.error fault)) : Run (Option Value)) (pure (some (.error fault))) w := by
    intro fault
    apply Run.Agrees.pure hw
    rintro _ ⟨⟩
    exact .leaf rfl
  rcases args with _ | ⟨v, _ | ⟨v', vs⟩⟩
  · exact hfault _
  · cases v with
    | string name =>
      change Run.Agrees S base _ (some <$> Import.load _ name) (some <$> Import.load _ name) w
      rw [map_eq_pure_bind, map_eq_pure_bind]
      refine (agrees_load hself hw name).bind fun v w' _ hw' hv => ?_
      apply Run.Agrees.pure hw'
      rintro _ ⟨⟩
      exact hv
    | _ => exact hfault _
  · cases v <;> exact hfault _

/-- The arguments have to be settled. If a function of the program is applied, the result is what
its `return` carries, and that has to be no signal. -/
theorem agrees_apply (hit : it.registry = standard) (hw : w.Sheltered S base) {function : Value}
    (hfunction : function.Outcome S) {args : List Value} (hargs : ∀ v ∈ args, v.Settled S)
    (hend : ∀ {stamp stamp' parameters body outer inner v u w'},
      function = .function stamp parameters body outer → args.length = parameters.length →
      enter outer parameters args w = some (inner, u) →
      self (.block body) inner u = some (.returned stamp' v, w') → v.isSignal = false) :
    Run.Agrees S base (·.Settled S) (it.apply self function args)
      (it.apply self' function args) w := by
  cases function with
  | function stamp parameters body outer =>
    have houter : S outer := hfunction.function_scope
    by_cases hcount : args.length = parameters.length
    · rw [apply_function hcount, apply_function hcount]
      simp only [enter, bind_assoc, pure_bind]
      refine .bind_scope hw (fun o ho => Option.some.inj ho ▸ houter)
        fun inner w₁ hmake _ hinner hw₁ => ?_
      refine (agrees_bindAll hw₁ parameters hargs).bind fun _ w₂ hbind hw₂ _ => ?_
      refine (hself (.block body) hinner (Nat.lt_succ_self inner) hw₂).bind
        fun v w₃ hbody hw₃ hv => ?_
      apply Run.Agrees.pure hw₃
      -- A call gives up the value of a `return`. A `break` ends it with null.
      cases v with
      | returned stamp' v =>
        have henter : enter outer parameters args w = some (inner, w₂) := by
          rw [enter, Run.bind_apply, hmake, Option.bind_some, Run.bind_apply, hbind]
          rfl
        exact hv.carried.to_settled (hend rfl hcount henter hbody)
      | broken => exact .leaf rfl
      | _ => exact hv.to_settled rfl
    · have hfault : ∀ self, it.apply self (.function stamp parameters body outer) args =
          pure (.error (.parameterCount parameters.length args.length)) := fun _ => if_pos hcount
      rw [hfault, hfault]
      exact .pure hw (.leaf rfl)
  | builtin name =>
    refine (Run.Agrees.of_quiet hw (Run.quiet_log _ _ _)).bind fun _ w' _ hw' _ => ?_
    cases hb : it.registry.lookup name with
    | none => exact .pure hw' (.leaf rfl)
    | some b =>
      have hrun : Run.Agrees S base (fun r => ∀ v, r = some v → v.Settled S)
          (b.run (it.host self) args) (b.run (it.host self') args) w' := by
        rw [hit] at hb
        rcases tame_of_lookup hb with htame | rfl
        · rw [htame.run_eq (it.host self) (it.host self')]
          have hquiet := htame.quiet (Value.hereditary_settled S) (it.host self') args hargs
          refine .of_quiet hw' (hquiet.imp ?_)
          rintro _ ⟨v, rfl, hv⟩ _ ⟨⟩
          exact hv.settled
        · exact agrees_import hself hw' args
      refine hrun.bind fun r w'' _ hw'' hr => .pure hw'' ?_
      cases r with
      | none => exact .leaf rfl
      | some v => exact hr v rfl
  | _ => exact .pure hw (.leaf rfl)

end Loops

end Interpreter

end Rill
