import Rill.Proofs.Run.Discipline

/-!
# Evaluation under a discipline

Two evaluators in lockstep stay in lockstep as parts of a larger evaluation. This is shown for each
function of the evaluator in turn, by induction on what it goes through, for every discipline and
every way to part.

* `Interpreter.Together`: two evaluators in lockstep.
* `Interpreter.lockstep_apply`, `Interpreter.lockstep_loop`: calls and loops work in scopes of their
  own, so they may be evaluated from anywhere.
* `Interpreter.lockstep_evalNode`: the step, from the evaluation of the parts to the evaluation of a
  node.
* `Interpreter.together_eval`: the run.
-/

namespace Rill

theorem Value.isError_eq_false {v : Value} (h : ∀ fault, v = .error fault → False) :
    v.isError = false := by
  cases v with
  | error fault => exact (h fault rfl).elim
  | _ => rfl

namespace Import

/-- Parsing a file gives its program or what is wrong with it. The world stays as it was in all that
neither the dump file nor the records of it change. -/
theorem exists_parseFile {R : World → Prop} {host : Host} {path src : Bytes} {w : World} (hw : R w)
    (hdump : ∀ target files,
      (parse src).program.dump host.toYaml path host.dump w.files = .ok (target, files) →
        R { w with files })
    (hlog : ∀ {u u' : World} {level message attributes},
      R u → Run.log level message attributes u = some ((), u') → R u') :
    ∃ w', R w' ∧ parseFile host path src w = some (
      if (parse src).diagnostics.isEmpty then .ok (parse src).program
      else .error ⟨path, src, (parse src).diagnostics⟩, w') := by
  -- Whether or not a dump was written, the result is that of the parser.
  have hend (w : World) : (if (parse src).diagnostics.isEmpty then return .ok (parse src).program
      else return .error ⟨path, src, (parse src).diagnostics⟩ :
        Run (Except Malformed Program)) w = some (
        if (parse src).diagnostics.isEmpty then .ok (parse src).program
        else .error ⟨path, src, (parse src).diagnostics⟩, w) := by
    split <;> rfl
  rw [parseFile]
  split
  next =>
    rw [Run.get_bind_apply]
    cases hdumped : (parse src).program.dump host.toYaml path host.dump w.files with
    | ok dumped =>
      obtain ⟨target, files⟩ := dumped
      obtain ⟨w', hrecord, -⟩ := Run.log_noted .debug "wrote AST" [("path", .word target)]
        { w with files }
      refine ⟨w', hlog (hdump target files hdumped) hrecord, ?_⟩
      have hmodify : (modify fun w => { w with files } : Run Unit) w =
        some ((), { w with files }) := rfl
      dsimp only
      rw [Run.bind_apply, hmodify, Option.bind_some, Run.bind_apply, hrecord]
      exact hend w'
    -- A dump that cannot be written is a record of its own, and no fault.
    | error fault =>
      obtain ⟨w', hrecord, -⟩ :=
        Run.log_noted .error "failed to write AST" [("error", .word fault.message)] w
      refine ⟨w', hlog hw hrecord, ?_⟩
      dsimp only
      rw [Run.bind_apply, hrecord]
      exact hend w'
  next => exact ⟨w, hw, hend w⟩

/-- Parsing a file gives its program, or the faults found in it, and changes records and files
only. -/
theorem parseFile_noted (host : Host) (path src : Bytes) (w : World) :
    ∃ w', w.Noted w' ∧ parseFile host path src w = some (
      if (parse src).diagnostics.isEmpty then .ok (parse src).program
      else .error ⟨path, src, (parse src).diagnostics⟩, w') := by
  refine exists_parseFile (.refl w)
    (fun _ _ _ => ⟨_, _, rfl⟩) fun {u u' level message attributes} hu hlog => ?_
  obtain ⟨_, hrecord, hnoted⟩ := Run.log_noted level message attributes u
  cases hrecord.symm.trans hlog
  exact hu.trans hnoted

/-- A file gives a program only if it can be parsed. -/
theorem quiet_parseFile (host : Host) (path src : Bytes) :
    Run.Quiet (fun r => ∀ p, r = .ok p → (parse src).diagnostics = [] ∧ p = (parse src).program)
      (parseFile host path src) := by
  intro w r w' h
  obtain ⟨_, ⟨_, _, rfl⟩, hparse⟩ := parseFile_noted host path src w
  obtain ⟨rfl, rfl⟩ := Prod.mk.inj (Option.some.inj (hparse.symm.trans h))
  refine ⟨rfl, rfl, fun p hp => ?_⟩
  split at hp
  next hclean => exact ⟨List.isEmpty_iff.mp hclean, (Except.ok.inj hp).symm⟩
  next => cases hp

end Import

namespace Interpreter

open Run (Lockstep)

/-- Two evaluators do the same under a discipline, or they part. -/
def Together (D : Discipline) (P : Parting) (self self' : Evaluator) : Prop :=
  ∀ (node : Node) {scope : ScopeId} {w : World}, D.Fits node → D.Holds w → D.Open w.scopes scope →
    Lockstep D P .error scope (D.Gives node scope) (self node scope) (self' node scope) w

/-- The log record that the evaluation of a node starts with. -/
abbrev announce (node : Node) : Run Unit := Run.log .trace "eval" [("node", .word node.label)]

/-- A new scope is the next one of those that there are. -/
theorem scopes_of_scope {outer : Option ScopeId} {s : ScopeId} {w w' : World}
    (h : Run.scope outer w = some (s, w')) : (w.scopes.fresh outer).2 = w'.scopes := by
  obtain ⟨-, rfl⟩ := Prod.mk.inj (Option.some.inj h)
  rfl

/-- A binding changes the scopes as it says. -/
theorem scopes_of_create {s : ScopeId} {name : Bytes} {v : Value} {w w' : World}
    (h : Run.create s name v w = some ((), w')) : w'.scopes = w.scopes.create s name v := by
  obtain ⟨u, hcreate, hscopes⟩ := Run.exists_create s name v w
  cases hcreate.symm.trans h
  exact hscopes

/-- A new scope is one of those that there are afterwards. -/
theorem lt_size_of_scope {outer : Option ScopeId} {s : ScopeId} {w w' : World}
    (h : Run.scope outer w = some (s, w')) : s < w'.scopes.size := by
  obtain ⟨rfl, rfl⟩ := Prod.mk.inj (Option.some.inj h)
  simp

/-- A plain assignment may be made once its right side is evaluated, and the owner of the name may
take its value. Other assignments are to names that can be read. -/
structure Permitted (D : Discipline) (part : Evaluator) (scope : ScopeId) (w : World) (e : Expr) :
    Prop where
  permits : ∀ pos name right v w', e = .infixed pos .assign (.ident name) right →
    part (.expr right) scope w = some (v, w') → v.isError = false →
      D.Permits w'.scopes scope name.text
  takes : ∀ pos name right v w', e = .infixed pos .assign (.ident name) right →
    part (.expr right) scope w = some (v, w') → v.isError = false →
    ∀ o, (w'.scopes.upToOwner name.text (w'.scopes.path scope)).getLast? = some o →
      D.Takes w'.scopes o v

/-- The scope of a binding may take its value. -/
def Bindable (D : Discipline) (self : Evaluator) (scope : ScopeId) (w : World) (s : Stmt) : Prop :=
  ∀ pos name value v w', s = .binding pos name value → self (.expr value) scope w = some (v, w') →
    v.isError = false → D.Takes w'.scopes scope v

variable {it : Interpreter} {D : Discipline} {P : Parting} {self self' : Evaluator}
  {scope : ScopeId} {w : World}

/-- Where every owner takes every value, an assignment is permitted if the name may be written. -/
theorem Permitted.of_lenient [D.Lenient] {e : Expr}
    (h : ∀ pos name right v w', e = .infixed pos .assign (.ident name) right →
      self (.expr right) scope w = some (v, w') → v.isError = false →
        D.Permits w'.scopes scope name.text) :
    Permitted D self scope w e :=
  ⟨h, fun _ _ _ _ _ _ _ _ _ _ => Discipline.Lenient.takes⟩

/-- Where every scope takes every value, a binding may be made. -/
theorem Bindable.of_lenient [D.Lenient] {s : Stmt} : Bindable D self scope w s :=
  fun _ _ _ _ _ _ _ _ => Discipline.Lenient.takes

/-- Evaluators that do the same do the same at a part of a node. -/
theorem Together.part (hself : Together D P self self') (node : Node) (hfits : D.Fits node)
    (hw : D.Holds w) (hscope : D.Open w.scopes scope) :
    Lockstep D P .error scope D.Yields (self node scope) (self' node scope) w :=
  (hself node hfits hw hscope).imp fun _ _ hv => hv.1

/-- Reading a name keeps the discipline, as what is bound was allowed. -/
theorem keeps_evalName (name : Bytes) (hw : D.Holds w) (hscope : D.Open w.scopes scope) :
    D.Keeps scope D.Yields (it.evalName scope name) w := by
  unfold evalName
  split
  · exact .pure hw (.of_isPlain rfl)
  · refine Discipline.Keeps.bind (Q := fun scopes found => ∀ v, found = some v →
      D.Yields scopes v) ?_ ?_
    · intro found w' h
      obtain ⟨rfl, rfl⟩ := Prod.mk.inj (Option.some.inj h)
      exact ⟨hw, D.leads_refl _ _, fun v hv => .inr (D.allows_get? hw hscope hv)⟩
    · intro found w' _ hw' _ hfound
      cases found with
      | none => exact .pure hw' (.of_isPlain rfl)
      | some v => exact .pure hw' (hfound v rfl)

/-- Binding parameters keeps the discipline, if the scope takes the arguments. -/
theorem keeps_bindAll (hw : D.Holds w) (hscope : D.Open w.scopes scope) (parameters : List Name)
    {args : List Value} (hargs : ∀ v ∈ args, D.Allows w.scopes v)
    (htakes : ∀ v ∈ args, D.Takes w.scopes scope v) :
    D.Keeps scope (fun _ _ => True) (bindAll scope parameters args) w := by
  induction parameters generalizing args w with
  | nil => exact .pure hw trivial
  | cons p ps ih =>
    cases args with
    | nil => exact .pure hw trivial
    | cons v vs =>
      obtain ⟨hv, hvs⟩ := List.forall_mem_cons.mp hargs
      obtain ⟨htake, htakes⟩ := List.forall_mem_cons.mp htakes
      refine (Discipline.Keeps.create hw hscope hv htake).bind fun _ w' hrun hw' hlead _ => ?_
      refine ih hw' (D.open_of_leads hlead hscope)
        (fun v hv => D.allows_of_leads hlead (hvs v hv)) ?_
      intro v hv
      rw [scopes_of_create hrun]
      exact D.takes_create htake (htakes v hv)

/-- Every parameter gets its argument, if there are as many of them. -/
theorem bindAll_bind {β : Type} {parameters : List Name} {args : List Value}
    (hcount : args.length = parameters.length) (f : Except Fault Unit → Run β) :
    bindAll scope parameters args >>= f = bindAll scope parameters args >>= fun _ =>
      f (.ok ()) := by
  induction parameters generalizing args with
  | nil => rfl
  | cons p ps ih =>
    cases args with
    | nil => cases hcount
    | cons v vs =>
      simp only [bindAll, bind_assoc]
      exact bind_congr fun _ => ih (Nat.succ.inj hcount)

/-- The scope of a function's body, with its parameters bound. -/
def enter (outer : ScopeId) (parameters : List Name) (args : List Value) : Run ScopeId := do
  let scope ← Run.scope (some outer)
  let _ ← bindAll scope parameters args
  return scope

/-- A function of the program is entered, its body is evaluated, and a `return` gives up what it
carries. -/
theorem apply_function {stamp : Stamp} {parameters : List Name} {body : Block} {outer : ScopeId}
    {args : List Value} (hcount : args.length = parameters.length) :
    it.apply self (.function stamp parameters body outer) args =
      (enter outer parameters args >>= self (.block body)) >>= fun v => return callResult v := by
  simp only [apply, enter, hcount, ne_eq, not_true_eq_false, if_false, bind_assoc, pure_bind]
  exact bind_congr fun _ => bindAll_bind hcount _

section Parts

variable (hself : Together D P self self')

include hself

/-! ## Statements -/

/-- The statements of a program are run in lockstep, one after the other. -/
theorem lockstep_evalProgram (hw : D.Holds w) (hscope : D.Open w.scopes scope) {result : Value}
    (hresult : D.Yields w.scopes result) {statements : List Stmt}
    (hfits : D.Strict → statementsComplete statements = true) :
    Lockstep D P .error scope D.Yields (evalProgram self scope result statements)
      (evalProgram self' scope result statements) w := by
  induction statements generalizing result w with
  | nil => exact .pure hw hresult
  | cons s ss ih =>
    obtain ⟨hs, hss⟩ := D.both hfits
    refine (hself.part (.stmt s) hs hw hscope).bind (fun _ => rfl)
      (fun _ => rfl) fun v w₁ _ hw₁ hlead hv => ?_
    have hscope₁ := D.open_of_leads hlead hscope
    -- Only `return` and a fault end a program; a `break` that no loop took is dropped.
    cases v with
    | returned => exact .pure hw₁ hv.carried
    | error => exact .pure hw₁ hv
    | broken => exact ih hw₁ hscope₁ (.of_isPlain rfl) hss
    | _ => exact ih hw₁ hscope₁ hv hss

/-- The statements of a block are run in lockstep, up to a signal. -/
theorem lockstep_evalBlock (hw : D.Holds w) (hscope : D.Open w.scopes scope) {result : Value}
    (hresult : D.Yields w.scopes result) {statements : List Stmt}
    (hfits : D.Strict → statementsComplete statements = true) :
    Lockstep D P .error scope D.Yields (evalBlock self scope result statements)
      (evalBlock self' scope result statements) w := by
  induction statements generalizing result w with
  | nil => exact .pure hw hresult
  | cons s ss ih =>
    obtain ⟨hs, hss⟩ := D.both hfits
    refine (hself.part (.stmt s) hs hw hscope).bind (fun _ => rfl)
      (fun _ => rfl) fun v w₁ _ hw₁ hlead hv => ?_
    -- A block hands all three on as they are, to whoever evaluates it.
    cases v with
    | returned | error | broken => exact .pure hw₁ hv
    | _ => exact ih hw₁ (D.open_of_leads hlead hscope) hv hss

/-! ## Expressions in a row -/

/-- Expressions in a row are run in lockstep, up to an error. -/
theorem lockstep_evalAll (hw : D.Holds w) (hscope : D.Open w.scopes scope) {es : List Expr}
    (hfits : D.Strict → areComplete es = true) :
    Lockstep D P .error scope D.YieldsAll (evalAll self scope es) (evalAll self' scope es) w := by
  induction es generalizing w with
  | nil => exact .pure hw (List.forall_mem_nil _)
  | cons e es ih =>
    obtain ⟨he, hes⟩ := D.both hfits
    refine (hself.part (.expr e) he hw hscope).bind (fun _ => rfl)
      (fun _ => rfl) fun v w₁ _ hw₁ hlead hv => ?_
    -- The first fault takes the place of the whole row, so none gets among the values.
    cases v with
    | error => exact .pure hw₁ hv
    | _ =>
      refine (ih hw₁ (D.open_of_leads hlead hscope) hes).bind (fun _ => rfl) (fun _ => rfl)
        fun r w₂ _ hw₂ hlead₂ hr => ?_
      cases r with
      | error => exact .pure hw₂ hr
      | ok vs =>
        exact .pure hw₂ (List.forall_mem_cons.mpr ⟨D.allows_of_leads hlead₂ (hv.allows rfl), hr⟩)

/-- The pairs of a hash are run in lockstep, and their values may be filed. -/
theorem lockstep_evalPairs (hw : D.Holds w) (hscope : D.Open w.scopes scope) {entries : Entries}
    (hentries : entries.All D.Strict (D.Allows w.scopes)) {pairs : List (Expr × Expr)}
    (hfits : D.Strict → pairsComplete pairs = true) :
    Lockstep D P .error scope D.Yields (evalPairs self scope entries pairs)
      (evalPairs self' scope entries pairs) w := by
  induction pairs generalizing entries w with
  | nil =>
    refine .of_keeps (.imp (.of_quiet hw (Run.quiet_hash (D.hereditary w.scopes) hentries)) ?_)
    exact fun _ _ hlead h => .inr (D.allows_of_leads hlead h)
  | cons pair pairs ih =>
    obtain ⟨hpair, hpairs⟩ := D.both hfits
    obtain ⟨hk, hv⟩ := D.both hpair
    refine (hself.part (.expr pair.1) hk hw hscope).bind (fun _ => rfl) (fun _ => rfl)
      fun key w₁ _ hw₁ hlead hkey => ?_
    have hscope₁ := D.open_of_leads hlead hscope
    cases key with
    -- Only these can be filed, and they are leaves.
    | integer | float | double | boolean | string =>
      refine (hself.part (.expr pair.2) hv hw₁ hscope₁).bind (fun _ => rfl) (fun _ => rfl)
        fun value w₂ _ hw₂ hlead₂ hvalue => ?_
      have hlead₂ := D.leads_trans hlead hlead₂
      have hentries₂ : entries.All D.Strict (D.Allows w₂.scopes) :=
        hentries.imp fun _ => D.allows_of_leads hlead₂
      cases value with
      | error => exact .pure hw₂ hvalue
      | _ =>
        exact ih hw₂ (D.open_of_leads hlead₂ hscope)
          (hentries₂.insert rfl ((D.hereditary w₂.scopes).leaf rfl rfl) (hvalue.allows rfl)) hpairs
    | error => exact .pure hw₁ hkey
    | _ => exact .pure hw₁ (.of_isPlain rfl)

/-! ## Branches and loops -/

/-- The branches of a conditional are run in lockstep: both runs take the same one. -/
theorem lockstep_evalElifs (hw : D.Holds w) (hscope : D.Open w.scopes scope)
    {alternative : Option Block} (halternative : D.Strict → alternativeComplete alternative = true)
    {elifs : List (Expr × Block)} (hfits : D.Strict → elifsComplete elifs = true) :
    Lockstep D P .error scope D.Yields (evalElifs self scope alternative elifs)
      (evalElifs self' scope alternative elifs) w := by
  induction elifs generalizing w with
  | nil =>
    cases alternative with
    | none => exact .pure hw (.of_isPlain rfl)
    | some b => exact hself.part (.block b) halternative hw hscope
  | cons elif elifs ih =>
    obtain ⟨helif, helifs⟩ := D.both hfits
    obtain ⟨hcondition, hblock⟩ := D.both helif
    refine (hself.part (.expr elif.1) hcondition hw hscope).bind (fun _ => rfl) (fun _ => rfl)
      fun v w₁ _ hw₁ hlead hv => ?_
    have hscope₁ := D.open_of_leads hlead hscope
    cases v with
    | error => exact .pure hw₁ hv
    | _ =>
      dsimp only
      split
      · exact hself.part (.block elif.2) hblock hw₁ hscope₁
      · exact ih hw₁ hscope₁ helifs

omit hself in
/-- A variable that can be read can be read in the next round. -/
theorem lockstep_nextRound {outer : ScopeId} {counter : Bytes} {round round' : ScopeId → Run Value}
    (hw : D.Holds w) (houter : D.Open w.scopes outer) (hscope : D.Open w.scopes scope)
    (hcounter : D.Strict → (w.scopes.stored? counter scope).isSome = true)
    (hround : ∀ next u, D.Holds u → D.Open u.scopes outer → D.Open u.scopes next →
      (D.Strict → (u.scopes.stored? counter next).isSome = true) →
      Lockstep D P .error next D.Yields (round next) (round' next) u) :
    Lockstep D P .error scope D.Yields (nextRound outer counter scope round)
      (nextRound outer counter scope round') w := by
  refine .get? ?_
  cases hfound : w.scopes.get? scope counter with
  -- The counter was bound when the loop started, and names last under a strict discipline.
  | none =>
    refine .pure hw (.inl ⟨rfl, fun hstrict => ?_⟩)
    obtain ⟨v, hv⟩ := Option.isSome_iff_exists.mp (hcounter hstrict)
    rw [Scopes.get?_of_stored? hv] at hfound
    cases hfound
  | some value =>
    have hvalue := D.allows_get? hw hscope hfound
    refine .bind_scope scope hw (fun o ho => Option.some.inj ho ▸ houter)
      fun w₁ hmake _ hw₁ hnext hlead => ?_
    have hsize : w.scopes.size < w₁.scopes.size := lt_size_of_scope hmake
    -- A new scope is enclosed by nothing, so it takes any value that is allowed.
    have htakes : D.Takes w₁.scopes w.scopes.size value :=
      scopes_of_scope hmake ▸ D.takes_fresh hw hvalue
    refine .after (.create hw₁ hnext (D.allows_of_leads hlead hvalue) htakes)
      fun _ w₂ _ hw₂ hlead₂ hbound => ?_
    refine hround _ w₂ hw₂ (D.open_of_leads hlead₂ (D.open_of_leads hlead houter))
      (D.open_of_leads hlead₂ hnext) fun hstrict => ?_
    exact hbound (Nat.lt_of_lt_of_le hsize (D.lasts_of_leads hstrict hlead₂).size_le)

/-- The variable of a loop can be read at the start of every round, and so at its end. -/
theorem lockstep_evalRounds {outer : ScopeId} {counter : Bytes} {condition : Expr} {step : Stmt}
    {body : Block} (hcondition : D.Fits (.expr condition)) (hstep : D.Fits (.stmt step))
    (hbody : D.Fits (.block body)) (rounds : Nat) (hw : D.Holds w) (houter : D.Open w.scopes outer)
    (hscope : D.Open w.scopes scope)
    (hcounter : D.Strict → (w.scopes.stored? counter scope).isSome = true) :
    Lockstep D P .error scope D.Yields
      (evalRounds self outer counter condition step body rounds scope)
      (evalRounds self' outer counter condition step body rounds scope) w := by
  -- Every round has a scope of its own, so the induction is over all scopes at once.
  induction rounds generalizing scope w with
  | zero => exact .inl ⟨rfl, by rintro _ _ ⟨⟩⟩
  | succ rounds ih =>
    refine (hself.part (.expr condition) hcondition hw hscope).bind (fun _ => rfl) (fun _ => rfl)
      fun v w₁ _ hw₁ hlead hv => ?_
    have hscope₁ := D.open_of_leads hlead hscope
    have houter₁ := D.open_of_leads hlead houter
    cases v with
    | boolean b =>
      cases b with
      | false => exact .pure hw₁ (.of_isPlain rfl)
      | true =>
        refine (hself.part (.block body) hbody hw₁ hscope₁).bind (fun _ => rfl) (fun _ => rfl)
          fun v w₂ _ hw₂ hlead₂ hv => ?_
        have hscope₂ := D.open_of_leads hlead₂ hscope₁
        have houter₂ := D.open_of_leads hlead₂ houter₁
        cases v with
        | error | returned => exact .pure hw₂ hv
        | broken => exact .pure hw₂ (.of_isPlain rfl)
        | _ =>
          refine (hself.part (.stmt step) hstep hw₂ hscope₂).bind (fun _ => rfl) (fun _ => rfl)
            fun v w₃ _ hw₃ hlead₃ hv => ?_
          have hlead₃' := D.leads_trans (D.leads_trans hlead hlead₂) hlead₃
          have hcounter₃ : D.Strict → (w₃.scopes.stored? counter scope).isSome = true :=
            fun hstrict =>
            (D.lasts_of_leads hstrict hlead₃').stored _ _ (hcounter hstrict)
          have hscope₃ := D.open_of_leads hlead₃ hscope₂
          have houter₃ := D.open_of_leads hlead₃ houter₂
          cases v with
          | error => exact .pure hw₃ hv
          | _ => exact lockstep_nextRound hw₃ houter₃ hscope₃ hcounter₃ fun _ _ => ih
    | error => exact .pure hw₁ hv
    | _ => exact .pure hw₁ (.of_isPlain rfl)

/-- A loop works in scopes of its own. -/
theorem lockstep_loop (s : ScopeId) (hw : D.Holds w) (hscope : D.Open w.scopes scope) (rounds : Nat)
    {pos letPos : Nat} {counter : Name} {start condition : Expr} {step : Stmt} {body : Block}
    (hfits : D.Fits (.expr (.loop pos letPos counter start condition step body))) :
    Lockstep D P .error s D.Yields
      (it.evalExpr rounds self scope (.loop pos letPos counter start condition step body))
      (it.evalExpr rounds self' scope (.loop pos letPos counter start condition step body)) w := by
  obtain ⟨hrest, hbody⟩ := D.both hfits
  obtain ⟨hrest, hstep⟩ := D.both hrest
  obtain ⟨hstart, hcondition⟩ := D.both hrest
  refine .bind_scope s hw (fun o ho => Option.some.inj ho ▸ hscope)
    fun w₁ hmake _ hw₁ hinner hlead => ?_
  refine (hself (.stmt (.binding letPos counter start)) hstart hw₁ hinner).bind (fun _ => rfl)
    (fun _ => rfl) fun v w₂ _ hw₂ hlead₂ hv => ?_
  -- The counter is bound in the new scope, unless its start was an error.
  have hcounter : v.isError = false → D.Strict →
      (w₂.scopes.stored? counter.text w.scopes.size).isSome = true := fun herror hstrict =>
    hv.2 _ _ _ rfl hstrict herror
      (Nat.lt_of_lt_of_le (lt_size_of_scope hmake) (D.lasts_of_leads hstrict hlead₂).size_le)
  cases v with
  | error => exact .pure hw₂ hv.1
  | _ =>
    exact lockstep_evalRounds hself hcondition hstep hbody _ hw₂
      (D.open_of_leads hlead₂ (D.open_of_leads hlead hscope)) (D.open_of_leads hlead₂ hinner)
        (hcounter rfl)

/-! ## Assignments -/

/-- An assignment is run in lockstep if it is permitted once its right side is evaluated. -/
theorem lockstep_evalAssignment (hw : D.Holds w) (hscope : D.Open w.scopes scope) {pos : Nat}
    {op : InfixOp} {left right : Expr} (hright : D.Fits (.expr right))
    (hassign : Permitted D self scope w (.infixed pos op left right)) :
    Lockstep D P .error scope D.Yields (evalAssignment self scope op left right)
      (evalAssignment self' scope op left right) w := by
  cases left with
  | ident name =>
    refine (hself.part (.expr right) hright hw hscope).bind (fun _ => rfl) (fun _ => rfl)
      fun v w₁ hrun hw₁ hlead hv => ?_
    have hscope₁ := D.open_of_leads hlead hscope
    cases v with
    | error => exact .pure hw₁ hv
    | _ =>
      dsimp only
      split
      next hop =>
        -- A plain assignment may make a binding far out, so its name has to be permitted.
        subst hop
        have hname := hassign.permits _ _ _ _ _ rfl hrun rfl
        have htakes := hassign.takes _ _ _ _ _ rfl hrun rfl
        refine .after (.assign hw₁ hscope₁ (hv.allows rfl) hname htakes) fun _ w₂ _ hw₂ hlead₂ _ =>
          ?_
        exact .pure hw₂ (.of_leads hlead₂ hv)
      next =>
        -- A compound one reads its name first, and what can be read may be assigned.
        refine .get? ?_
        cases hfound : w₁.scopes.get? scope name.text with
        | none => exact .pure hw₁ (.of_isPlain rfl)
        | some current =>
          have hplain := Value.isPlain_compound op current
          dsimp only
          split
          next fault hresult => exact .pure hw₁ (.of_isPlain (hresult ▸ hplain _))
          next hresult =>
            have hallows := (D.hereditary w₁.scopes).leaf (Value.isLeaf_of_isPlain (hplain _))
              (Value.isError_eq_false hresult)
            have hname := D.permits_of_get? hw₁ hscope₁ hfound
            refine .after (.assign hw₁ hscope₁ hallows hname fun o _ =>
              D.takes_of_isPlain (hplain _)) fun _ w₂ _ hw₂ _ _ => ?_
            exact .pure hw₂ (.of_isPlain (hplain _))
  | _ => exact .pure hw (.of_isPlain rfl)

/-! ## Modules -/

/-- The evaluation of a module is run in lockstep, in a scope of its own. -/
theorem lockstep_evaluateModule (s : ScopeId) (hw : D.Holds w) {path : Bytes}
    (hpath : path ∉ w.loader.loading) (src : Bytes) {program : Program}
    (hfits : D.Fits (.program program)) :
    Lockstep D P .error s D.Yields (Import.evaluateModule (it.host self) path src program)
      (Import.evaluateModule (it.host self') path src program) w := by
  -- The scope of a module is an outermost one: there is no scope around it that would have to be
  -- open.
  refine .bind_scope s hw (by rintro _ ⟨⟩) fun w₁ _ hloader hw₁ hid _ => ?_
  have hwithin : Lockstep D P .error w.scopes.size D.Yields
      (Import.within path ((it.host self).evaluate program w.scopes.size))
      (Import.within path ((it.host self').evaluate program w.scopes.size)) w₁ :=
    .within hw₁ (hloader ▸ hpath) fun hw₂ => hself.part (.program program) hfits hw₂ hid
  -- That the file was not marked is known of the world before its evaluation only.
  refine hwithin.bind_last (fun _ => rfl) fun v w₂ hw₂ hlead hv r w₃ h => ?_
  split at h
  next =>
    obtain ⟨rfl, rfl⟩ := Prod.mk.inj (Option.some.inj h)
    exact ⟨hw₂, hlead, hv⟩
  next =>
    obtain ⟨rfl, rfl⟩ := Prod.mk.inj (Option.some.inj h)
    let loaded : LoadedModule := ⟨src, .module (Import.moduleName path) path w.scopes.size⟩
    have hmodule : D.Allows w₂.scopes loaded.module :=
      D.allows_module.mpr (D.open_of_leads hlead hid)
    obtain ⟨hw₃, hlead₃⟩ := D.remember (hloader ▸ hpath) hlead hw₂ hmodule
    exact ⟨hw₃, hlead₃, .inr hmodule⟩

/-- The loading of a path is run in lockstep: both runs read the same file. -/
theorem lockstep_loadPath (s : ScopeId) (hw : D.Holds w) {path : Bytes}
    (hpath : path ∉ w.loader.loading) :
    Lockstep D P .error s D.Yields (Import.loadPath (it.host self) path)
      (Import.loadPath (it.host self') path) w := by
  -- Files are read and parsed without the evaluator, so the two sides differ only once there is a
  -- program.
  have hparse : Import.parseFile (it.host self') = Import.parseFile (it.host self) := rfl
  unfold Import.loadPath
  rw [hparse]
  refine .get ?_
  cases w.files.read path with
  | error => exact .pure hw (.of_isPlain rfl)
  | ok src =>
    dsimp only
    split
    next loaded hloaded =>
      have hcached := D.allows_cached hw (Option.filter_eq_some_iff.mp hloaded).1
      refine .after_quiet hw (Run.quiet_log _ _ _) fun _ w₁ hw₁ hscopes _ _ => .pure hw₁ (.inr ?_)
      exact hscopes ▸ hcached
    next =>
      refine .after_quiet hw (Run.quiet_log _ _ _) fun _ w₁ hw₁ _ hloader _ => ?_
      refine .after_quiet hw₁ (Import.quiet_parseFile _ _ _) fun parsed w₂ hw₂ _ hloader₂ hparsed =>
        ?_
      cases parsed with
      | error => exact .pure hw₂ (.of_isPlain rfl)
      | ok program =>
        obtain ⟨hclean, rfl⟩ := hparsed program rfl
        exact lockstep_evaluateModule hself s hw₂ (hloader₂ ▸ hloader ▸ hpath) src
          fun hstrict => D.complete_of_parse hstrict hclean

/-- An import is run in lockstep. A path that is being loaded gives the same fault in both runs. -/
theorem lockstep_load (s : ScopeId) (hw : D.Holds w) (name : Bytes) :
    Lockstep D P .error s D.Yields (Import.load (it.host self) name)
      (Import.load (it.host self') name) w := by
  have hresolve : Import.resolve (it.host self') = Import.resolve (it.host self) := rfl
  unfold Import.load
  rw [hresolve]
  refine .get ?_
  cases Import.resolve (it.host self) w.files w.loader.stack name with
  | error => exact .pure hw (.of_isPlain rfl)
  | ok path =>
    dsimp only
    split
    next => exact .pure hw (.of_isPlain rfl)
    next hpath => exact lockstep_loadPath hself s hw (by simpa using hpath)

/-- The builtin that imports always has a result. -/
theorem lockstep_import (s : ScopeId) (hw : D.Holds w) (args : List Value) :
    Lockstep D P (fun fault => some (.error fault)) s
      (fun scopes r => ∃ v, r = some v ∧ D.Yields scopes v)
      (Import.builtin.run (it.host self) args) (Import.builtin.run (it.host self') args) w := by
  have hfault : ∀ fault : Fault, fault.isBreach = false →
    Lockstep D P (fun fault => some (.error fault)) s
      (fun scopes r => ∃ v, r = some v ∧ D.Yields scopes v)
      (pure (some (.error fault)) : Run (Option Value)) (pure (some (.error fault))) w :=
    fun fault hbreach => .pure hw ⟨_, rfl, .inl ⟨rfl, fun _ => hbreach⟩⟩
  rcases args with _ | ⟨v, _ | ⟨v', vs⟩⟩
  · exact hfault _ rfl
  · cases v with
    | string name =>
      change Lockstep D P _ s _ (some <$> Import.load _ name) (some <$> Import.load _ name) w
      rw [map_eq_pure_bind, map_eq_pure_bind]
      exact (lockstep_load hself s hw name).bind (fun _ => rfl) (fun _ => rfl)
        fun v w₁ _ hw₁ _ hv => .pure hw₁ ⟨v, rfl, hv⟩
    | _ => exact hfault _ rfl
  · cases v <;> exact hfault _ rfl

/-! ## Calls -/

/-- The body of a function is evaluated in a scope of its own. -/
theorem lockstep_body (s : ScopeId) (hw : D.Holds w) {outer : ScopeId}
    (houter : D.Open w.scopes outer) (parameters : List Name) {args : List Value}
    (hargs : ∀ v ∈ args, D.Allows w.scopes v) {body : Block} (hbody : D.Fits (.block body)) :
    Lockstep D P .error s D.Yields (enter outer parameters args >>= self (.block body))
      (enter outer parameters args >>= self' (.block body)) w := by
  simp only [enter, bind_assoc, pure_bind]
  refine .bind_scope s hw (fun o ho => Option.some.inj ho ▸ houter)
    fun w₁ hmake _ hw₁ hinner hlead => ?_
  have hargs₁ : ∀ v ∈ args, D.Allows w₁.scopes v := fun v hv => D.allows_of_leads hlead (hargs v hv)
  have htakes : ∀ v ∈ args, D.Takes w₁.scopes w.scopes.size v := fun v hv =>
    scopes_of_scope hmake ▸ D.takes_fresh hw (hargs v hv)
  refine .after (keeps_bindAll hw₁ hinner parameters hargs₁ htakes) fun _ w₂ _ hw₂ hlead₂ _ => ?_
  exact hself.part (.block body) hbody hw₂ (D.open_of_leads hlead₂ hinner)

/-- A function works in a scope of its own. -/
theorem lockstep_apply (hit : it.registry = standard) (s : ScopeId) (hw : D.Holds w)
    {function : Value} (hfunction : D.Allows w.scopes function) {args : List Value}
    (hargs : ∀ v ∈ args, D.Allows w.scopes v) :
    Lockstep D P .error s D.Yields (it.apply self function args)
      (it.apply self' function args) w := by
  cases function with
  | function stamp parameters body outer =>
    by_cases hcount : args.length = parameters.length
    · obtain ⟨houter, hbody⟩ := D.allows_function.mp hfunction
      rw [apply_function hcount, apply_function hcount]
      refine (lockstep_body hself s hw houter parameters hargs hbody).bind (fun _ => rfl)
        (fun _ => rfl) fun v w₁ _ hw₁ _ hv => ?_
      exact .pure hw₁ hv.callResult
    · have hfault : ∀ self, it.apply self (.function stamp parameters body outer) args =
          pure (.error (.parameterCount parameters.length args.length)) := fun _ => if_pos hcount
      rw [hfault, hfault]
      exact .pure hw (.of_isPlain rfl)
  | builtin name =>
    refine .after_quiet hw (Run.quiet_log _ _ _) fun _ w₁ hw₁ hscopes _ _ => ?_
    cases hb : it.registry.lookup name with
    | none => exact .pure hw₁ (.of_isPlain rfl)
    | some b =>
      have hrun : Lockstep D P (fun fault => some (.error fault)) s
          (fun scopes r => ∃ v, r = some v ∧ D.Yields scopes v)
          (b.run (it.host self) args) (b.run (it.host self') args) w₁ := by
        -- All builtins but `import` leave scopes and modules alone, and do not call the evaluator.
        rw [hit] at hb
        rcases tame_of_lookup hb with htame | rfl
        · rw [htame.run_eq (it.host self) (it.host self')]
          rw [← hscopes] at hargs
          have hquiet := htame.quiet (D.hereditary w₁.scopes) (it.host self') args hargs
          refine .of_keeps (.imp (.of_quiet hw₁ hquiet) ?_)
          rintro r w₂ hlead ⟨v, rfl, hv⟩
          exact ⟨v, rfl, .of_leads hlead hv⟩
        · exact lockstep_import hself s hw₁ args
      refine hrun.bind (fun _ => rfl) (fun _ => rfl) fun r w₂ _ hw₂ _ hr => ?_
      obtain ⟨v, rfl, hv⟩ := hr
      exact .pure hw₂ hv
  | _ => exact .pure hw (.of_isPlain rfl)

/-- A member of a module is run in lockstep, whether it is read or called. -/
theorem lockstep_evalMember (hit : it.registry = standard) (hw : D.Holds w)
    (hscope : D.Open w.scopes scope) {left right : Expr} (hleft : D.Fits (.expr left))
    (hright : D.Fits (.expr right)) :
    Lockstep D P .error scope D.Yields (it.evalMember self scope left right)
      (it.evalMember self' scope left right) w := by
  refine (hself.part (.expr left) hleft hw hscope).bind (fun _ => rfl) (fun _ => rfl)
    fun v w₁ _ hw₁ hlead hv => ?_
  have hscope₁ := D.open_of_leads hlead hscope
  cases v with
  | module name path inner =>
    have hinner : D.Open w₁.scopes inner := D.allows_module.mp (hv.allows rfl)
    cases right with
    | ident name =>
      refine .get? (.pure hw₁ ?_)
      cases hfound : w₁.scopes.get? inner name.text with
      | none => exact .of_isPlain rfl
      | some v => exact .inr (D.allows_get? hw₁ hinner hfound)
    | call pos callee arguments =>
      obtain ⟨-, harguments⟩ := D.both hright
      cases callee with
      | ident name =>
        refine .get? ?_
        cases hfound : w₁.scopes.get? inner name.text with
        | none => exact .pure hw₁ (.of_isPlain rfl)
        | some f =>
          -- The function comes from the scope of the module, its arguments from that of the call.
          have hf := D.allows_get? hw₁ hinner hfound
          refine (lockstep_evalAll hself hw₁ hscope₁ harguments).bind (fun _ => rfl) (fun _ => rfl)
            fun r w₂ _ hw₂ hlead₂ hr => ?_
          cases r with
          | error => exact .pure hw₂ hr
          | ok args => exact lockstep_apply hself hit scope hw₂ (D.allows_of_leads hlead₂ hf) hr
      | _ => exact .pure hw₁ (.of_isPlain rfl)
    | _ => exact .pure hw₁ (.of_isPlain rfl)
  | error => exact .pure hw₁ hv
  | _ => exact .pure hw₁ (.of_isPlain rfl)

/-! ## Nodes -/

/-- An expression is run in lockstep, if its parts are and its assignment is permitted. -/
theorem lockstep_evalExpr (hit : it.registry = standard) (rounds : Nat) (hw : D.Holds w)
    (hscope : D.Open w.scopes scope) {e : Expr} (hfits : D.Fits (.expr e))
    (hassign : Permitted D self scope w e) :
    Lockstep D P .error scope D.Yields (it.evalExpr rounds self scope e)
      (it.evalExpr rounds self' scope e) w := by
  cases e with
  -- A missing expression is a breach, but a strict discipline has no such node to evaluate.
  | missing => exact .pure hw (.inl ⟨rfl, fun hstrict => absurd (hfits hstrict) Bool.false_ne_true⟩)
  | ident name => exact .of_keeps (keeps_evalName name.text hw hscope)
  | array pos elements =>
    refine (lockstep_evalAll hself hw hscope hfits).bind (fun _ => rfl) (fun _ => rfl)
      fun r w₁ _ hw₁ _ hr => ?_
    cases r with
    | error => exact .pure hw₁ hr
    | ok vs =>
      -- What is allowed is inherited, so elements that may be stored make such an array.
      refine .of_keeps (.imp (.of_quiet hw₁ (Run.quiet_array (D.hereditary w₁.scopes) hr)) ?_)
      exact fun _ _ hlead h => .inr (D.allows_of_leads hlead h)
  | hash pos pairs => exact lockstep_evalPairs hself hw hscope .empty hfits
  | prefixed pos op operand =>
    refine (hself.part (.expr operand) hfits hw hscope).bind (fun _ => rfl) (fun _ => rfl)
      fun v w₁ _ hw₁ _ hv => ?_
    cases v with
    | error => exact .pure hw₁ hv
    | _ => exact .pure hw₁ (.of_isPlain (Value.isPlain_prefixed _ _))
  | infixed pos op left right =>
    obtain ⟨hleft, hright⟩ := D.both hfits
    cases op with
    | assign | addAssign | subAssign | mulAssign | divAssign =>
      exact lockstep_evalAssignment hself hw hscope hright hassign
    | member => exact lockstep_evalMember hself hit hw hscope hleft hright
    | _ =>
      refine (hself.part (.expr left) hleft hw hscope).bind (fun _ => rfl) (fun _ => rfl)
        fun a w₁ _ hw₁ hlead ha => ?_
      cases a with
      | error => exact .pure hw₁ ha
      | _ =>
        refine (hself.part (.expr right) hright hw₁ (D.open_of_leads hlead hscope)).bind
          (fun _ => rfl) (fun _ => rfl) fun b w₂ _ hw₂ _ hb => ?_
        cases b with
        | error => exact .pure hw₂ hb
        | _ => exact .pure hw₂ (.of_isPlain (Value.isPlain_infixed _ _ _))
  | index pos collection key =>
    obtain ⟨hcollection, hkey⟩ := D.both hfits
    refine (hself.part (.expr collection) hcollection hw hscope).bind (fun _ => rfl) (fun _ => rfl)
      fun c w₁ _ hw₁ hlead hc => ?_
    -- What stands in a collection was allowed with it, so it still is once the key is evaluated.
    have hindex : ∀ w₂ k, D.Leads scope w₁ w₂ → c.isError = false →
      D.Yields w₂.scopes (Value.index c k) :=
      fun w₂ k hlead₂ hc' => (D.hereditary w₂.scopes).index
        (D.allows_of_leads hlead₂ (hc.allows hc')) k
    cases c with
    | error => exact .pure hw₁ hc
    | _ =>
      refine (hself.part (.expr key) hkey hw₁ (D.open_of_leads hlead hscope)).bind (fun _ => rfl)
        (fun _ => rfl) fun k w₂ _ hw₂ hlead₂ hk => ?_
      cases k with
      | error => exact .pure hw₂ hk
      | _ => exact .pure hw₂ (hindex w₂ _ hlead₂ rfl)
  | call pos callee arguments =>
    obtain ⟨hcallee, harguments⟩ := D.both hfits
    refine (hself.part (.expr callee) hcallee hw hscope).bind (fun _ => rfl) (fun _ => rfl)
      fun f w₁ _ hw₁ hlead hf => ?_
    have hscope₁ := D.open_of_leads hlead hscope
    cases f with
    | error => exact .pure hw₁ hf
    | _ =>
      refine (lockstep_evalAll hself hw₁ hscope₁ harguments).bind (fun _ => rfl) (fun _ => rfl)
        fun r w₂ _ hw₂ hlead₂ hr => ?_
      cases r with
      | error => exact .pure hw₂ hr
      | ok args =>
        exact lockstep_apply hself hit scope hw₂ (D.allows_of_leads hlead₂ (hf.allows rfl)) hr
  | function pos parameters body =>
    refine .after_quiet hw Run.quiet_stamp fun stamp w₁ hw₁ hscopes _ _ => .pure hw₁ (.inr ?_)
    -- A function holds the scope that it was made in, and that is the open one.
    exact D.allows_function.mpr ⟨hscopes ▸ hscope, hfits⟩
  | conditional pos condition consequence elifs alternative =>
    obtain ⟨hrest, halternative⟩ := D.both hfits
    exact lockstep_evalElifs hself hw hscope halternative hrest
  | loop pos letPos counter start condition step body =>
    exact lockstep_loop hself scope hw hscope rounds hfits
  -- The literals are left, which are plain values.
  | _ => exact .pure hw (.of_isPlain rfl)

/-- A statement is run in lockstep, if its parts are and its binding may be made. -/
theorem lockstep_evalStmt (hw : D.Holds w) (hscope : D.Open w.scopes scope) {s : Stmt}
    (hfits : D.Fits (.stmt s)) (hbind : Bindable D self scope w s) :
    Lockstep D P .error scope (D.Gives (.stmt s) scope) (evalStmt self scope s)
      (evalStmt self' scope s) w := by
  cases s with
  | binding pos name value =>
    refine (hself.part (.expr value) hfits hw hscope).bind (fun _ => rfl) (fun _ => rfl)
      fun v w₁ hrun hw₁ hlead hv => ?_
    have hscope₁ := D.open_of_leads hlead hscope
    cases v with
    | error => exact .pure hw₁ ⟨hv, by rintro _ _ _ - - ⟨⟩⟩
    | _ =>
      -- The value is known by now, and the premise says that its scope takes it.
      have htakes := hbind _ _ _ _ _ rfl hrun rfl
      refine .after (.create hw₁ hscope₁ (hv.allows rfl) htakes) fun _ w₂ _ hw₂ _ hbound => ?_
      refine .pure hw₂ ⟨.of_isPlain rfl, ?_⟩
      rintro _ _ _ ⟨⟩ - - hlt
      exact hbound hlt
  | returned pos value =>
    refine (hself.part (.expr value) hfits hw hscope).bind (fun _ => rfl) (fun _ => rfl)
      fun v w₁ _ hw₁ _ hv => ?_
    cases v with
    | error => exact .pure hw₁ (.of_yields hv (by rintro _ _ _ ⟨⟩))
    | _ =>
      refine .after_quiet hw₁ Run.quiet_stamp fun stamp w₂ hw₂ hscopes _ _ => .pure hw₂ ?_
      refine .of_yields (.inr ?_) (by rintro _ _ _ ⟨⟩)
      exact D.allows_returned.mpr (hscopes ▸ hv.allows rfl)
  | broken => exact .pure hw (.of_yields (.inr D.allows_broken) (by rintro _ _ _ ⟨⟩))
  | expression first value =>
    exact (hself.part (.expr value) hfits hw hscope).imp fun _ _ hv =>
      .of_yields hv (by rintro _ _ _ ⟨⟩)

/-- The step: a node observes the discipline if its parts do, and if it assigns and binds only what
it may. -/
theorem lockstep_evalNode (hit : it.registry = standard) (rounds : Nat) (hw : D.Holds w)
    (hscope : D.Open w.scopes scope) {node : Node} (hfits : D.Fits node)
    (hassign : ∀ e w₁, node = .expr e → announce node w = some ((), w₁) →
      Permitted D self scope w₁ e)
    (hbind : ∀ s w₁, node = .stmt s → announce node w = some ((), w₁) →
      Bindable D self scope w₁ s) :
    Lockstep D P .error scope (D.Gives node scope) (it.evalNode rounds self node scope)
      (it.evalNode rounds self' node scope) w := by
  -- The record at the start is quiet, so the premises about the world behind it apply.
  refine .after (.of_quiet hw (Run.quiet_log _ _ _)) fun _ w₁ hlog hw₁ hlead _ => ?_
  have hscope₁ := D.open_of_leads hlead hscope
  cases node with
  | program p =>
    refine (lockstep_evalProgram hself hw₁ hscope₁ (.of_isPlain rfl) hfits).imp fun _ _ hv => ?_
    exact .of_yields hv (by rintro _ _ _ ⟨⟩)
  | block b =>
    obtain ⟨pos, statements⟩ := b
    refine (lockstep_evalBlock hself hw₁ hscope₁ (.of_isPlain rfl) hfits).imp fun _ _ hv => ?_
    exact .of_yields hv (by rintro _ _ _ ⟨⟩)
  | stmt s => exact lockstep_evalStmt hself hw₁ hscope₁ hfits (hbind s w₁ rfl hlog)
  | expr e =>
    refine (lockstep_evalExpr hself hit rounds hw₁ hscope₁ hfits (hassign e w₁ rfl hlog)).imp
      fun _ _ hv => ?_
    exact .of_yields hv (by rintro _ _ _ ⟨⟩)

end Parts

/-- The run: an evaluator observes every discipline under which all bindings and assignments may be
made. -/
theorem together_eval [D.Lenient] (hit : it.registry = standard)
    (hpermits : ∀ scopes s name, D.Permits scopes s name) (bound : Nat) :
    Together D P (it.eval bound) (it.eval bound) := by
  induction bound with
  | zero => exact fun _ _ _ _ _ _ => .inl ⟨rfl, by rintro _ _ ⟨⟩⟩
  | succ bound ih =>
    intro node scope w hfits hw hscope
    refine lockstep_evalNode ih hit bound hw hscope hfits ?_ ?_
    · exact fun _ _ _ _ => .of_lenient fun _ _ _ _ _ _ _ _ => hpermits _ _ _
    · exact fun _ _ _ _ => .of_lenient

end Interpreter

end Rill
