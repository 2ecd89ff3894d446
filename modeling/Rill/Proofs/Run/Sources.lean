import Rill.Proofs.Run.Detached

/-!
# Evaluation does not depend on sources

Two trees that are the same when detached from their sources evaluate to the same result, in worlds
that are the same but for the sources of their functions.

The trees of imported files keep their sources, whatever the tree is that imports them. So the
evaluation of a tree is compared with one that detaches every tree before it looks at it
(`Interpreter.evalDetached`): for each part of the evaluator one lemma says that the two do the
same, and from these the same follows for whole evaluations.

* `Interpreter.detaches_evalNode`: a node, in terms of its parts.
* `Interpreter.detaches_eval`: every evaluation does what the detached one does, but for the
  sources.
* `Interpreter.outcome_eq_of_detached`: trees that are the same when detached have the same outcome.
* `Interpreter.shown_eq_map_outcome`: the outcome says what is seen of an evaluation.
-/

namespace Rill

/-! ## Modules -/

/-- Two hosts look for files in the same places, and their evaluations do the same but for
sources. -/
structure Host.Detaches (host host' : Host) : Prop where
  root : host'.root = host.root
  home : host'.home = host.home
  dump : host'.dump = host.dump
  toYaml : host'.toYaml = host.toYaml
  evaluate : ∀ p scope, Run.Detaches Value.detached (host.evaluate p scope) (host'.evaluate p scope)

namespace Import

variable {host host' : Host}

/-- Hosts that differ in the offsets of syntax trees only find the same files. -/
theorem resolve_eq_of_detaches (h : host.Detaches host') : resolve host' = resolve host := by
  funext fs stack name
  simp only [resolve, h.root, h.home]

/-- Parsing a file gives the same program, whatever the host. -/
theorem detaches_parseFile (h : host.Detaches host') (path src : Bytes) :
    Run.Detaches id (parseFile host path src) (parseFile host' path src) := by
  -- Whether or not a dump file is written, this comes last.
  have hend :
    Run.Detaches id (if (parse src).diagnostics.isEmpty then return .ok (parse src).program
      else return .error ⟨path, src, (parse src).diagnostics⟩ : Run (Except Malformed Program))
      (if (parse src).diagnostics.isEmpty then return .ok (parse src).program
      else return .error ⟨path, src, (parse src).diagnostics⟩) := by
    split <;> exact .pure rfl
  simp only [parseFile, h.dump, h.toYaml]
  split
  · refine .read fun w => ?_
    rw [World.files_detached]
    cases (parse src).program.dump host.toYaml path host.dump w.files with
    | ok dumped =>
      exact Run.Detaches.bind (f := id) (.modifyGet fun _ => rfl) fun _ =>
        (Run.detaches_log _ _ _).bind fun _ => hend
    | error fault => exact (Run.detaches_log _ _ _).bind fun _ => hend
  · exact hend

/-- A file on top of the stack does not change that offsets do not matter. -/
theorem detaches_within (path : Bytes) {x y : Run Value} (h : Run.Detaches Value.detached x y) :
    Run.Detaches Value.detached (within path x) (within path y) := by
  refine Run.Detaches.bind (f := id) (.modifyGet fun _ => rfl) fun _ => h.bind fun v => ?_
  exact Run.Detaches.bind (f := id) (.modifyGet fun _ => rfl) fun _ => .pure rfl

/-- A module is evaluated to the same value up to offsets. -/
theorem detaches_evaluateModule (h : host.Detaches host') (path src : Bytes) (p : Program) :
    Run.Detaches Value.detached (evaluateModule host path src p)
      (evaluateModule host' path src p) := by
  refine (Run.detaches_scope none).bind fun scope =>
    (detaches_within path (h.evaluate p scope)).bind fun v => ?_
  rw [Value.isError_detached]
  split
  · exact .pure rfl
  · refine Run.Detaches.bind (f := id) (.modifyGet fun w => ?_) fun _ => .pure rfl
    -- A module is remembered with its text and its scope, neither of which is detached.
    have hloader :=
      Loader.remember_detached path ⟨src, .module (moduleName path) path scope⟩ w.loader
    exact congrArg (fun l => ((), { w.detached with loader := l })) hloader

/-- A path is loaded to the same value up to offsets. -/
theorem detaches_loadPath (h : host.Detaches host') (path : Bytes) :
    Run.Detaches Value.detached (loadPath host path) (loadPath host' path) := by
  refine .read fun w => ?_
  -- The cache is searched by the text of the file, which stays.
  have hcache (src : Bytes) : (w.detached.loader.cache.get? path).filter (·.src = src) =
      ((w.loader.cache.get? path).filter (·.src = src)).map LoadedModule.detached := by
    rw [World.loader_detached, Loader.detached, Table.get?_mapValues, Option.filter_map]
    rfl
  rw [World.files_detached]
  cases w.files.read path with
  | error fault => exact .pure rfl
  | ok src =>
    dsimp only
    rw [hcache]
    cases (w.loader.cache.get? path).filter (·.src = src) with
    | some loaded => exact (Run.detaches_log _ _ _).bind fun _ => .pure rfl
    | none =>
      refine (Run.detaches_log _ _ _).bind fun _ =>
        (detaches_parseFile h path src).bind fun parsed => ?_
      cases parsed with
      | error file => exact .pure rfl
      | ok p => exact detaches_evaluateModule h path src p

/-- An import gives the same value up to offsets. -/
theorem detaches_load (h : host.Detaches host') (name : Bytes) :
    Run.Detaches Value.detached (load host name) (load host' name) := by
  refine .read fun w => ?_
  have hresolve : resolve host' w.detached.files w.detached.loader.stack name =
      resolve host w.files w.loader.stack name := by
    rw [resolve_eq_of_detaches h]
    rfl
  rw [hresolve]
  cases resolve host w.files w.loader.stack name with
  | error fault => exact .pure rfl
  | ok path =>
    dsimp only
    by_cases hloading : w.loader.loading.elem path = true
    · have hloading' : w.detached.loader.loading.elem path = true := hloading
      rw [if_pos hloading, if_pos hloading']
      exact .pure rfl
    · have hloading' : ¬w.detached.loader.loading.elem path = true := hloading
      rw [if_neg hloading, if_neg hloading']
      exact detaches_loadPath h path

/-- The builtin for imports gives the same value up to offsets. -/
theorem detaches_builtin (h : host.Detaches host') : (args : List Value) →
    Run.Detaches (Option.map Value.detached) (builtin.run host args)
      (builtin.run host' (args.map Value.detached))
  | [] => .pure rfl
  | [v] => by
    cases v with
    | string name =>
      show Run.Detaches _ (some <$> load host name) (some <$> load host' name)
      rw [map_eq_pure_bind, map_eq_pure_bind]
      exact (detaches_load h name).bind fun _ => .pure rfl
    | _ => exact .pure rfl
  | v :: v' :: vs => by
    cases v <;> exact .pure (congrArg some (Builtin.wrongCount_detached _ (_ :: v' :: vs)))

end Import

/-! ## Evaluation -/

/-- A node without its source. -/
def Node.detached : Node → Node
  | program p => program p.detached
  | block b => block b.detached
  | stmt s => stmt s.detached
  | expr e => expr e.detached

/-- A node has its offsets removed once and for all. -/
theorem Node.detached_detached (node : Node) : node.detached.detached = node.detached := by
  cases node <;> simp [detached, Program.detached_detached]

/-- The label of a node does not depend on offsets. -/
theorem Node.label_detached (node : Node) : node.detached.label = node.label := by
  cases node with
  | stmt s => cases s <;> rfl
  | expr e => cases e <;> rfl
  | _ => rfl

/-- The second evaluator does what the first does, but for sources, and it does not look at those of
its nodes. -/
structure Evaluator.Detaches (e e' : Evaluator) : Prop where
  run : ∀ node scope, Run.Detaches Value.detached (e node scope) (e' node scope)
  blind : ∀ node, e' node.detached = e' node

namespace Interpreter

variable {it : Interpreter} {self self' : Evaluator} {scope : ScopeId}

/-- Parameters are bound to the same arguments up to offsets. -/
theorem detaches_bindAll (scope : ScopeId) : (parameters : List Name) → (args : List Value) →
    Run.Detaches id (bindAll scope parameters args)
      (bindAll scope (parameters.map Name.detached) (args.map Value.detached))
  | [], _ => .pure rfl
  | _ :: _, [] => .pure rfl
  | p :: ps, v :: vs =>
    (Run.detaches_create scope p.text v).bind fun _ => detaches_bindAll scope ps vs

/-- The result of a call does not depend on offsets. -/
theorem callResult_detached (v : Value) : callResult v.detached = (callResult v).detached := by
  cases v <;> rfl

/-- A name is evaluated in the same way. -/
theorem detaches_evalName (it : Interpreter) (scope : ScopeId) (name : Bytes) :
    Run.Detaches Value.detached (it.evalName scope name) (it.evalName scope name) := by
  rw [evalName]
  split
  · exact .pure rfl
  · refine (Run.detaches_get? scope name).bind fun found => ?_
    cases found <;> exact .pure rfl

/-- The next round of a loop gives the same value up to offsets, if the round does. -/
theorem detaches_nextRound (outer : ScopeId) (counter : Bytes) (scope : ScopeId)
    {round round' : ScopeId → Run Value}
    (h : ∀ next, Run.Detaches Value.detached (round next) (round' next)) :
    Run.Detaches Value.detached (nextRound outer counter scope round)
      (nextRound outer counter scope round') := by
  refine (Run.detaches_get? scope counter).bind fun found => ?_
  cases found with
  | none => exact .pure rfl
  | some value =>
    refine (Run.detaches_scope (some outer)).bind fun next => ?_
    exact (Run.detaches_create next counter value).bind fun _ => h next

section Parts

variable (hself : self.Detaches self')

include hself

/-- The parts of a detached tree are detached. -/
theorem detaches_part (node : Node) (scope : ScopeId) :
    Run.Detaches Value.detached (self node scope) (self' node.detached scope) := by
  rw [hself.blind]
  exact hself.run node scope

/-- The hosts of two evaluators are the same up to offsets if the evaluators are. -/
theorem detaches_host (it : Interpreter) : (it.host self).Detaches (it.host self') :=
  ⟨rfl, rfl, rfl, rfl, fun p => hself.run (.program p)⟩

/-! ### Statements -/

/-- The statements of a program give the same value up to offsets. -/
theorem detaches_evalProgram (result : Value) (statements : List Stmt) :
    Run.Detaches Value.detached (evalProgram self scope result statements)
      (evalProgram self' scope result.detached (detachedStatements statements)) := by
  induction statements generalizing result with
  | nil => exact .pure rfl
  | cons s ss ih =>
    refine (detaches_part hself (.stmt s) scope).bind fun v => ?_
    cases v with
    | returned | error => exact .pure rfl
    | _ => exact ih _

/-- The statements of a block give the same value up to offsets. -/
theorem detaches_evalBlock (result : Value) (statements : List Stmt) :
    Run.Detaches Value.detached (evalBlock self scope result statements)
      (evalBlock self' scope result.detached (detachedStatements statements)) := by
  induction statements generalizing result with
  | nil => exact .pure rfl
  | cons s ss ih =>
    refine (detaches_part hself (.stmt s) scope).bind fun v => ?_
    cases v with
    | returned | error | broken => exact .pure rfl
    | _ => exact ih _

/-- A statement gives the same value up to offsets. -/
theorem detaches_evalStmt (s : Stmt) :
    Run.Detaches Value.detached (evalStmt self scope s) (evalStmt self' scope s.detached) := by
  cases s with
  | binding _ name value =>
    refine (detaches_part hself (.expr value) scope).bind fun v => ?_
    cases v with
    | error => exact .pure rfl
    | _ => exact (Run.detaches_create scope name.text _).bind fun _ => .pure rfl
  | returned _ value =>
    refine (detaches_part hself (.expr value) scope).bind fun v => ?_
    cases v with
    | error => exact .pure rfl
    | _ => exact Run.detaches_stamp.bind fun _ => .pure rfl
  | broken => exact .pure rfl
  | expression _ value => exact detaches_part hself (.expr value) scope

/-! ### Expressions in a row -/

/-- Expressions in a row give the same values up to offsets. -/
theorem detaches_evalAll (es : List Expr) :
    Run.Detaches (Except.map (List.map Value.detached)) (evalAll self scope es)
      (evalAll self' scope (detachedAll es)) := by
  induction es with
  | nil => exact .pure rfl
  | cons e es ih =>
    refine (detaches_part hself (.expr e) scope).bind fun v => ?_
    cases v with
    | error => exact .pure rfl
    | _ =>
      refine ih.bind fun r => ?_
      cases r <;> exact .pure rfl

/-- The pairs of a hash give the same hash up to offsets. -/
theorem detaches_evalPairs (entries : Entries) (pairs : List (Expr × Expr)) :
    Run.Detaches Value.detached (evalPairs self scope entries pairs)
      (evalPairs self' scope entries.detached (detachedPairs pairs)) := by
  induction pairs generalizing entries with
  | nil => exact Run.detaches_hash rfl
  | cons pair pairs ih =>
    have hrest (filed : Key) (key value : Value) :
        Run.Detaches Value.detached
          (evalPairs self scope (Entries.insert filed key value entries) pairs)
          (evalPairs self' scope (Entries.insert filed key.detached value.detached entries.detached)
            (detachedPairs pairs)) := by
      rw [Entries.insert_detached]
      exact ih _
    refine (detaches_part hself (.expr pair.1) scope).bind fun key => ?_
    cases key with
    -- These are the values that can be keys.
    | integer | float | double | boolean | string =>
      refine (detaches_part hself (.expr pair.2) scope).bind fun value => ?_
      cases value with
      | error => exact .pure rfl
      | _ => exact hrest _ _ _
    | _ => exact .pure rfl

/-! ### Branches and loops -/

/-- The branches of a conditional give the same value up to offsets. -/
theorem detaches_evalElifs (alternative : Option Block) (elifs : List (Expr × Block)) :
    Run.Detaches Value.detached (evalElifs self scope alternative elifs)
      (evalElifs self' scope (detachedAlternative alternative) (detachedElifs elifs)) := by
  induction elifs with
  | nil =>
    cases alternative with
    | none => exact .pure rfl
    | some b => exact detaches_part hself (.block b) scope
  | cons elif elifs ih =>
    -- Both runs take the same branch, as truth does not depend on offsets.
    have hbranch (v : Value) : Run.Detaches Value.detached
        (if v.isTruthy then self (.block elif.2) scope else evalElifs self scope alternative elifs)
        (if v.detached.isTruthy then self' (.block elif.2.detached) scope
          else evalElifs self' scope (detachedAlternative alternative) (detachedElifs elifs)) := by
      rw [Value.isTruthy_detached]
      split
      · exact detaches_part hself (.block elif.2) scope
      · exact ih
    refine (detaches_part hself (.expr elif.1) scope).bind fun v => ?_
    cases v with
    | error => exact .pure rfl
    | _ => exact hbranch _

/-- The rounds of a loop give the same value up to offsets. -/
theorem detaches_evalRounds (outer : ScopeId) (counter : Bytes) (condition : Expr) (step : Stmt)
    (body : Block) (rounds : Nat) (scope : ScopeId) :
    Run.Detaches Value.detached (evalRounds self outer counter condition step body rounds scope)
      (evalRounds self' outer counter condition.detached step.detached body.detached
        rounds scope) := by
  induction rounds generalizing scope with
  | zero => exact fun _ => rfl
  | succ rounds ih =>
    refine (detaches_part hself (.expr condition) scope).bind fun v => ?_
    cases v with
    | boolean b =>
      cases b with
      | false => exact .pure rfl
      | true =>
        refine (detaches_part hself (.block body) scope).bind fun v => ?_
        cases v with
        | error | returned | broken => exact .pure rfl
        | _ =>
          refine (detaches_part hself (.stmt step) scope).bind fun v => ?_
          cases v with
          | error => exact .pure rfl
          | _ => exact detaches_nextRound outer counter scope ih
    | _ => exact .pure rfl

/-! ### Names and calls -/

/-- An assignment gives the same value up to offsets. -/
theorem detaches_evalAssignment (op : InfixOp) (left right : Expr) :
    Run.Detaches Value.detached (evalAssignment self scope op left right)
      (evalAssignment self' scope op left.detached right.detached) := by
  have hassign (name : Bytes) (v : Value) : Run.Detaches Value.detached
      (do Run.assign scope name v; return v)
        (do Run.assign scope name v.detached; return v.detached) :=
    (Run.detaches_assign scope name v).bind fun _ => .pure rfl
  cases left with
  | ident name =>
    refine (detaches_part hself (.expr right) scope).bind fun v => ?_
    cases v with
    | error => exact .pure rfl
    | _ =>
      dsimp only
      split
      · exact hassign name.text _
      · refine (Run.detaches_get? scope name.text).bind fun found => ?_
        cases found with
        | none => exact .pure rfl
        | some current =>
          dsimp only [Option.map_some]
          rw [Value.compound_detached]
          -- Nothing is needed of the compound but that it is the same up to offsets.
          generalize Value.compound op current _ = result
          cases result with
          | error => exact .pure rfl
          | _ => exact hassign name.text _
  | _ => exact .pure (by simp)

/-- A call gives the same value up to offsets of the function and its arguments. -/
theorem detaches_apply (hit : it.registry = standard) (function : Value) (args : List Value) :
    Run.Detaches Value.detached (it.apply self function args)
      (it.apply self' function.detached (args.map Value.detached)) := by
  cases function with
  | function stamp parameters body outer =>
    simp only [apply, Value.detached, List.length_map]
    split
    · exact .pure rfl
    · refine (Run.detaches_scope (some outer)).bind fun scope => ?_
      refine (detaches_bindAll scope parameters args).bind fun r => ?_
      cases r with
      | error fault => exact .pure rfl
      | ok =>
        exact (detaches_part hself (.block body) scope).bind fun v => .pure (callResult_detached v)
  | builtin name =>
    simp only [apply, Value.detached, List.length_map]
    refine (Run.detaches_log _ _ _).bind fun _ => ?_
    cases hlookup : it.registry.lookup name with
    | none => exact .pure rfl
    | some b =>
      have hrun : Run.Detaches (Option.map Value.detached) (b.run (it.host self) args)
          (b.run (it.host self') (args.map Value.detached)) := by
        -- All builtins but one take no part in evaluation. Imports do, and evaluate with `self`.
        rcases detaches_of_lookup (hit ▸ hlookup) with hb | rfl
        · exact hb _ _ args
        · exact Import.detaches_builtin (detaches_host hself it) args
      refine hrun.bind fun result => .pure ?_
      cases result <;> rfl
  | _ => exact .pure rfl

/-- A member of a module gives the same value up to offsets. -/
theorem detaches_evalMember (hit : it.registry = standard) (left right : Expr) :
    Run.Detaches Value.detached (it.evalMember self scope left right)
      (it.evalMember self' scope left.detached right.detached) := by
  refine (detaches_part hself (.expr left) scope).bind fun v => ?_
  cases v with
  | module name path inner =>
    -- The fault shows the member in its canonical form, in which no source appears.
    have hform : Run.Detaches Value.detached (return .error (.memberForm right.render))
        (return .error (.memberForm right.detached.render)) := .pure (by simp)
    cases right with
    | ident name =>
      refine (Run.detaches_get? inner name.text).bind fun found => .pure ?_
      cases found <;> rfl
    | call _ callee arguments =>
      cases callee with
      | ident name =>
        refine (Run.detaches_get? inner name.text).bind fun found => ?_
        cases found with
        | none => exact .pure rfl
        | some function =>
          refine (detaches_evalAll hself arguments).bind fun r => ?_
          cases r with
          | error => exact .pure rfl
          | ok args => exact detaches_apply hself hit function args
      | _ => exact hform
    | _ => exact hform
  | _ => exact .pure rfl

/-! ### Nodes -/

/-- An operation with two operands gives the same value up to offsets. -/
theorem detaches_evalInfixed (hit : it.registry = standard) (rounds : Nat) (pos : Nat)
    (op : InfixOp) (left right : Expr) :
    Run.Detaches Value.detached (it.evalExpr rounds self scope (.infixed pos op left right))
      (it.evalExpr rounds self' scope (.infixed 0 op left.detached right.detached)) := by
  have hoperands (op : InfixOp) (a b : Value) :
      Run.Detaches Value.detached (return Value.infixed op a b)
        (return Value.infixed op a.detached b.detached) :=
    .pure (Value.infixed_detached op a b)
  cases op with
  | assign | addAssign | subAssign | mulAssign | divAssign =>
    exact detaches_evalAssignment hself _ left right
  | member => exact detaches_evalMember hself hit left right
  | _ =>
    refine (detaches_part hself (.expr left) scope).bind fun a => ?_
    cases a with
    | error => exact .pure rfl
    | _ =>
      refine (detaches_part hself (.expr right) scope).bind fun b => ?_
      cases b with
      | error => exact .pure rfl
      | _ => exact hoperands _ _ _

/-- An expression gives the same value up to offsets. -/
theorem detaches_evalExpr (hit : it.registry = standard) (rounds : Nat) (e : Expr) :
    Run.Detaches Value.detached (it.evalExpr rounds self scope e)
      (it.evalExpr rounds self' scope e.detached) := by
  cases e with
  | missing | integer | float | double | boolean | string => exact .pure rfl
  | ident name => exact detaches_evalName it scope name.text
  | array _ elements =>
    refine (detaches_evalAll hself elements).bind fun r => ?_
    cases r with
    | error => exact .pure rfl
    | ok vs => exact Run.detaches_array rfl
  | hash _ pairs => exact detaches_evalPairs hself .empty pairs
  | prefixed _ op operand =>
    -- Stated for any value, so that the case split below does not have to compute what it gives.
    have hoperand (v : Value) :
        Run.Detaches Value.detached (return Value.prefixed op v)
          (return Value.prefixed op v.detached) :=
      .pure (Value.prefixed_detached op v)
    refine (detaches_part hself (.expr operand) scope).bind fun v => ?_
    cases v with
    | error => exact .pure rfl
    | _ => exact hoperand _
  | infixed pos op left right => exact detaches_evalInfixed hself hit rounds pos op left right
  | index _ collection key =>
    have hindex (c k : Value) :
        Run.Detaches Value.detached (return Value.index c k)
          (return Value.index c.detached k.detached) :=
      .pure (Value.index_detached c k)
    refine (detaches_part hself (.expr collection) scope).bind fun c => ?_
    cases c with
    | error => exact .pure rfl
    | _ =>
      refine (detaches_part hself (.expr key) scope).bind fun k => ?_
      cases k with
      | error => exact .pure rfl
      | _ => exact hindex _ _
  | call _ callee arguments =>
    refine (detaches_part hself (.expr callee) scope).bind fun f => ?_
    cases f with
    | error => exact .pure rfl
    | _ =>
      refine (detaches_evalAll hself arguments).bind fun r => ?_
      cases r with
      | error => exact .pure rfl
      | ok args => exact detaches_apply hself hit _ args
  | function => exact Run.detaches_stamp.bind fun _ => .pure rfl
  | conditional _ condition consequence elifs alternative =>
    exact detaches_evalElifs hself alternative ((condition, consequence) :: elifs)
  | loop _ letPos counter start condition step body =>
    refine (Run.detaches_scope (some scope)).bind fun inner => ?_
    refine (detaches_part hself (.stmt (.binding letPos counter start)) inner).bind fun v => ?_
    cases v with
    | error => exact .pure rfl
    | _ => exact detaches_evalRounds hself scope counter.text condition step body rounds inner

/-- A node does what it does without its source. -/
theorem detaches_evalNode (hit : it.registry = standard) (rounds : Nat) (node : Node)
    (scope : ScopeId) :
    Run.Detaches Value.detached (it.evalNode rounds self node scope)
      (it.evalNode rounds self' node.detached scope) := by
  -- The record names the kind of the node only.
  have hlog : Run.Detaches id (Run.log .trace "eval" [("node", .word node.label)])
      (Run.log .trace "eval" [("node", .word node.detached.label)]) := by
    rw [Node.label_detached]
    exact Run.detaches_log _ _ _
  refine hlog.bind fun _ => ?_
  cases node with
  | program p => exact detaches_evalProgram hself .null p.statements
  | block b =>
    dsimp only [Node.detached]
    rw [Block.statements_detached]
    exact detaches_evalBlock hself .null b.statements
  | stmt s => exact detaches_evalStmt hself s
  | expr e => exact detaches_evalExpr hself hit rounds e

end Parts

/-- Evaluates a node, but detaches it and all its parts before it looks at them. -/
def evalDetached (it : Interpreter) : Nat → Evaluator
  | 0, _, _ => fun _ => none
  | bound + 1, node, scope => it.evalNode bound (it.evalDetached bound) node.detached scope

/-- Every evaluation does what it does without sources. -/
theorem detaches_eval (hit : it.registry = standard) (bound : Nat) :
    (it.eval bound).Detaches (it.evalDetached bound) := by
  induction bound with
  | zero => exact ⟨fun _ _ _ => rfl, fun _ => rfl⟩
  | succ bound ih =>
    -- The second evaluator detaches its node first, so a node that is detached already makes no
    -- difference.
    refine ⟨detaches_evalNode ih hit bound, fun node => ?_⟩
    funext scope
    rw [evalDetached, evalDetached, Node.detached_detached]

/-- The result of an evaluation and the world after it, without sources. -/
def outcome (it : Interpreter) (bound : Nat) (node : Node) (scope : ScopeId) (w : World) :
    Option (Value × World) :=
  (it.eval bound node scope w).map (Prod.map Value.detached World.detached)

/-- Nodes that are the same without their sources have the same outcome, in worlds that are the same
without sources. -/
theorem outcome_eq_of_detached (hit : it.registry = standard) {node node' : Node}
    (hnode : node.detached = node'.detached) (bound : Nat) (scope : ScopeId) {w w' : World}
    (hw : w.detached = w'.detached) :
    it.outcome bound node scope w = it.outcome bound node' scope w' := by
  have heval := detaches_eval hit bound
  calc it.outcome bound node scope w
    _ = it.evalDetached bound node scope w.detached := (heval.run node scope w).symm
    _ = it.evalDetached bound node' scope w'.detached := by
      rw [← heval.blind node, hnode, heval.blind node', hw]
    _ = it.outcome bound node' scope w' := heval.run node' scope w'

/-- What a user sees of an evaluation: the text of the result, if it has one, and all that was
printed. -/
def shown (it : Interpreter) (bound : Nat) (node : Node) (scope : ScopeId) (w : World) :
    Option (Option Bytes × Bytes) :=
  (it.eval bound node scope w).map fun r => (r.2.scopes.inspect r.1, r.2.output)

/-- What is seen of an evaluation does not depend on sources. -/
theorem shown_eq_map_outcome (it : Interpreter) (bound : Nat) (node : Node)
    (scope : ScopeId) (w : World) :
    it.shown bound node scope w =
      (it.outcome bound node scope w).map fun r => (r.2.scopes.inspect r.1, r.2.output) := by
  rw [shown, outcome, Option.map_map]
  congr 1
  funext r
  show _ = (r.2.scopes.detached.inspect r.1.detached, r.2.output)
  rw [Scopes.inspect_detached]

end Interpreter

end Rill
