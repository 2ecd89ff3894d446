import Rill.Proofs.Run.Bindings
import Rill.Proofs.Run.Call
import Rill.Proofs.Session.Reachable

/-!
# Errors abort

A runtime error is a value like any other, and every place that evaluates something has to look out
for one. This module shows that they all do: an error ends the whole run at once, and none is ever
bound, stored or passed on.

* `World.ErrorFree`: no error can be got at from any scope or from the modules that were loaded.
* `Discipline.clean`: errors come up only as results.
* `Interpreter.Returns`: what the evaluations give that a node consists of, its calls, builtins and
  imports among them.
* `Interpreter.throughout_errorsAbortAt`: at every point of a run no error is in reach, and one that
  is returned is the result of the whole run, after which nothing more happened.
-/

namespace Rill

/-- A value that neither is nor holds an error. -/
abbrev Value.Clean : Value → Prop := Value.Each (·.isError = false)

theorem Value.Clean.isError_eq_false {v : Value} (h : v.Clean) : v.isError = false := by
  cases h with
  | leaf _ h => exact h
  | _ => rfl

namespace World

/-- No error can be got at from the roots. -/
def ErrorFreeFrom (w : World) (roots : Item → Prop) : Prop :=
  ∀ v, w.Reaches roots (.value v) → v.isError = false

/-- No error can be got at from any scope or from the modules that were loaded. -/
def ErrorFree (w : World) : Prop :=
  w.ErrorFreeFrom fun i => (∃ s, i = .scope s) ∨
    ∃ path loaded, w.loader.cache.get? path = some loaded ∧ i = .value loaded.module

variable {w : World}

/-- What can be got at holds no error, if none can be got at. -/
theorem ErrorFreeFrom.clean {roots : Item → Prop} (hfree : w.ErrorFreeFrom roots) {v : Value}
    (h : w.Reaches roots (.value v)) : v.Clean := by
  induction v using Value.partsInduction with
  | leaf v hleaf => exact .leaf hleaf (hfree v h)
  | array stamp elements ih => exact .array fun v hv => ih v hv (h.element hv)
  | hash stamp entries ih =>
    exact .hash (fun e he => (ih e he).1 (h.key he)) fun e he => (ih e he).2 (h.entry he)
  | module => exact .module rfl
  | function => exact .function rfl
  | returned stamp v ih => exact .returned (ih h.carried)
  | broken => exact .broken rfl

/-- Nothing that can be reached from clean roots is an error where all that is held is clean. -/
theorem Holding.errorFreeFrom (hw : w.Holding Value.Clean) {roots : Item → Prop}
    (hroots : ∀ v, roots (.value v) → v.Clean) : w.ErrorFreeFrom roots :=
  fun _ hv => Value.Clean.isError_eq_false (hw.each_of_reaches hroots hv)

/-- All scopes count, so it is enough to look at what is bound in them. -/
theorem errorFree_iff : w.ErrorFree ↔ w.Holding Value.Clean := by
  constructor
  · intro hfree
    refine ⟨fun s name v hv => ?_, fun s name v hv => ?_, fun path loaded hloaded => ?_⟩
    · exact hfree.clean (.stored (.root (.inl ⟨s, rfl⟩)) hv)
    · exact hfree.clean (.owned (.root (.inl ⟨s, rfl⟩)) hv)
    · exact hfree.clean (.root (.inr ⟨path, loaded, hloaded, rfl⟩))
  · intro hw
    refine hw.errorFreeFrom ?_
    rintro v (⟨s, ⟨⟩⟩ | ⟨path, loaded, hloaded, ⟨⟩⟩)
    exact hw.cached path loaded hloaded

end World

/-- No error is bound or remembered, and none comes up but as the result of an evaluation. -/
def Discipline.clean : Discipline where
  Strict := False
  Holds w := w.Holding Value.Clean
  Open _ _ := True
  Allows _ v := v.Clean
  Leads _ _ _ := True
  Permits _ _ _ := True
  Takes _ _ _ := True
  leads_refl _ _ := trivial
  leads_trans _ _ := trivial
  open_of_leads _ _ := trivial
  allows_of_leads _ hv := hv
  lasts_of_leads h _ := lasts_of_false h
  complete_of_parse := complete_of_false
  hereditary _ := Value.Each.hereditary fun _ _ h => h
  allows_broken := .broken rfl
  allows_returned := Value.Each.returned_iff
  allows_module := ⟨fun _ => trivial, fun _ => .module rfl⟩
  allows_function := ⟨fun _ => ⟨trivial, False.elim⟩, fun _ => .function rfl⟩
  allows_get? hw _ hv := hw.get? hv
  allows_cached hw h := hw.cached _ _ h
  permits_of_get? _ _ _ := trivial
  takes_of_isPlain _ := trivial
  takes_fresh _ _ := trivial
  takes_create _ _ := trivial
  quiet _ hw hscopes hloader := ⟨hw.congr hscopes (congrArg Loader.cache hloader), trivial⟩
  fresh hw _ := ⟨hw.fresh _, trivial, fun _ _ _ => trivial⟩
  create _ hw _ hv _ := ⟨hw.create hv, trivial⟩
  assign hw _ hv _ _ := ⟨hw.assign hv, trivial⟩
  within hw _ := ⟨hw.congr rfl rfl, fun _ _ hw' _ => ⟨hw'.congr rfl rfl, trivial⟩⟩
  remember _ _ hw hmodule := ⟨hw.remember hmodule, trivial⟩

instance : Discipline.Lenient .clean := ⟨trivial⟩

namespace Interpreter

/-! ## One point of a run -/

/-- What an evaluation gives that the evaluation of a node consists of: the node itself, the call
that it makes, the builtin that is called, and the import that this builtin makes. -/
inductive Returns (it : Interpreter) (bound : Nat) (scope : ScopeId) (w : World) :
    Node → Value → World → Prop where
  | node {node : Node} {v : Value} {w' : World}
      (h : it.eval (bound + 1) node scope w = some (v, w')) :
      Returns it bound scope w node v w'
  | call {e : Expr} {f v : Value} {args : List Value} {w₁ u w' : World}
      (hlog : announce (.expr e) w = some ((), w₁))
        (hcall : CallOf (it.eval bound) scope w₁ e f args u)
      (happly : it.apply (it.eval bound) f args u = some (v, w')) :
        Returns it bound scope w (.expr e) v w'
  | builtin {e : Expr} {name : Bytes} {b : Builtin} {v : Value} {args : List Value}
      {w₁ u u₁ w' : World} (hlog : announce (.expr e) w = some ((), w₁))
      (hcall : CallOf (it.eval bound) scope w₁ e (.builtin name) args u)
      (hlog' : announceBuiltin name args u = some ((), u₁))
      (hb : it.registry.lookup name = some b)
      (hrun : b.run (it.host (it.eval bound)) args u₁ = some (some v, w')) :
      Returns it bound scope w (.expr e) v w'
  | load {e : Expr} {name file : Bytes} {v : Value} {w₁ u u₁ w' : World}
      (hlog : announce (.expr e) w = some ((), w₁))
      (hcall : CallOf (it.eval bound) scope w₁ e (.builtin name) [.string file] u)
      (hlog' : announceBuiltin name [.string file] u = some ((), u₁))
      (hb : it.registry.lookup name = some Import.builtin)
      (hload : Import.load (it.host (it.eval bound)) file u₁ = some (v, w')) :
      Returns it bound scope w (.expr e) v w'

variable {it : Interpreter} {bound : Nat} {node : Node} {scope : ScopeId} {w w' : World} {v : Value}

/-- What a call, a builtin or an import gives is what the node gives. -/
theorem Returns.eval_eq (h : it.Returns bound scope w node v w') :
    it.eval (bound + 1) node scope w = some (v, w') := by
  cases h with
  | node h => exact h
  | call hlog hcall happly =>
    rw [eval, evalNode_of_announce hlog]
    exact (evalExpr_of_callOf hcall).trans happly
  | builtin hlog hcall hlog' hb hrun =>
    rw [eval, evalNode_of_announce hlog]
    refine (evalExpr_of_callOf hcall).trans ?_
    rw [apply_builtin hlog' hb, Run.bind_apply, hrun]
    rfl
  | load hlog hcall hlog' hb hload =>
    rw [eval, evalNode_of_announce hlog]
    refine (evalExpr_of_callOf hcall).trans ?_
    rw [apply_builtin hlog' hb, Run.bind_apply]
    -- An import is the one builtin whose result is that of an evaluation.
    change ((some <$> Import.load _ _ : Run (Option Value)) _).bind _ = _
    rw [map_eq_pure_bind, Run.bind_apply, hload]
    rfl

/-- Around the evaluation of a node, in a run that gives `whole`, errors abort and are nowhere
stored. -/
structure ErrorsAbortAt (it : Interpreter) (whole : Option (Value × World)) (bound : Nat)
    (_parts : Evaluator) (node : Node) (scope : ScopeId) (w : World) : Prop where
  /-- Before it, no error is bound or stored anywhere. -/
  before : w.ErrorFree
  /-- No error is passed as an argument, also not inside of one. -/
  passed : ∀ e w₁ f args u, node = .expr e → announce node w = some ((), w₁) →
    CallOf (it.eval bound) scope w₁ e f args u → ∀ v ∈ args, u.ErrorFreeFrom (· = .value v)
  /-- After it, no error is bound or stored anywhere. -/
  after : ∀ v w', it.eval (bound + 1) node scope w = some (v, w') → w'.ErrorFree
  /-- The result holds no error, unless it is one. -/
  result : ∀ v w', it.eval (bound + 1) node scope w = some (v, w') → v.isError = false →
    w'.ErrorFreeFrom (· = .value v)
  /-- An error that is returned is what the whole run gives, and after it nothing happened but that
  files were taken off the stack. -/
  aborts : ∀ fault w₁, it.Returns bound scope w node (.error fault) w₁ →
    ∃ w', whole = some (.error fault, w') ∧ w₁.Frozen w'

open Classical in
noncomputable instance (whole : Option (Value × World)) (bound : Nat)
    (parts : Evaluator) (node : Node) (scope : ScopeId) (w : World) :
    Decidable (it.ErrorsAbortAt whole bound parts node scope w) :=
  inferInstance

/-! ## The whole run -/

/-- An error is not what the whole run gives, or something happened after it. -/
def Lost (whole : Option (Value × World)) (fault : Fault) (w : World) : Prop :=
  ¬ ∃ w', whole = some (.error fault, w') ∧ w.Frozen w'

/-- A lost fault stays lost while files are taken off the stack. -/
theorem Lost.of_frozen {whole : Option (Value × World)} {fault : Fault} (hfrozen : w.Frozen w')
    (h : Lost whole fault w) : Lost whole fault w' := by
  rintro ⟨w'', hwhole, hfrozen'⟩
  exact h ⟨w'', hwhole, hfrozen.trans hfrozen'⟩

section

variable (hit : it.registry = standard)

include hit

/-- In a clean world only the way of an error can go wrong at a point, and then the error is
lost. -/
theorem errorsAbortAt_or_lost (hw : w.Holding Value.Clean)
    (whole : Option (Value × World)) (bound : Nat) (parts : Evaluator) (node : Node)
    (scope : ScopeId) :
    it.ErrorsAbortAt whole bound parts node scope w ∨
      ∃ fault w', it.eval (bound + 1) node scope w = some (.error fault, w') ∧
        Lost whole fault w' := by
  have htogether : ∀ bound, Together .clean .never (it.eval bound) (it.eval bound) :=
    together_eval hit fun _ _ _ => trivial
  have hkeeps := ((htogether (bound + 1)).part node (.of_lax id) hw trivial).keeps (s := scope)
  by_cases hlost : ∃ fault w₁, it.Returns bound scope w node (.error fault) w₁ ∧ Lost whole fault w₁
  · -- Whichever part of the node gave the error, the node itself gives it.
    obtain ⟨fault, w₁, hreturns, hlost⟩ := hlost
    exact .inr ⟨fault, w₁, hreturns.eval_eq, hlost⟩
  · refine .inl ⟨World.errorFree_iff.mpr hw, ?_, ?_, ?_, ?_⟩
    · rintro e w₁ f args u - hlog hcall v hv
      obtain ⟨hscopes, hloader, -⟩ := Run.quiet_log _ _ _ _ _ _ hlog
      have hw₁ : w₁.Holding Value.Clean := hw.congr hscopes (congrArg Loader.cache hloader)
      obtain ⟨hu, -, -, hargs⟩ := hcall.keeps (htogether bound) (.of_lax id) hw₁ trivial
      refine hu.errorFreeFrom ?_
      rintro _ ⟨⟩
      exact hargs v hv
    · intro v w' hrun
      exact World.errorFree_iff.mpr (hkeeps v w' hrun).1
    · intro v w' hrun herror
      obtain ⟨hw', -, hv⟩ := hkeeps v w' hrun
      refine hw'.errorFreeFrom ?_
      rintro _ ⟨⟩
      exact hv.allows herror
    · intro fault w₁ hreturns
      exact Classical.byContradiction fun h => hlost ⟨fault, w₁, hreturns, h⟩

end

/-- From a world without errors, every error aborts the run of a program, and none is ever
stored. -/
theorem throughout_errorsAbortAt (it : Interpreter) (hit : it.registry = standard) (p : Program)
    (bound : Nat) (scope : ScopeId) (w : World) (hfree : w.ErrorFree) :
    it.Throughout (it.ErrorsAbortAt (it.eval bound (.program p) scope w)) bound
      (.program p) scope w := by
  intro fault
  -- The watched run parts from the run only where an error of the run is lost.
  have htogether :
    Together .clean (.failing fault (Lost (it.eval bound (.program p) scope w)) Lost.of_frozen)
      (it.watch (it.ErrorsAbortAt (it.eval bound (.program p) scope w)) fault bound)
        (it.eval bound) := by
    refine together_watch hit (fun _ _ _ => trivial) ?_ bound
    intro bound node scope w _ hw _
    exact (errorsAbortAt_or_lost hit hw _ _ _ _ _).imp_right fun h => ⟨⟨w, rfl⟩, h⟩
  rcases htogether (.program p) (.of_lax id)
    (World.errorFree_iff.mp hfree) trivial with ⟨heq, -⟩ | ⟨-, hlost⟩
  · exact heq
  · -- The error that ends the run itself is not lost.
    obtain ⟨fault', w', hrun, hlost⟩ := hlost
    exact absurd ⟨w', hrun, .refl w'⟩ hlost

/-- At the start there is no error anywhere. -/
theorem errorFree_start (files : Files) (journal : Journal) :
    (World.start files journal).ErrorFree :=
  World.errorFree_iff.mpr (World.holding_start files journal _)

/-- A function that fails while an array is made of its result. -/
def divided : Bytes := text "let f = fn(a) { return a / 0; }; let y = [f(1)]; puts(y);"

/-- A program that divides by zero ends there. -/
theorem throughout_divided :
    (parse divided).diagnostics = [] ∧ plainWorld.ErrorFree ∧
      plain.Throughout (plain.ErrorsAbortAt
        (plain.eval 30 (.program (parse divided).program) World.globalScope plainWorld)) 30
        (.program (parse divided).program) World.globalScope plainWorld ∧
      (plain.eval 30 (.program (parse divided).program) World.globalScope plainWorld).map
        (fun result => (result.1.isError, result.2.scopes.names World.globalScope,
          result.2.output)) =
        some (true, [text "f"], []) :=
  ⟨by decide +kernel, errorFree_start _ _,
    throughout_errorsAbortAt plain rfl _ 30 World.globalScope plainWorld (errorFree_start _ _),
    by decide +kernel⟩

end Interpreter

end Rill
