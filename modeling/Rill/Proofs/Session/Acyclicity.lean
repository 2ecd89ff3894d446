import Rill.Proofs.Import.Cache
import Rill.Proofs.Run.Call
import Rill.Proofs.Session.Confinement
import Rill.Proofs.Value.Finite

/-!
# Values without cycles

A module stays open to its own functions, which may assign to its names whatever they are given. So
a value can be put into the scope of a module that it encloses, and from then on the module contains
itself. This module shows that there is no other way to a cycle: neither calls, loops and imports
nor the builtins make one.

* `Discipline.unknotted`: scopes take only values that do not enclose a module of them.
* `Interpreter.ClosesAt`: the bindings and assignments that close a cycle.
* `Interpreter.FiniteAt`: around a node every value within reach is finite.
* `Interpreter.throughout_finiteAt_iff`: the values of a run are finite, from the first point to the
  last, exactly if no node of it closes a cycle. Then every value has a text afterwards.
* `Interpreter.not_finite_keeping`: a run that is not like this.
-/

namespace Rill

/-! ## Worlds -/

/-- The world is sound, and all values are finite in it. -/
structure World.Unknotted (w : World) : Prop where
  sound : w.Sound
  finite : ∀ v, w.scopes.Finite v

namespace Scopes

variable {scopes : Scopes} {size : Nat} {v part : Value} {o : ScopeId}

/-- What leads to the first scopes only contains nothing that leads elsewhere, if nothing is owned
that does. -/
theorem Contains.within (howned : ∀ s n u, scopes.owned? n s = some u → u.Within size)
    (h : scopes.Contains v part) (hv : v.Within size) : part.Within size := by
  cases h with
  | element hmem => exact Value.Each.array_iff.mp hv _ hmem
  | key hmem => exact (Value.Each.hash_iff.mp hv _ hmem).1
  | entry hmem => exact (Value.Each.hash_iff.mp hv _ hmem).2
  | owned hbound => exact howned _ _ _ hbound
  | carried => exact Value.Each.returned_iff.mp hv

/-- A value that stays within some scopes encloses only these. -/
theorem Encloses.lt_size (howned : ∀ s n u, scopes.owned? n s = some u → u.Within size)
    (h : scopes.Encloses v o) (hv : v.Within size) : o < size := by
  obtain ⟨name, path, hreach⟩ := h
  induction hreach using Relation.ReflTransGen.head_induction_on with
  | refl => exact Value.Each.module_iff.mp hv o rfl
  | head hpart _ ih => exact ih (hpart.within howned hv)

end Scopes

namespace World.Unknotted

variable {w w' : World} {s o : ScopeId} {name : Bytes} {v : Value}

/-- Whether a world is unknotted depends on its scopes and its modules only. -/
theorem congr (h : w.Unknotted) (hscopes : w'.scopes = w.scopes)
    (hcache : w'.loader.cache = w.loader.cache) : w'.Unknotted :=
  ⟨h.sound.congr hscopes hcache, hscopes ▸ h.finite⟩

/-- No value that was there before encloses a module of a fresh scope. -/
theorem not_encloses_fresh (h : w.Unknotted) (outer : Option ScopeId)
    (hv : v.Within w.scopes.size) :
    ¬ (w.scopes.fresh outer).2.Encloses v w.scopes.size := by
  intro henc
  -- A module of the fresh scope would be one of a scope that was there before.
  refine Nat.lt_irrefl _ (henc.lt_size ?_ hv)
  intro s n u hu
  rw [Scopes.owned?_fresh] at hu
  exact h.sound.holding.owned s n u hu

/-- A scope may take a value that does not enclose a module of it. -/
theorem rebind (h : w.Unknotted) {scopes : Scopes} (hsound : World.Sound { w with scopes })
    (hrebinds : w.scopes.Rebinds scopes o v) (hnot : ¬ w.scopes.Encloses v o) :
    World.Unknotted { w with scopes } :=
  ⟨hsound, fun u => hrebinds.finite (h.finite v) hnot (h.finite u)⟩

/-- An assignment keeps a world unknotted, if the value does not enclose the scope that comes to own
it. -/
theorem assign (h : w.Unknotted) (hscope : s < w.scopes.size)
    (hsound : World.Sound { w with scopes := (w.scopes.assign s name v).2 })
    (hnot : ∀ o, (w.scopes.upToOwner name (w.scopes.path s)).getLast? = some o →
      ¬ w.scopes.Encloses v o) :
    World.Unknotted { w with scopes := (w.scopes.assign s name v).2 } := by
  obtain ⟨o, ho⟩ := w.scopes.exists_getLast?_upToOwner_path s name
  exact h.rebind hsound (Scopes.rebinds_assign h.sound.arisen.formed hscope v ho) (hnot o ho)

end World.Unknotted

/-- A scope takes no value that encloses a module of it. -/
def Discipline.unknotted : Discipline :=
  { Interpreter.loose with
    Holds := World.Unknotted
    Takes scopes s v := ¬ scopes.Encloses v s
    allows_get? hw := Interpreter.loose.allows_get? hw.sound
    allows_cached hw := Interpreter.loose.allows_cached hw.sound
    permits_of_get? hw := Interpreter.loose.permits_of_get? hw.sound
    takes_of_isPlain h := Scopes.not_encloses_of_isLeaf (Value.isLeaf_of_isPlain h)
    takes_fresh hw hv := hw.not_encloses_fresh _ hv
    takes_create _ hv' := by
      rwa [Scopes.encloses_iff fun n t hne => Scopes.owned?_create_of_ne hne _ _ n]
    quiet s hw hscopes hloader :=
      ⟨hw.congr hscopes (congrArg Loader.cache hloader),
        (Interpreter.loose.quiet s hw.sound hscopes hloader).2⟩
    fresh hw houter :=
      have h := Interpreter.loose.fresh hw.sound houter
      ⟨⟨h.1, fun v => (hw.finite v).congr fun n t => Scopes.owned?_fresh _ _ n t⟩, h.2⟩
    create name hw hscope hv htakes :=
      have h := Interpreter.loose.create name hw.sound hscope hv trivial
      ⟨hw.rebind h.1 (Scopes.rebinds_create hscope name _) htakes, h.2⟩
    assign hw hscope hv hpermits htakes :=
      have h := Interpreter.loose.assign hw.sound hscope hv hpermits fun _ _ => trivial
      ⟨hw.assign hscope h.1 htakes, h.2⟩
    within hw hpath :=
      have h := Interpreter.loose.within hw.sound hpath
      ⟨⟨h.1, hw.finite⟩, fun s w' hw' hlead => ⟨hw'.congr rfl rfl, (h.2 s w' hw'.sound hlead).2⟩⟩
    remember hpath hlead hw hmodule :=
      have h := Interpreter.loose.remember hpath hlead hw.sound hmodule
      ⟨⟨h.1, hw.finite⟩, h.2⟩ }

namespace Interpreter

variable {it : Interpreter} {self self' : Evaluator} {bound : Nat} {node : Node} {scope : ScopeId}
  {w w' : World}

/-! ## One point of a run -/

/-- A binding or a plain assignment of a value to a name of a scope, where the value encloses a
module of that scope. It makes the module contain itself. -/
inductive ClosesAt (bound : Nat) (parts : Evaluator) : Node → ScopeId → World → Prop where
  | binding {pos : Nat} {name : Name} {value : Expr} {scope : ScopeId} {v : Value} {w w₁ u : World}
      (hlog : announce (.stmt (.binding pos name value)) w = some ((), w₁))
      (hvalue : parts (.expr value) scope w₁ = some (v, u)) (hv : v.isError = false)
      (henc : u.scopes.Encloses v scope) :
      ClosesAt bound parts (.stmt (.binding pos name value)) scope w
  | assignment {pos : Nat} {name : Name} {right : Expr} {scope owner : ScopeId} {v : Value}
      {w w₁ u : World}
      (hlog : announce (.expr (.infixed pos .assign (.ident name) right)) w = some ((), w₁))
      (hright : parts (.expr right) scope w₁ = some (v, u)) (hv : v.isError = false)
      (howner : (u.scopes.upToOwner name.text (u.scopes.path scope)).getLast? = some owner)
      (henc : u.scopes.Encloses v owner) :
      ClosesAt bound parts (.expr (.infixed pos .assign (.ident name) right)) scope w

open Classical in
noncomputable instance (bound : Nat) (parts : Evaluator) (node : Node)
    (scope : ScopeId) (w : World) :
    Decidable (ClosesAt bound parts node scope w) :=
  inferInstance

/-- Before and after the evaluation of a node every value is finite that can be got at from its
scope, and afterwards also what can be got at from its result. -/
structure FiniteAt (it : Interpreter) (bound : Nat) (parts : Evaluator) (node : Node)
    (scope : ScopeId) (w : World) : Prop where
  before : ∀ u, w.Reaches (· = .scope scope) (.value u) → w.scopes.Finite u
  after : ∀ v w', it.evalNode bound parts node scope w = some (v, w') →
    ∀ u, w'.Reaches (fun i => i = .scope scope ∨ i = .value v) (.value u) → w'.scopes.Finite u

open Classical in
noncomputable instance (bound : Nat) (parts : Evaluator) (node : Node)
    (scope : ScopeId) (w : World) :
    Decidable (it.FiniteAt bound parts node scope w) :=
  inferInstance

section

variable (hself : Together .unknotted .never self self') (hit : it.registry = standard)
  (hw : w.Unknotted) (hscope : scope < w.scopes.size)

include hself hw hscope

/-- A node that closes no cycle does the same with both evaluators, and leaves all values finite. -/
theorem lockstep_of_not_closesAt (hit : it.registry = standard)
    (h : ¬ ClosesAt bound self node scope w) :
    Run.Lockstep .unknotted .never .error scope (Discipline.unknotted.Gives node scope)
      (it.evalNode bound self node scope) (it.evalNode bound self' node scope) w := by
  refine lockstep_evalNode hself hit bound hw hscope (.of_lax id) ?_ ?_
  · rintro e w₁ rfl hlog
    -- Every name may be assigned. What is left to show is that the owner takes the value.
    refine ⟨fun _ _ _ _ _ _ _ _ => permits_loose _ _ _, ?_⟩
    rintro pos name right v u rfl hright hv owner howner henc
    exact h (.assignment hlog hright hv howner henc)
  · rintro s w₁ rfl hlog pos name value v u rfl hvalue hv henc
    exact h (.binding hlog hvalue hv henc)

/-- Both evaluators evaluate the parts of a node in the same way. -/
theorem eval_part {e : Expr} {v : Value} {w₁ u : World} (hlog : announce node w = some ((), w₁))
    (hpart : self (.expr e) scope w₁ = some (v, u)) :
    self' (.expr e) scope w₁ = some (v, u) ∧ u.Unknotted ∧ scope < u.scopes.size := by
  obtain ⟨hscopes, hloader, -⟩ := Run.quiet_log _ _ _ _ _ _ hlog
  have hw₁ : w₁.Unknotted := hw.congr hscopes (congrArg Loader.cache hloader)
  have hscope₁ : scope < w₁.scopes.size := hscopes ▸ hscope
  obtain ⟨heq, hkeeps⟩ := (hself (.expr e) (.of_lax id) hw₁ hscope₁).resolve_right id
  obtain ⟨hu, hlead, -⟩ := hkeeps v u hpart
  exact ⟨heq ▸ hpart, hu, Nat.lt_of_lt_of_le hscope₁ hlead.size_le⟩

/-- A node that closes a cycle leaves a value within reach of its scope that is not finite. -/
theorem not_finiteAt_of_closesAt (h : ClosesAt bound self node scope w) :
    ¬ it.FiniteAt bound self' node scope w := by
  intro hfinite
  cases h with
  | @binding pos name value _ v _ w₁ u hlog hvalue hv henc =>
    obtain ⟨hvalue, -, hsize⟩ := eval_part hself hw hscope hlog hvalue
    obtain ⟨w', heval, hscopes⟩ := exists_evalNode_binding it bound hlog hvalue hv
    have hstored : w'.scopes.stored? name.text scope = some v := by
      rw [hscopes, Scopes.stored?_create hsize, if_pos ⟨rfl, rfl⟩]
    -- The value is found under the name, in the scope that it encloses a module of.
    refine (Scopes.rebinds_create hsize name.text v).not_finite henc ?_
    rw [← hscopes]
    exact hfinite.after _ _ heval v (.stored (.root (.inl rfl)) hstored)
  | @assignment pos name right _ owner v _ w₁ u hlog hright hv howner henc =>
    obtain ⟨hright, hu, hsize⟩ := eval_part hself hw hscope hlog hright
    obtain ⟨w', heval, hscopes⟩ := exists_evalNode_assignment it bound hlog hright hv
    refine (Scopes.rebinds_assign hu.sound.arisen.formed hsize v howner).not_finite henc ?_
    rw [← hscopes]
    exact hfinite.after _ _ heval v (.root (.inr rfl))

/-- At one point of a run the two conditions are the same, even if the parts are evaluated by two
evaluators that differ where there is a cycle. -/
theorem not_closesAt_iff_finiteAt (hit : it.registry = standard) (bound : Nat) (node : Node) :
    ¬ ClosesAt bound self node scope w ↔ it.FiniteAt bound self' node scope w := by
  refine ⟨fun h => ?_, fun h hcloses => not_finiteAt_of_closesAt hself hw hscope hcloses h⟩
  obtain ⟨heq, hkeeps⟩ := (lockstep_of_not_closesAt hself hw hscope hit h).resolve_right id
  refine ⟨fun u _ => hw.finite u, fun v w' hrun u _ => ?_⟩
  exact (hkeeps v w' (heq.trans hrun)).1.finite u

end

/-! ## Runs -/

/-- Watching that no node closes a cycle is, where all values are finite, watching that they stay
so. -/
theorem together_watch_unknotted (hit : it.registry = standard) (fault : Fault) (bound : Nat) :
    Together .unknotted .never (it.watch (Check.not ClosesAt) fault bound)
      (it.watch it.FiniteAt fault bound) := by
  induction bound with
  | zero => exact fun _ _ _ _ _ _ => .inl ⟨rfl, by rintro _ _ ⟨⟩⟩
  | succ bound ih =>
    intro node scope w hfits hw hscope
    have hiff := not_closesAt_iff_finiteAt ih hw hscope hit bound node
    by_cases h : Check.not ClosesAt bound (it.watch (Check.not ClosesAt) fault bound) node scope w
    · refine .congr (watch_of_check h) (watch_of_check (hiff.mp h)) ?_
      exact lockstep_of_not_closesAt ih hw hscope hit h
    · -- Both watches step in.
      have hpure : Run.Lockstep .unknotted .never .error scope
        (Discipline.unknotted.Gives node scope) (pure (.error fault)) (pure (.error fault)) w :=
        .pure hw ⟨.inl ⟨rfl, False.elim⟩, fun _ _ _ _ hstrict => hstrict.elim⟩
      exact .congr (watch_of_not_check h) (watch_of_not_check (mt hiff.mpr h)) hpure

/-- From a world in which all values are finite, they are so throughout the run of a program exactly
if no node of the run closes a cycle. In that case they are all finite in the end as well. The
values that have a text are the finite ones. -/
theorem throughout_finiteAt_iff (it : Interpreter) (hit : it.registry = standard)
    (p : Program) (bound : Nat) (scope : ScopeId) (w : World) (h : it.Starts p scope w)
    (hfinite : ∀ v, w.scopes.Finite v) :
    (it.Throughout it.FiniteAt bound (.program p) scope w ↔
      it.Throughout (Check.not ClosesAt) bound (.program p) scope w) ∧
    ∀ v w', it.eval bound (.program p) scope w = some (v, w') →
      (it.Throughout (Check.not ClosesAt) bound (.program p) scope w → ∀ u, w'.scopes.Finite u) ∧
      ∀ u, w'.scopes.Finite u ↔ (w'.scopes.inspect u).isSome = true := by
  obtain ⟨hsound, hscope⟩ := h.sound hit
  have hw : w.Unknotted := ⟨hsound, hfinite⟩
  have hwatch := fun fault =>
    (together_watch_unknotted hit fault bound (.program p) (.of_lax id) hw hscope).resolve_right id
  refine ⟨?_, fun v w' hrun => ⟨fun hnone u => ?_, fun u => ?_⟩⟩
  · unfold Throughout
    simp only [(hwatch _).1]
  · -- Any fault will do for the watch, as it does not step in.
    exact ((hwatch .gap).2 v w' ((hnone .gap).trans hrun)).1.finite u
  · have hsound' :=
      (keeps_eval (D := loose) hit permits_loose bound (.of_lax id) hsound hscope v w' hrun).1
    exact Scopes.finite_iff_isSome_inspect hsound'.arisen.anchored

/-! ## A module that contains itself -/

/-- Nothing is owned at the start, so modules are empty. -/
theorem finite_start (files : Files) (journal : Journal) (v : Value) :
    (World.start files journal).scopes.Finite v := by
  refine Scopes.finite_of_modules (fun name path s => .of_parts fun part hpart => ?_) v
  cases hpart with
  | owned howned => simp at howned

/-- A module with a function that keeps what it is given. -/
def keeper : World := World.start (oneFile (text "let held = 0; let keep = fn(v) { held = v; };"))
    {}

/-- A program that has a module keep itself. -/
def keeping : Bytes := text "let m = import(\"m\"); m.keep(m); m"

private theorem exists_eq_module {v : Value} {s : ScopeId} (hkind : v.kind = .module)
    (hs : v.scope? = some s) :
    ∃ name path, v = .module name path s := by
  cases v with
  | module name path t => exact ⟨name, path, by rw [Option.some.inj hs]⟩
  | _ => cases hkind

/-- The program runs to its end without a fault, and its result is a module that contains itself. -/
theorem not_finite_keeping : (parse keeping).diagnostics = [] ∧ ∃ v w',
    plain.eval 40 (.program (parse keeping).program) World.globalScope keeper = some (v, w') ∧
      v.kind = .module ∧ ¬ w'.scopes.Finite v := by
  have hresult :
    (plain.eval 40 (.program (parse keeping).program) World.globalScope keeper).map (fun r =>
      ((r.1.kind, r.1.scope?), (r.2.scopes.owned? (text "held") 1).map fun u =>
        (u.kind, u.scope?))) =
      some ((.module, some 1), some (.module, some 1)) := by
    decide +kernel
  obtain ⟨⟨v, w'⟩, hrun, hparts⟩ := Option.map_eq_some_iff.mp hresult
  obtain ⟨hv, hheld⟩ := Prod.mk.inj hparts
  obtain ⟨hkind, hscope⟩ := Prod.mk.inj hv
  obtain ⟨u, howned, hu⟩ := Option.map_eq_some_iff.mp hheld
  obtain ⟨name, path, rfl⟩ := exists_eq_module hkind hscope
  obtain ⟨name', path', rfl⟩ := exists_eq_module (Prod.mk.inj hu).1 (Prod.mk.inj hu).2
  refine ⟨by decide +kernel, _, w', hrun, rfl, fun hfinite => ?_⟩
  exact (hfinite.inv (.owned howned)).not_cyclic (.single (.owned howned))

/-- A module that is kept in its own scope closes a knot. -/
theorem not_throughout_keeping :
    plain.Starts (parse keeping).program World.globalScope keeper ∧ (∀ v, keeper.scopes.Finite v) ∧
      ¬ plain.Throughout (Check.not ClosesAt) 40 (.program (parse keeping).program)
        World.globalScope keeper ∧
      ¬ plain.Throughout plain.FiniteAt 40 (.program (parse keeping).program)
        World.globalScope keeper := by
  have hstarts : plain.Starts (parse keeping).program World.globalScope keeper :=
    .program (.start _ _) (by decide) _
  have hfinite : ∀ v, keeper.scopes.Finite v := finite_start _ _
  obtain ⟨hiff, hend⟩ := throughout_finiteAt_iff plain rfl _ 40 World.globalScope keeper
    hstarts hfinite
  obtain ⟨-, v, w', hrun, -, hnot⟩ := not_finite_keeping
  have hcloses : ¬ plain.Throughout (Check.not ClosesAt) 40 (.program (parse keeping).program)
      World.globalScope keeper := fun h => hnot ((hend v w' hrun).1 h v)
  exact ⟨hstarts, hfinite, hcloses, fun h => hcloses (hiff.mp h)⟩

end Interpreter

end Rill
