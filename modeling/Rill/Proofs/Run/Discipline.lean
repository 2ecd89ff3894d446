import Rill.Proofs.Run.Builtins
import Rill.Proofs.Scope.Writes

/-!
# Disciplines of a run

What holds of every run is shown by going through the evaluator once, for any discipline. A
discipline says what the world is like between two steps, which scopes and values may come up, and
where an evaluation in a scope may lead. Its laws speak of single steps only: a scope is made, a
name is bound or assigned, a module is entered, left or remembered.

* `Discipline`: the parameters and their laws. A strict discipline is one of whole trees and
  well-kept hashes, under which no evaluation runs into a breach.
* `Discipline.Keeps`: a computation that observes a discipline.
* `Parting`: a way in which one of two computations may part from the other for good, with a fault.
* `Run.Lockstep`: two computations that do the same and observe a discipline, until they part. The
  two sides differ in the evaluator that they call.
-/

namespace Rill

/-! ## Faults that end a computation -/

/-- Nothing changed but the stack of files and the marks on them. -/
def World.Frozen (w w' : World) : Prop :=
  ∃ stack loading, w' = { w with loader := { w.loader with stack, loading } }

namespace World.Frozen

variable {w w' w'' : World}

/-- A world is frozen as it is. -/
theorem refl (w : World) : w.Frozen w := ⟨_, _, rfl⟩

/-- A world that stays frozen twice stays frozen. -/
theorem trans (h : w.Frozen w') (h' : w'.Frozen w'') : w.Frozen w'' := by
  obtain ⟨_, _, rfl⟩ := h
  obtain ⟨_, _, rfl⟩ := h'
  exact ⟨_, _, rfl⟩

end World.Frozen

namespace Run

variable {α β : Type} {i : Fault → α} {j : Fault → β}

/-- After a fault nothing happens but that files are taken off the stack, and the fault is the
result. The two functions say how the fault stands among the results before and after. -/
def Halts (i : Fault → α) (j : Fault → β) (f : α → Run β) : Prop :=
  ∀ fault w, ∃ w', f (i fault) w = some (j fault, w') ∧ w.Frozen w'

/-- What follows halts on faults if it gives each fault back without a step. -/
theorem Halts.of_eq_pure {f : α → Run β} (h : ∀ fault, f (i fault) = pure (j fault)) :
    Halts i j f := by
  intro fault w
  refine ⟨w, ?_, .refl w⟩
  rw [h fault]
  rfl

end Run

namespace Import

/-- Takes a file off the stack, and gives on what its evaluation gave. -/
def leaving (path : Bytes) (v : Value) : Run Value := do
  modify fun w => { w with loader := w.loader.leave path }
  return v

/-- A run in a file is the run with the file on top of the stack, and then the file taken off. -/
theorem within_apply (path : Bytes) (x : Run Value) (w : World) :
    within path x w = (x >>= leaving path) { w with loader := w.loader.enter path } := rfl

/-- Leaving a file hands an error on. -/
theorem halts_leaving (path : Bytes) : Run.Halts .error .error (leaving path) :=
  fun _ _ => ⟨_, rfl, _, _, rfl⟩

end Import

/-- A way in which two computations may part: it looks at what they give, and it lasts, whatever
follows, if a fault halts what follows. -/
structure Parting where
  /-- How the two computations end once they have parted. -/
  Ends : {α : Type} → (Fault → α) → Option (α × World) → Option (α × World) → Prop
  bind : ∀ {α β : Type} {i : Fault → α} {j : Fault → β} {x y : Run α} {f g : α → Run β} {w : World},
    Run.Halts i j f → Run.Halts i j g → Ends i (x w) (y w) → Ends j ((x >>= f) w) ((y >>= g) w)

namespace Parting

/-- The two never part. -/
def never : Parting where
  Ends _ _ _ := False
  bind _ _ h := h

/-- The first gives a certain fault, whatever the second does. -/
def stopping (fault : Fault) : Parting where
  Ends i x _ := ∃ w, x = some (i fault, w)
  bind := by
    rintro α β i j x y f g w hf - ⟨u, hx⟩
    obtain ⟨w', hrest, -⟩ := hf fault u
    refine ⟨w', ?_⟩
    rw [Run.bind_apply, hx, Option.bind_some, hrest]

/-- The first gives a certain fault, and the second one that is as a predicate says; this does not
look at the stack of files. -/
def failing (fault : Fault) (Bad : Fault → World → Prop)
    (hfrozen : ∀ {fault w w'}, w.Frozen w' → Bad fault w → Bad fault w') : Parting where
  Ends i x y := (∃ w, x = some (i fault, w)) ∧ ∃ fault' w', y = some (i fault', w') ∧ Bad fault' w'
  bind := by
    rintro α β i j x y f g w hf hg ⟨⟨u, hx⟩, fault', v, hy, hbad⟩
    obtain ⟨u', hrest, -⟩ := hf fault u
    obtain ⟨v', hrest', hv⟩ := hg fault' v
    refine ⟨⟨u', ?_⟩, fault', v', ?_, hfrozen hv hbad⟩
    · rw [Run.bind_apply, hx, Option.bind_some, hrest]
    · rw [Run.bind_apply, hy, Option.bind_some, hrest']

end Parting

/-! ## Disciplines -/

/-- Whether a node has no gaps. -/
def Node.isComplete : Node → Bool
  | program p => statementsComplete p.statements
  | block b => b.isComplete
  | stmt s => s.isComplete
  | expr e => e.isComplete

/-- What the runs of the evaluator observe. -/
structure Discipline where
  /-- Whether only nodes without gaps and hashes with filed keys may come up, and no breach. -/
  Strict : Prop
  /-- What the world is like between two steps. -/
  Holds : World → Prop
  /-- The scopes that may come up. -/
  Open : Scopes → ScopeId → Prop
  /-- The values that may come up, but for faults. -/
  Allows : Scopes → Value → Prop
  /-- Where an evaluation in a scope may lead. -/
  Leads : ScopeId → World → World → Prop
  /-- The names that may be assigned from a scope. -/
  Permits : Scopes → ScopeId → Bytes → Prop
  /-- The values that a scope may come to own. -/
  Takes : Scopes → ScopeId → Value → Prop
  leads_refl : ∀ s w, Leads s w w
  leads_trans : ∀ {s w w' w''}, Leads s w w' → Leads s w' w'' → Leads s w w''
  open_of_leads : ∀ {s t w w'}, Leads s w w' → Open w.scopes t → Open w'.scopes t
  allows_of_leads : ∀ {s v w w'}, Leads s w w' → Allows w.scopes v → Allows w'.scopes v
  /-- Under a strict discipline nothing that can be read is lost. -/
  lasts_of_leads : ∀ {s w w'}, Strict → Leads s w w' → w.scopes.Lasts w'.scopes
  /-- Under a strict discipline files that can be parsed have no gaps. -/
  complete_of_parse : ∀ {src}, Strict → (parse src).diagnostics = [] →
    (parse src).program.IsComplete
  hereditary : ∀ scopes, Value.Hereditary Strict (Allows scopes)
  allows_broken : ∀ {scopes}, Allows scopes .broken
  allows_returned : ∀ {scopes stamp v}, Allows scopes (.returned stamp v) ↔ Allows scopes v
  allows_module : ∀ {scopes name path s}, Allows scopes (.module name path s) ↔ Open scopes s
  allows_function : ∀ {scopes stamp parameters body s},
    Allows scopes (.function stamp parameters body s) ↔ Open scopes s ∧
      (Strict → body.isComplete = true)
  /-- What a name reads as may come up. -/
  allows_get? : ∀ {w s name v}, Holds w → Open w.scopes s → w.scopes.get? s name = some v →
    Allows w.scopes v
  /-- The modules that were loaded may come up. -/
  allows_cached : ∀ {w path loaded}, Holds w → w.loader.cache.get? path = some loaded →
    Allows w.scopes loaded.module
  /-- A name that can be read may be assigned. -/
  permits_of_get? : ∀ {w s name v}, Holds w → Open w.scopes s → w.scopes.get? s name = some v →
    Permits w.scopes s name
  /-- A scope may take what has no parts. -/
  takes_of_isPlain : ∀ {scopes s v}, v.isPlain = true → Takes scopes s v
  /-- A fresh scope may take whatever was there before it. -/
  takes_fresh : ∀ {w outer v}, Holds w → Allows w.scopes v →
    Takes (w.scopes.fresh outer).2 w.scopes.size v
  /-- What a scope may take, it may take after something else. -/
  takes_create : ∀ {scopes s name v v'}, Takes scopes s v → Takes scopes s v' →
    Takes (scopes.create s name v) s v'
  /-- Only scopes and modules matter. -/
  quiet : ∀ {w w'} (s), Holds w → w'.scopes = w.scopes → w'.loader = w.loader →
    Holds w' ∧ Leads s w w'
  /-- A scope may be made, and what is done in it from then on may be done from anywhere. -/
  fresh : ∀ {w outer}, Holds w → (∀ o, outer = some o → Open w.scopes o) →
    let w₁ := { w with scopes := (w.scopes.fresh outer).2 }
    Holds w₁ ∧ Open w₁.scopes w.scopes.size ∧ ∀ s w', Leads w.scopes.size w₁ w' → Leads s w w'
  create : ∀ {w s v} (name), Holds w → Open w.scopes s → Allows w.scopes v → Takes w.scopes s v →
    let w₁ := { w with scopes := w.scopes.create s name v }
    Holds w₁ ∧ Leads s w w₁
  /-- A name may be assigned a value that its owner may take. -/
  assign : ∀ {w s v name}, Holds w → Open w.scopes s → Allows w.scopes v → Permits w.scopes s name →
    (∀ o, (w.scopes.upToOwner name (w.scopes.path s)).getLast? = some o → Takes w.scopes o v) →
    let w₁ := { w with scopes := (w.scopes.assign s name v).2 }
    Holds w₁ ∧ Leads s w w₁
  /-- A file that is not marked may be evaluated on top of the stack. -/
  within : ∀ {w path}, Holds w → path ∉ w.loader.loading →
    let w₁ := { w with loader := w.loader.enter path }
    Holds w₁ ∧ ∀ s w', Holds w' → Leads s w₁ w' →
      let w'' := { w' with loader := w'.loader.leave path }
      Holds w'' ∧ Leads s w w''
  /-- The module of a file that was not marked may be remembered once the file is evaluated. -/
  remember : ∀ {s w w' path loaded}, path ∉ w.loader.loading → Leads s w w' → Holds w' →
    Allows w'.scopes loaded.module →
    let w₁ := { w' with loader := w'.loader.remember path loaded }
    Holds w₁ ∧ Leads s w w₁

namespace Discipline

/-! The laws of strict disciplines say nothing of the other ones. -/

theorem lasts_of_false {w w' : World} : False → w.scopes.Lasts w'.scopes := False.elim

theorem complete_of_false {src : Bytes} :
    False → (parse src).diagnostics = [] → (parse src).program.IsComplete := False.elim

theorem function_of_false {body : Block} : True ↔ True ∧ (False → body.isComplete = true) :=
  (and_iff_left False.elim).symm

/-- Anything may come up, and an evaluation may lead anywhere. -/
def free : Discipline where
  Strict := False
  Holds _ := True
  Open _ _ := True
  Allows _ _ := True
  Leads _ _ _ := True
  Permits _ _ _ := True
  Takes _ _ _ := True
  leads_refl _ _ := trivial
  leads_trans _ _ := trivial
  open_of_leads _ _ := trivial
  allows_of_leads _ _ := trivial
  lasts_of_leads h _ := lasts_of_false h
  complete_of_parse := complete_of_false
  hereditary _ := Value.hereditary_true
  allows_broken := trivial
  allows_returned := .rfl
  allows_module := .rfl
  allows_function := function_of_false
  allows_get? _ _ _ := trivial
  allows_cached _ _ := trivial
  permits_of_get? _ _ _ := trivial
  takes_of_isPlain _ := trivial
  takes_fresh _ _ := trivial
  takes_create _ _ := trivial
  quiet _ _ _ _ := ⟨trivial, trivial⟩
  fresh _ _ := ⟨trivial, trivial, fun _ _ _ => trivial⟩
  create _ _ _ _ _ := ⟨trivial, trivial⟩
  assign _ _ _ _ _ := ⟨trivial, trivial⟩
  within _ _ := ⟨trivial, fun _ _ _ _ => ⟨trivial, trivial⟩⟩
  remember _ _ _ _ := ⟨trivial, trivial⟩

/-- A discipline under which scopes may take every value. -/
class Lenient (D : Discipline) : Prop where
  takes : ∀ {scopes s v}, D.Takes scopes s v

instance : Lenient free := ⟨trivial⟩

variable (D : Discipline)

/-- The nodes that may come up. -/
def Fits (node : Node) : Prop := D.Strict → node.isComplete = true

/-- What an evaluation may give: a fault, or a value that may come up. -/
def Yields (scopes : Scopes) (v : Value) : Prop := v.Given D.Strict (D.Allows scopes)

/-- What the evaluation of several expressions may give. -/
def YieldsAll (scopes : Scopes) : Except Fault (List Value) → Prop
  | .error fault => D.Yields scopes (.error fault)
  | .ok vs => ∀ v ∈ vs, D.Allows scopes v

/-- What the evaluation of a node in a scope may give. Under a strict discipline a binding can be
read afterwards, if the scope is there and there is no fault. -/
def Gives (node : Node) (scope : ScopeId) (scopes : Scopes) (v : Value) : Prop :=
  D.Yields scopes v ∧ ∀ pos name value, node = .stmt (.binding pos name value) → D.Strict →
    v.isError = false → scope < scopes.size → (scopes.stored? name.text scope).isSome = true

/-- From `w` a computation leads only where an evaluation in the scope `s` may, and it gives a
result as `Q` says. -/
def Keeps {α : Type} (s : ScopeId) (Q : Scopes → α → Prop) (x : Run α) (w : World) : Prop :=
  ∀ a w', x w = some (a, w') → D.Holds w' ∧ D.Leads s w w' ∧ Q w'.scopes a

variable {D} {scopes : Scopes} {v : Value}

/-- Without strictness there is nothing to say of a node. -/
theorem Fits.of_lax {node : Node} (h : ¬ D.Strict) : D.Fits node := fun hstrict => absurd hstrict h

/-- What is complete has complete parts. -/
theorem both {a b : Bool} (h : D.Strict → (a && b) = true) :
    (D.Strict → a = true) ∧ (D.Strict → b = true) :=
  ⟨fun hstrict => (Bool.and_eq_true_iff.mp (h hstrict)).1,
    fun hstrict => (Bool.and_eq_true_iff.mp (h hstrict)).2⟩

/-- Plain values are fit results in any scopes. -/
theorem Yields.of_isPlain (h : v.isPlain = true) : D.Yields scopes v :=
  (D.hereditary scopes).given h

/-- A fit result that is no error may be stored. -/
theorem Yields.allows (h : D.Yields scopes v) (hv : v.isError = false) : D.Allows scopes v := by
  rcases h with ⟨herror, -⟩ | h
  · rw [hv] at herror
    cases herror
  · exact h

/-- What a returned value carries is a fit result. -/
theorem Yields.carried {stamp : Stamp} (h : D.Yields scopes (.returned stamp v)) :
    D.Yields scopes v :=
  .inr (D.allows_returned.mp (h.allows rfl))

/-- The result of a call is fit if what its body evaluates to is. -/
theorem Yields.callResult (h : D.Yields scopes v) : D.Yields scopes (Interpreter.callResult v) := by
  cases v with
  | returned => exact h.carried
  | broken => exact .of_isPlain rfl
  | _ => exact h

/-- A fit result stays fit in worlds that are reached later. -/
theorem Yields.of_leads {s : ScopeId} {w w' : World} (hlead : D.Leads s w w')
    (h : D.Yields w.scopes v) :
    D.Yields w'.scopes v :=
  h.imp_right (D.allows_of_leads hlead)

/-- A fit result is what a node should give, apart from bindings, which ask for more. -/
theorem Gives.of_yields {node : Node} {scope : ScopeId} (h : D.Yields scopes v)
    (hnode : ∀ pos name value, node ≠ .stmt (.binding pos name value)) :
    D.Gives node scope scopes v :=
  ⟨h, fun pos name value heq => absurd heq (hnode pos name value)⟩

namespace Keeps

variable {α β : Type} {s : ScopeId} {w : World} {Q : Scopes → α → Prop} {R : Scopes → β → Prop}
  {x : Run α}

/-- A result without a step keeps the discipline. -/
theorem pure {a : α} (hw : D.Holds w) (ha : Q w.scopes a) : D.Keeps s Q (pure a) w := by
  intro b w' h
  obtain ⟨rfl, rfl⟩ := Prod.mk.inj (Option.some.inj h)
  exact ⟨hw, D.leads_refl s w, ha⟩

/-- What follows a step may assume of its result and of the world after it what the step ensures. -/
theorem bind {f : α → Run β} (hx : D.Keeps s Q x w)
    (hf : ∀ a w', x w = some (a, w') → D.Holds w' → D.Leads s w w' → Q w'.scopes a →
      D.Keeps s R (f a) w') : D.Keeps s R (x >>= f) w := by
  intro b w' h
  obtain ⟨a, u, hxa, hfb⟩ := Run.exists_of_bind_eq_some h
  obtain ⟨hu, hlead, ha⟩ := hx a u hxa
  obtain ⟨hw', hlead', hb⟩ := hf a u hxa hu hlead ha b w' hfb
  exact ⟨hw', D.leads_trans hlead hlead', hb⟩

/-- A weaker statement about the result is kept where a stronger one is. -/
theorem imp {Q' : Scopes → α → Prop} (hx : D.Keeps s Q x w)
    (h : ∀ a w', D.Leads s w w' → Q w'.scopes a → Q' w'.scopes a) : D.Keeps s Q' x w := by
  intro a w' hxa
  obtain ⟨hw', hlead, ha⟩ := hx a w' hxa
  exact ⟨hw', hlead, h a w' hlead ha⟩

/-- A quiet run keeps every discipline, as it leaves scopes and values alone. -/
theorem of_quiet {Q : α → Prop} (hw : D.Holds w) (hx : Run.Quiet Q x) :
    D.Keeps s (fun _ => Q) x w := by
  intro a w' hxa
  obtain ⟨hscopes, hloader, ha⟩ := hx w a w' hxa
  obtain ⟨hw', hlead⟩ := D.quiet s hw hscopes hloader
  exact ⟨hw', hlead, ha⟩

/-- A look at the world keeps the discipline. -/
theorem get {f : World → Run β} (h : D.Keeps s R (f w) w) : D.Keeps s R (MonadState.get >>= f) w :=
  h

/-- A name that is bound can be read, if its scope is there. -/
theorem create {name : Bytes} (hw : D.Holds w) (hscope : D.Open w.scopes s)
    (hv : D.Allows w.scopes v) (htakes : D.Takes w.scopes s v) :
    D.Keeps s (fun scopes _ => s < scopes.size → (scopes.stored? name s).isSome = true)
      (Run.create s name v) w := by
  obtain ⟨hw₁, hlead⟩ := D.create name hw hscope hv htakes
  intro a w' h
  obtain ⟨⟨⟩, u, hcreate, hlog⟩ := Run.exists_of_bind_eq_some h
  obtain ⟨-, rfl⟩ := Prod.mk.inj (Option.some.inj hcreate)
  obtain ⟨hscopes, hloader, -⟩ := Run.quiet_log _ _ _ _ _ _ hlog
  obtain ⟨hw', hlead'⟩ := D.quiet s hw₁ hscopes hloader
  refine ⟨hw', D.leads_trans hlead hlead', fun hlt => ?_⟩
  rw [hscopes, Scopes.size_create] at hlt
  rw [hscopes, Scopes.stored?_create hlt, if_pos ⟨rfl, rfl⟩]
  rfl

/-- An assignment keeps the discipline if the value may be stored and the scope that owns the name
takes it. -/
theorem assign {name : Bytes} (hw : D.Holds w) (hscope : D.Open w.scopes s)
    (hv : D.Allows w.scopes v) (hname : D.Permits w.scopes s name)
    (htakes : ∀ o, (w.scopes.upToOwner name (w.scopes.path s)).getLast? = some o →
      D.Takes w.scopes o v) :
    D.Keeps s (fun _ _ => True) (Run.assign s name v) w := by
  refine Keeps.bind (Q := fun _ _ => True) ?_ fun implicit w' _ hw' _ _ => ?_
  · intro a w' h
    obtain ⟨-, rfl⟩ := Prod.mk.inj (Option.some.inj h)
    obtain ⟨hw', hlead⟩ := D.assign hw hscope hv hname htakes
    exact ⟨hw', hlead, trivial⟩
  · cases implicit with
    | false => exact .of_quiet hw' (Run.quiet_log _ _ _)
    | true =>
      exact .of_quiet hw' ((Run.quiet_log _ _ _).bind fun _ _ => Run.quiet_log _ _ _)

end Keeps

end Discipline

/-! ## Two computations -/

namespace Run

variable {α β : Type} {D : Discipline} {P : Parting} {i : Fault → α} {j : Fault → β} {s : ScopeId}
  {Q : Scopes → α → Prop} {R : Scopes → β → Prop} {x y : Run α} {f g : α → Run β} {w : World}

/-- From `w` two computations do the same and observe a discipline, or they part. -/
def Lockstep (D : Discipline) (P : Parting) (i : Fault → α) (s : ScopeId) (Q : Scopes → α → Prop)
    (x y : Run α) (w : World) : Prop :=
  (x w = y w ∧ D.Keeps s Q x w) ∨ P.Ends i (x w) (y w)

namespace Lockstep

/-- A run that keeps the discipline is in lockstep with itself. -/
theorem of_keeps (hx : D.Keeps s Q x w) : Lockstep D P i s Q x x w := .inl ⟨rfl, hx⟩

/-- A result without a step is in lockstep with itself. -/
theorem pure {a : α} (hw : D.Holds w) (ha : Q w.scopes a) :
    Lockstep D P i s Q (pure a : Run α) (pure a) w :=
  of_keeps (.pure hw ha)

/-- A weaker statement about the result holds in lockstep where a stronger one does. -/
theorem imp {Q' : Scopes → α → Prop} (h : Lockstep D P i s Q x y w)
    (himp : ∀ a scopes, Q scopes a → Q' scopes a) : Lockstep D P i s Q' x y w := by
  refine h.imp_left ?_
  rintro ⟨heq, hkeeps⟩
  exact ⟨heq, hkeeps.imp fun a w' _ => himp a w'.scopes⟩

/-- Only what the two do from `w` matters. -/
theorem congr {x' y' : Run α} (hx : x w = x' w) (hy : y w = y' w) (h : Lockstep D P i s Q x' y' w) :
    Lockstep D P i s Q x y w := by
  unfold Lockstep Discipline.Keeps at h ⊢
  rwa [hx, hy]

/-- Where no run can stop early, lockstep only says that the discipline is kept. -/
theorem keeps (h : Lockstep D .never i s Q x y w) : D.Keeps s Q x w :=
  (h.resolve_right id).2

/-- A result that is the same whatever fault would stop the computation comes from none that was
stopped. -/
theorem keeps_of_stopping {x : Fault → Run Value} {Q : Scopes → Value → Prop}
    {v : Value} {w' : World} (hx : ∀ fault, x fault w = some (v, w'))
    (h : ∀ fault, Lockstep D (.stopping fault) .error s Q (x fault) (x fault) w) :
    D.Holds w' ∧ D.Leads s w w' ∧ Q w'.scopes v := by
  rcases h .gap with ⟨-, hkeeps⟩ | ⟨u, hgap⟩
  · exact hkeeps v w' (hx .gap)
  rcases h .divisionByZero with ⟨-, hkeeps⟩ | ⟨u', hzero⟩
  · exact hkeeps v w' (hx .divisionByZero)
  · -- The result cannot be both faults.
    rw [hx] at hgap hzero
    cases hgap
    cases hzero

/-- A step that both take alike, with what follows it judged from where the step started. -/
private theorem bind_of_eq_from (heq : x w = y w) (hx : D.Keeps s Q x w)
    (hf : ∀ a u, x w = some (a, u) → D.Holds u → D.Leads s w u → Q u.scopes a →
      (f a u = g a u ∧ ∀ b w', f a u = some (b, w') → D.Holds w' ∧ D.Leads s w w' ∧ R w'.scopes b) ∨
        P.Ends j (f a u) (g a u)) : Lockstep D P j s R (x >>= f) (y >>= g) w := by
  -- Both reach the same world, and from there on `hf` speaks of the two.
  unfold Lockstep Discipline.Keeps
  rw [bind_apply, bind_apply, ← heq]
  cases hxw : x w with
  | none => exact .inl ⟨rfl, by rintro _ _ ⟨⟩⟩
  | some p =>
    obtain ⟨a, u⟩ := p
    obtain ⟨hu, hlead, ha⟩ := hx a u hxw
    exact hf a u hxw hu hlead ha

/-- A step that both take alike. -/
private theorem bind_of_eq (heq : x w = y w) (hx : D.Keeps s Q x w)
    (hf : ∀ a w', x w = some (a, w') → D.Holds w' → D.Leads s w w' → Q w'.scopes a →
      Lockstep D P j s R (f a) (g a) w') : Lockstep D P j s R (x >>= f) (y >>= g) w := by
  refine bind_of_eq_from heq hx fun a u hxw hu hlead ha => (hf a u hxw hu hlead ha).imp_left ?_
  rintro ⟨heq', hkeeps⟩
  refine ⟨heq', fun b w' h => ?_⟩
  obtain ⟨hw', hlead', hb⟩ := hkeeps b w' h
  exact ⟨hw', D.leads_trans hlead hlead', hb⟩

/-- Runs in two steps are in lockstep if both steps are. Where the first one has stopped early, the
second one must hand the fault on. -/
theorem bind_of_halts (hx : Lockstep D P i s Q x y w) (hhalts : Halts i j f) (hhalts' : Halts i j g)
    (hf : ∀ a w', x w = some (a, w') → D.Holds w' → D.Leads s w w' → Q w'.scopes a →
      Lockstep D P j s R (f a) (g a) w') : Lockstep D P j s R (x >>= f) (y >>= g) w := by
  rcases hx with ⟨heq, hkeeps⟩ | hends
  · exact bind_of_eq heq hkeeps hf
  · exact .inr (P.bind hhalts hhalts' hends)

/-- What follows a fault has to give it on at once. -/
theorem bind (hx : Lockstep D P i s Q x y w) (hhalts : ∀ fault, f (i fault) = Pure.pure (j fault))
    (hhalts' : ∀ fault, g (i fault) = Pure.pure (j fault))
    (hf : ∀ a w', x w = some (a, w') → D.Holds w' → D.Leads s w w' → Q w'.scopes a →
      Lockstep D P j s R (f a) (g a) w') : Lockstep D P j s R (x >>= f) (y >>= g) w :=
  hx.bind_of_halts (.of_eq_pure hhalts) (.of_eq_pure hhalts') hf

/-- What follows a step may end where it leads from the start of the step. -/
theorem bind_last {f : α → Run β} (hx : Lockstep D P i s Q x y w)
    (hhalts : ∀ fault, f (i fault) = Pure.pure (j fault))
    (hf : ∀ a u, D.Holds u → D.Leads s w u → Q u.scopes a → ∀ b w', f a u = some (b, w') →
      D.Holds w' ∧ D.Leads s w w' ∧ R w'.scopes b) : Lockstep D P j s R (x >>= f) (y >>= f) w := by
  rcases hx with ⟨heq, hkeeps⟩ | hends
  · exact bind_of_eq_from heq hkeeps fun a u _ hu hlead ha => .inl ⟨rfl, hf a u hu hlead ha⟩
  · exact .inr (P.bind (.of_eq_pure hhalts) (.of_eq_pure hhalts) hends)

/-- A step that both take. -/
theorem after (hx : D.Keeps s Q x w)
    (hf : ∀ a w', x w = some (a, w') → D.Holds w' → D.Leads s w w' → Q w'.scopes a →
      Lockstep D P j s R (f a) (g a) w') : Lockstep D P j s R (x >>= f) (x >>= g) w :=
  bind_of_eq rfl hx hf

/-- A step that both take, and that touches neither scopes nor modules. -/
theorem after_quiet {Q : α → Prop} (hw : D.Holds w) (hx : Quiet Q x)
    (hf : ∀ a w', D.Holds w' → w'.scopes = w.scopes → w'.loader = w.loader → Q a →
      Lockstep D P j s R (f a) (g a) w') : Lockstep D P j s R (x >>= f) (x >>= g) w := by
  refine after (.of_quiet hw hx) fun a w' hxa hw' _ ha => ?_
  obtain ⟨hscopes, hloader, -⟩ := hx w a w' hxa
  exact hf a w' hw' hscopes hloader ha

/-- A look at the world keeps two runs in lockstep. -/
theorem get {f g : World → Run β} (h : Lockstep D P j s R (f w) (g w) w) :
    Lockstep D P j s R (MonadState.get >>= f) (MonadState.get >>= g) w := h

/-- A look at a name keeps two runs in lockstep. -/
theorem get? {f g : Option Value → Run β} {scope : ScopeId} {name : Bytes}
    (h : Lockstep D P j s R (f (w.scopes.get? scope name)) (g (w.scopes.get? scope name)) w) :
    Lockstep D P j s R (Run.get? scope name >>= f) (Run.get? scope name >>= g) w := h

/-- What is done in a fresh scope may be done from anywhere. -/
theorem bind_scope {outer : Option ScopeId} {f g : ScopeId → Run β} (s : ScopeId) (hw : D.Holds w)
    (houter : ∀ o, outer = some o → D.Open w.scopes o)
    (hf : ∀ w₁, scope outer w = some (w.scopes.size, w₁) → w₁.loader = w.loader → D.Holds w₁ →
      D.Open w₁.scopes w.scopes.size → D.Leads s w w₁ →
      Lockstep D P j w.scopes.size R (f w.scopes.size) (g w.scopes.size) w₁) :
    Lockstep D P j s R (scope outer >>= f) (scope outer >>= g) w := by
  -- A fresh scope is one that no other scope knows of, which is why `hleads` holds for every `s`.
  obtain ⟨hw₁, hopen, hleads⟩ := D.fresh hw houter
  refine (hf _ rfl rfl hw₁ hopen (hleads s _ (D.leads_refl _ _))).imp_left ?_
  rintro ⟨heq, hkeeps⟩
  refine ⟨heq, ?_⟩
  intro b w' h
  obtain ⟨hw', hlead, hb⟩ := hkeeps b w' h
  exact ⟨hw', hleads s w' hlead, hb⟩

/-- The evaluation of a file on top of the stack. -/
theorem within {x y : Run Value} {Q : Scopes → Value → Prop} {path : Bytes} (hw : D.Holds w)
    (hpath : path ∉ w.loader.loading)
    (hx : D.Holds { w with loader := w.loader.enter path } →
      Lockstep D P .error s Q x y { w with loader := w.loader.enter path }) :
    Lockstep D P .error s Q (Import.within path x) (Import.within path y) w := by
  obtain ⟨hw₁, hleave⟩ := D.within hw hpath
  unfold Lockstep Discipline.Keeps
  rw [Import.within_apply, Import.within_apply]
  -- The file is taken off the stack in both cases, also when the two sides have parted.
  rcases hx hw₁ with ⟨heq, hkeeps⟩ | hends
  · refine .inl ⟨by rw [bind_apply, bind_apply, heq], ?_⟩
    intro v w' h
    obtain ⟨v, u, hv, h⟩ := exists_of_bind_eq_some h
    obtain ⟨rfl, rfl⟩ := Prod.mk.inj (Option.some.inj h)
    obtain ⟨hu, hlead, hQ⟩ := hkeeps v u hv
    obtain ⟨hw', hlead'⟩ := hleave s u hu hlead
    exact ⟨hw', hlead', hQ⟩
  · exact .inr (P.bind (Import.halts_leaving path) (Import.halts_leaving path) hends)

end Lockstep

end Run

end Rill
