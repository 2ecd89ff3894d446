import Rill.Proofs.Import.Stack
import Rill.Proofs.Run.Bindings
import Rill.Proofs.Scope.Growth

/-!
# Bindings stay in their scopes

Every round of a loop and every call of a function has a scope of its own, and what they bind is
bound there. This module shows that nothing leaks from there, whatever their bodies do: scopes that
were there before come to own a name only if they are outermost ones, and only by an assignment to a
name that no scope on its way owns.

* `Discipline.confined`: an evaluation in a scope binds names in that scope only. Which names
  outermost scopes may come to own besides is a parameter.
* `Interpreter.ImplicitAt`: the assignments that make an outermost scope the owner of a name.
* `Interpreter.NoLeakAt`: around a loop or a call nothing leaks.
* `Interpreter.throughout_noLeakAt`: this holds at every point of every run of a session.
-/

namespace Rill

/-- Whether an expression is a loop. -/
def Expr.isLoop : Expr → Bool
  | .loop .. => true
  | _ => false

/-- The scope behind a function or a module. -/
def Value.scope? : Value → Option ScopeId
  | .module _ _ s => some s
  | .function _ _ _ s => some s
  | _ => none

/-- A value with scopes among the first `size` ones. -/
abbrev Value.Within (size : Nat) : Value → Prop :=
  Value.Each fun v => ∀ s, v.scope? = some s → s < size

/-- A value that stays within some scopes stays within more of them. -/
theorem Value.Within.mono {size size' : Nat} (hle : size ≤ size') {v : Value} (h : v.Within size) :
    v.Within size' :=
  h.imp fun _ hv s hs => Nat.lt_of_lt_of_le (hv s hs) hle

/-- The forest can come about, and all that is bound leads to scopes of it. -/
structure World.Sound (w : World) : Prop where
  arisen : w.scopes.Arisen
  holding : w.Holding (Value.Within w.scopes.size)

namespace World.Sound

variable {w w' : World} {a : Scopes.Action}

/-- Whether a world is sound depends on its scopes and its modules only. -/
theorem congr (h : w.Sound) (hscopes : w'.scopes = w.scopes)
    (hcache : w'.loader.cache = w.loader.cache) :
    w'.Sound :=
  ⟨hscopes ▸ h.arisen, hscopes ▸ h.holding.congr hscopes hcache⟩

/-- An operation on scopes that are there, with values that lead to such scopes. -/
theorem apply (h : w.Sound) (hfits : a.Fits w.scopes)
    (hholding : World.Holding (Value.Within w.scopes.size) { w with scopes := a.apply w.scopes }) :
    World.Sound { w with scopes := a.apply w.scopes } :=
  ⟨h.arisen.apply hfits, hholding.imp fun _ hv => hv.mono (Scopes.size_le_apply a w.scopes)⟩

end World.Sound

/-- What scopes own that were there before: none loses a name, scopes inside others gain none, and
outermost scopes gain only names that `Implicit` gives them. -/
structure Scopes.Confined (before after : Scopes) (Implicit : ScopeId → Bytes → Prop) : Prop where
  kept : ∀ t name, t < before.size → before.owns t name = true → after.owns t name = true
  inner : ∀ t name, t < before.size → before.outer? t ≠ none →
    after.owns t name = before.owns t name
  outermost : ∀ t name, t < before.size → after.owns t name = true →
    before.owns t name = true ∨ Implicit t name

/-- It is enough to rule out the names one by one that `Implicit` does not give. -/
theorem Scopes.Confined.of_grown {before after : Scopes} {Implicit : ScopeId → Bytes → Prop}
    (hloose : Grown (fun _ _ => True) before.size before after)
    (hstrict : ∀ t name, ¬ Implicit t name →
      Grown (fun s n => ¬ (s = t ∧ n = name)) before.size before after) :
    before.Confined after Implicit := by
  refine ⟨hloose.kept, ?_, ?_⟩
  -- `before.size` is no scope of the forest, so there is none here in which names may be bound.
  · intro t name ht houter
    rw [Bool.eq_iff_iff]
    refine ⟨fun h => ?_, hloose.kept t name ht⟩
    rcases hloose.gained t name ht (Nat.ne_of_lt ht) h with h | ⟨hnone, -⟩
    · exact h
    · exact absurd hnone houter
  · intro t name ht h
    by_cases himplicit : Implicit t name
    · exact .inr himplicit
    · rcases (hstrict t name himplicit).gained t name ht (Nat.ne_of_lt ht) h with h | ⟨-, hnot⟩
      · exact .inl h
      · exact absurd ⟨rfl, rfl⟩ hnot

/-- Names are bound in the scope of an evaluation only. Besides, outermost scopes may come to own
the names that `G` gives them. -/
def Discipline.confined (G : ScopeId → Bytes → Prop) : Discipline where
  Strict := False
  Holds := World.Sound
  Open scopes s := s < scopes.size
  Allows scopes v := v.Within scopes.size
  Leads s w w' := Scopes.Grown G s w.scopes w'.scopes
  Permits scopes s name := ∀ t, (scopes.path s).getLast? = some t →
    (∀ o ∈ scopes.path s, scopes.owns o name = false) → G t name
  Takes _ _ _ := True
  leads_refl _ _ := .refl _ _
  leads_trans h h' := h.trans h'
  open_of_leads h ht := Nat.lt_of_lt_of_le ht h.size_le
  allows_of_leads h hv := hv.mono h.size_le
  lasts_of_leads h _ := lasts_of_false h
  complete_of_parse := complete_of_false
  hereditary scopes := by
    refine Value.Each.hereditary fun v hleaf _ s hs => ?_
    cases v <;> simp_all [Value.scope?, Value.isLeaf]
  allows_broken := .broken (by rintro _ ⟨⟩)
  allows_returned := Value.Each.returned_iff
  allows_module := by simp [Value.Within, Value.Each.module_iff, Value.scope?]
  allows_function := by simp [Value.Within, Value.Each.function_iff, Value.scope?]
  allows_get? hw _ hv := hw.holding.get? hv
  allows_cached hw h := hw.holding.cached _ _ h
  permits_of_get? := by
    -- A name that can be read has an owner on the path.
    intro w s name v hw _ hv t _ hnone
    obtain ⟨o, ho, howns⟩ := (hw.arisen.anchored.isSome_get?_iff hw.arisen.formed).mp
      (Option.isSome_iff_exists.mpr ⟨v, hv⟩)
    rw [hnone o ho] at howns
    cases howns
  takes_of_isPlain _ := trivial
  takes_fresh _ _ := trivial
  takes_create _ _ := trivial
  quiet s hw hscopes hloader :=
    ⟨hw.congr hscopes (congrArg Loader.cache hloader), hscopes ▸ .refl _ _⟩
  fresh := by
    intro w outer hw houter w₁
    have hw₁ : w₁.Sound := by
      cases outer with
      | none => exact hw.apply (a := .root) trivial (hw.holding.fresh none)
      | some o => exact hw.apply (a := .child o) (houter o rfl) (hw.holding.fresh (some o))
    refine ⟨hw₁, ?_, fun s w' h => h.of_fresh s⟩
    rw [Scopes.size_fresh]
    exact Nat.lt_succ_self _
  create := by
    intro w s v name hw hscope hv _ w₁
    have hfits : (Scopes.Action.create s name v).Fits w.scopes := hscope
    refine ⟨hw.apply hfits (hw.holding.create hv), .apply hw.arisen.formed hfits ?_⟩
    -- The scope that gains the name is the one in which names may be bound.
    rintro t n ⟨rfl, -⟩ hne
    exact absurd rfl hne
  assign := by
    intro w s v name hw hscope hv hpermits _ w₁
    have hfits : (Scopes.Action.assign s name v).Fits w.scopes := hscope
    refine ⟨hw.apply hfits (hw.holding.assign hv), .apply hw.arisen.formed hfits ?_⟩
    -- Without an owner on the way the last scope gains the name, and this is what `Permits` is
    -- about.
    rintro t n ⟨rfl, hlast, hnone⟩ -
    exact ⟨Scopes.outer?_getLast?_path hw.arisen.formed hlast, hpermits t hlast hnone⟩
  within hw _ := ⟨hw.congr rfl rfl, fun _ _ hw' hlead => ⟨hw'.congr rfl rfl, hlead⟩⟩
  remember _ hlead hw hmodule := ⟨⟨hw.arisen, hw.holding.remember hmodule⟩, hlead⟩

instance (G : ScopeId → Bytes → Prop) : Discipline.Lenient (.confined G) := ⟨trivial⟩

namespace Interpreter

variable {it : Interpreter} {bound : Nat} {node : Node} {scope t : ScopeId} {name : Bytes}
  {w w' : World}

/-! ## Sessions -/

/-- Outermost scopes may come to own any name. -/
abbrev loose : Discipline := .confined fun _ _ => True

theorem permits_loose (scopes : Scopes) (s : ScopeId) (name : Bytes) :
    loose.Permits scopes s name :=
  fun _ _ _ => trivial

/-- A world is sound at the start. -/
theorem sound_start (files : Files) (journal : Journal) : (World.start files journal).Sound where
  arisen := ⟨[.root], ⟨trivial, trivial⟩, rfl⟩
  holding := World.holding_start files journal _

section

variable (hit : it.registry = standard)

include hit

/-- A world that is reached from the start is sound. -/
theorem Reachable.sound (h : it.Reachable w) : w.Sound :=
  h.holds (D := loose) hit permits_loose (fun _ _ hscope => hscope) sound_start

/-- A program starts in a sound world, in one of its scopes. -/
theorem Starts.sound {p : Program} (h : it.Starts p scope w) : w.Sound ∧ scope < w.scopes.size := by
  cases h with
  | program h hscope => exact ⟨h.sound hit, hscope⟩
  | file h hscope hstart =>
    have hcache := congrArg Loader.cache hstart.loader_eq
    exact ⟨(h.sound hit).congr hstart.scopes_eq hcache, hstart.scopes_eq ▸ hscope⟩

end

/-! ## One point of a run -/

/-- A plain assignment to a name that no scope on its way owns. It makes the last scope of the way,
an outermost one, the owner. -/
inductive ImplicitAt (t : ScopeId) (name : Bytes) (bound : Nat) (parts : Evaluator) :
    Node → ScopeId → World → Prop where
  | intro {pos : Nat} {target : Name} {right : Expr} {scope : ScopeId} {v : Value} {w w₁ u : World}
      (hlog : announce (.expr (.infixed pos .assign (.ident target) right)) w = some ((), w₁))
      (hright : parts (.expr right) scope w₁ = some (v, u)) (hv : v.isError = false)
      (htarget : target.text = name) (hlast : (u.scopes.path scope).getLast? = some t)
      (hnone : ∀ o ∈ u.scopes.path scope, u.scopes.owns o name = false) :
      ImplicitAt t name bound parts (.expr (.infixed pos .assign (.ident target) right)) scope w

open Classical in
noncomputable instance (t : ScopeId) (name : Bytes) (bound : Nat) (parts : Evaluator) (node : Node)
    (scope : ScopeId) (w : World) : Decidable (ImplicitAt t name bound parts node scope w) :=
  inferInstance

/-- Around a loop and around a call nothing leaks. Names that outermost scopes come to own are given
to them by assignments in the loop, or in the body of the function that is called. -/
structure NoLeakAt (it : Interpreter) (bound : Nat) (_parts : Evaluator) (node : Node)
    (scope : ScopeId) (w : World) : Prop where
  loop : ∀ e v w', node = .expr e → e.isLoop = true →
    it.eval (bound + 1) node scope w = some (v, w') →
    w.scopes.Confined w'.scopes fun t name => it.Sometime (ImplicitAt t name)
      (bound + 1) node scope w
  call : ∀ e w₁ stamp parameters body outer args u v w', node = .expr e →
    announce node w = some ((), w₁) →
    CallOf (it.eval bound) scope w₁ e (.function stamp parameters body outer) args u →
    it.apply (it.eval bound) (.function stamp parameters body outer) args u = some (v, w') →
    u.scopes.Confined w'.scopes fun t name => ∃ inner u',
      enter outer parameters args u = some (inner, u') ∧
      it.Sometime (ImplicitAt t name) bound (.block body) inner u'

open Classical in
noncomputable instance (bound : Nat) (parts : Evaluator) (node : Node)
    (scope : ScopeId) (w : World) :
    Decidable (it.NoLeakAt bound parts node scope w) :=
  inferInstance

/-! ## Runs without a certain implicit binding -/

/-- Every name but one in one scope. -/
abbrev strict (t : ScopeId) (name : Bytes) : Discipline := .confined fun s n => ¬ (s = t ∧ n = name)

section

variable (hit : it.registry = standard)

include hit

/-- A run that stops before a certain implicit binding gives no scope that name in this way. -/
theorem together_watch_strict (t : ScopeId) (name : Bytes) (fault : Fault) (bound : Nat) :
    Together (strict t name) (.stopping fault)
      (it.watch (Check.not (ImplicitAt t name)) fault bound)
      (it.watch (Check.not (ImplicitAt t name)) fault bound) := by
  induction bound with
  | zero => exact fun _ _ _ _ _ _ => .inl ⟨rfl, by rintro _ _ ⟨⟩⟩
  | succ bound ih =>
    intro node scope w hfits hw hscope
    by_cases h : Check.not (ImplicitAt t name) bound
        (it.watch (Check.not (ImplicitAt t name)) fault bound) node scope w
    · -- The watch lets the node pass, so if it is an assignment it does not make this binding.
      refine .congr (watch_of_check h) (watch_of_check h)
        (lockstep_evalNode ih hit bound hw hscope hfits ?_ fun _ _ _ _ => .of_lenient)
      rintro e w₁ rfl hlog
      refine .of_lenient ?_
      rintro pos target right v u rfl hright hv s hlast hnone ⟨rfl, rfl⟩
      exact h (.intro hlog hright hv rfl hlast hnone)
    · exact .inr ⟨w, watch_of_not_check h⟩

/-! ## Loops and calls -/

/-- Every evaluation keeps a world sound. -/
theorem together_loose (bound : Nat) : Together loose .never (it.eval bound) (it.eval bound) :=
  together_eval hit permits_loose bound

omit hit in
/-- A loop is run in lockstep as seen from any scope, as its rounds have scopes of their own. -/
theorem lockstep_evalNode_loop {D : Discipline} {P : Parting} {self self' : Evaluator}
    (hself : Together D P self self') (s : ScopeId) (hw : D.Holds w)
    (hscope : D.Open w.scopes scope) (rounds : Nat) {e : Expr} (hfits : D.Fits (.expr e))
    (he : e.isLoop = true) :
    Run.Lockstep D P .error s D.Yields (it.evalNode rounds self (.expr e) scope)
      (it.evalNode rounds self' (.expr e) scope) w := by
  refine .after_quiet hw (Run.quiet_log _ _ _) fun _ w₁ hw₁ hscopes _ _ => ?_
  cases e with
  | loop pos letPos counter start condition step body =>
    exact lockstep_loop hself s hw₁ (hscopes ▸ hscope) rounds hfits
  | _ => cases he

/-- The scopes around a loop come to own only names that the loop binds implicitly. -/
theorem confined_loop (hw : w.Sound) (hscope : scope < w.scopes.size) {e : Expr}
    (he : e.isLoop = true) {v : Value}
    (hrun : it.eval (bound + 1) (.expr e) scope w = some (v, w')) :
    w.scopes.Confined w'.scopes fun t name =>
      it.Sometime (ImplicitAt t name) (bound + 1) (.expr e) scope w := by
  refine .of_grown ?_ ?_
  · -- A loop may be evaluated from anywhere, so also from the scope past the last one.
    exact ((lockstep_evalNode_loop (together_loose hit bound) _ hw hscope bound (.of_lax id)
      he).keeps v w' hrun).2.1
  · intro t name hnot
    have hthroughout := Classical.not_not.mp hnot
    -- A loop is no assignment, so the watch does not step in before it.
    have hcheck : ∀ parts, Check.not (ImplicitAt t name) bound parts (.expr e) scope w := by
      rintro parts ⟨⟩
      cases he
    have hwatch : ∀ fault, it.evalNode bound (it.watch (Check.not (ImplicitAt t name)) fault bound)
        (.expr e) scope w = some (v, w') := by
      intro fault
      rw [← watch_of_check (hcheck _), hthroughout fault, hrun]
    exact (Run.Lockstep.keeps_of_stopping hwatch fun fault =>
      lockstep_evalNode_loop (together_watch_strict hit t name fault bound) _ hw hscope
        bound (.of_lax id) he).2.1

/-- The scopes around a call come to own only names that the body binds implicitly. -/
theorem confined_call (hw : w.Sound) {stamp : Stamp} {parameters : List Name} {body : Block}
    {outer : ScopeId} {args : List Value} {v : Value} (houter : outer < w.scopes.size)
    (hargs : ∀ v ∈ args, v.Within w.scopes.size)
    (hrun : it.apply (it.eval bound) (.function stamp parameters body outer) args w =
      some (v, w')) :
    w.scopes.Confined w'.scopes fun t name => ∃ inner u,
      enter outer parameters args w = some (inner, u) ∧
      it.Sometime (ImplicitAt t name) bound (.block body) inner u := by
  by_cases hcount : args.length = parameters.length
  · rw [apply_function hcount] at hrun
    obtain ⟨v, u, hbody, hrun⟩ := Run.exists_of_bind_eq_some hrun
    obtain ⟨-, rfl⟩ := Prod.mk.inj (Option.some.inj hrun)
    refine .of_grown ?_ ?_
    · exact ((lockstep_body (together_loose hit bound) _ hw houter parameters hargs
        (.of_lax id)).keeps v u hbody).2.1
    · intro t name hnot
      have hwatch : ∀ fault, (enter outer parameters args >>=
          it.watch (Check.not (ImplicitAt t name)) fault bound (.block body)) w = some (v, u) := by
        intro fault
        obtain ⟨inner, u', henter, hbody⟩ := Run.exists_of_bind_eq_some hbody
        have hthroughout : it.Throughout (Check.not (ImplicitAt t name)) bound
          (.block body) inner u' :=
          Classical.not_not.mp fun h => hnot ⟨inner, u', henter, h⟩
        rw [Run.bind_apply, henter, Option.bind_some, hthroughout fault, hbody]
      exact (Run.Lockstep.keeps_of_stopping hwatch fun fault =>
        lockstep_body (together_watch_strict hit t name fault bound) _ hw houter parameters hargs
          (.of_lax id)).2.1
  · -- A call with the wrong number of arguments does nothing.
    rw [apply, if_pos hcount] at hrun
    obtain ⟨-, rfl⟩ := Prod.mk.inj (Option.some.inj hrun)
    exact .of_grown (.refl _ _) fun _ _ _ => .refl _ _

/-- Nothing leaks from any node in a sound world. -/
theorem noLeakAt (hw : w.Sound) (hscope : scope < w.scopes.size) (bound : Nat) (parts : Evaluator)
    (node : Node) : it.NoLeakAt bound parts node scope w := by
  refine ⟨?_, ?_⟩
  · rintro e v w' rfl he hrun
    exact confined_loop hit hw hscope he hrun
  · rintro e w₁ stamp parameters body outer args u v w' rfl hlog hcall hrun
    obtain ⟨hscopes, hloader, -⟩ := Run.quiet_log _ _ _ _ _ _ hlog
    have hw₁ : w₁.Sound := hw.congr hscopes (congrArg Loader.cache hloader)
    obtain ⟨hu, -, hf, hargs⟩ :=
      hcall.keeps (together_loose hit bound) (.of_lax id) hw₁ (hscopes ▸ hscope)
    exact confined_call hit hu (loose.allows_function.mp hf).1 hargs hrun

end

/-- Nothing leaks from a loop or a call, at any point of a run that a session starts. -/
theorem throughout_noLeakAt (it : Interpreter) (hit : it.registry = standard)
    (p : Program) (bound : Nat) (scope : ScopeId) (w : World) (h : it.Starts p scope w) :
    it.Throughout it.NoLeakAt bound (.program p) scope w := by
  intro fault
  obtain ⟨hw, hscope⟩ := h.sound hit
  have htogether : Together loose .never (it.watch it.NoLeakAt fault bound) (it.eval bound) := by
    refine together_watch hit permits_loose ?_ bound
    exact fun bound node scope w _ hw hscope => .inl (noLeakAt hit hw hscope bound _ node)
  exact ((htogether (.program p) (.of_lax id) hw hscope).resolve_right id).1

/-- A loop in a function binds two names, and assigns one that no scope owns. -/
def looping : Bytes :=
  text "let f = fn() { for (let i = 0; i < 2; i += 1) { let y = i; z = y; } }; f();"

theorem throughout_looping :
    (parse looping).diagnostics = [] ∧
      plain.Starts (parse looping).program World.globalScope plainWorld ∧
      plain.Throughout plain.NoLeakAt 30 (.program (parse looping).program)
        World.globalScope plainWorld ∧
      (plain.eval 30 (.program (parse looping).program) World.globalScope plainWorld).map
        (fun result => [text "i", text "y", text "z"].map
          (result.2.scopes.owns World.globalScope)) =
        some [false, false, true] := by
  have hstarts : plain.Starts (parse looping).program World.globalScope plainWorld :=
    .program (.start _ _) (by decide) _
  refine ⟨by decide +kernel, hstarts, ?_, by decide +kernel⟩
  exact throughout_noLeakAt plain rfl _ 30 World.globalScope plainWorld hstarts

end Interpreter

end Rill
