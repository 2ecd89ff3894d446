import Rill.Proofs.Run.Quiet
import Rill.Proofs.Scope.Writes
import Rill.Proofs.Signal.Reach

/-!
# Computations in a shelter

How the computations on the world treat a shelter of settled bindings, with one rule for each way to
build a computation.

`Run.Agrees` says that two computations do the same from a world and leave the shelter whole. The
two sides differ in the evaluator that they call, which need only agree where the shelter is whole.
-/

namespace Rill

/-! ## Worlds -/

namespace World.Sheltered

variable {S : ScopeId → Prop} {base : Nat} {w w' : World} {scope : ScopeId} {name : Bytes}
  {value : Value}

/-- A shelter rests on nothing but the scopes and the modules that were loaded. -/
theorem congr (hw : Sheltered S base w) (hscopes : w'.scopes = w.scopes)
    (hcache : w'.loader.cache = w.loader.cache) : Sheltered S base w' := by
  obtain ⟨hsize, hfresh, houter, hstored, howned, hcached⟩ := hw
  exact ⟨hscopes ▸ hsize, hfresh, hscopes ▸ houter, hscopes ▸ hstored, hscopes ▸ howned,
    hcache ▸ hcached⟩

/-- A shelter that starts earlier is whole if all scopes from there on belong to it. -/
theorem mono {base' : Nat} (hw : Sheltered S base' w) (hbase : base ≤ base')
    (hfresh : ∀ s, base ≤ s → S s) : Sheltered S base w :=
  { hw with base_le_size := Nat.le_trans hbase hw.base_le_size, fresh := hfresh }

/-- A fresh scope is in the shelter, and from then on there is room for one scope more. -/
theorem fresh_scope (hw : Sheltered S base w) {outer : Option ScopeId}
    (houter : ∀ o, outer = some o → S o) :
    Sheltered S (w.scopes.size + 1) { w with scopes := (w.scopes.fresh outer).2 } := by
  refine ⟨?_, ?_, ?_, ?_, ?_, hw.cached⟩
  · exact Nat.le_of_eq (Scopes.size_fresh w.scopes outer).symm
  · intro s hs
    exact hw.fresh s (Nat.le_trans hw.base_le_size (Nat.le_trans (Nat.le_succ _) hs))
  · intro s o hs ho
    rw [Scopes.outer?_fresh] at ho
    split at ho
    · exact houter o ho
    · exact hw.outer s o hs ho
  · intro s n v hs hv
    rw [Scopes.stored?_fresh] at hv
    exact hw.stored s n v hs hv
  · intro s n v hs hv
    rw [Scopes.owned?_fresh] at hv
    exact hw.owned s n v hs hv

/-- A binding of a settled value keeps the shelter whole. -/
theorem create (hw : Sheltered S base w) (hvalue : value.Settled S) :
    Sheltered S base { w with scopes := w.scopes.create scope name value } := by
  refine ⟨?_, hw.fresh, ?_, ?_, ?_, hw.cached⟩
  · rw [Scopes.size_create]
    exact hw.base_le_size
  · intro s o hs ho
    rw [Scopes.outer?_create] at ho
    exact hw.outer s o hs ho
  · intro s n v hs hv
    rcases Scopes.stored?_create_cases hv with hv | rfl
    · exact hw.stored s n v hs hv
    · exact hvalue
  · intro s n v hs hv
    rcases Scopes.owned?_create_cases hv with hv | rfl
    · exact hw.owned s n v hs hv
    · exact hvalue

/-- An assignment of a settled value keeps the shelter whole. -/
theorem assign (hw : Sheltered S base w) (hvalue : value.Settled S) :
    Sheltered S base { w with scopes := (w.scopes.assign scope name value).2 } := by
  refine ⟨?_, hw.fresh, ?_, ?_, ?_, hw.cached⟩
  · rw [Scopes.assign, Scopes.size_assignAlong]
    exact hw.base_le_size
  · intro s o hs ho
    rw [Scopes.assign, Scopes.outer?_assignAlong] at ho
    exact hw.outer s o hs ho
  · intro s n v hs hv
    rcases Scopes.stored?_assignAlong_cases hv with hv | rfl
    · exact hw.stored s n v hs hv
    · exact hvalue
  · intro s n v hs hv
    rcases Scopes.owned?_assignAlong_cases hv with hv | rfl
    · exact hw.owned s n v hs hv
    · exact hvalue

/-- What a name stands for in a sheltered scope is settled. -/
theorem get? (hw : Sheltered S base w) (hscope : S scope)
    (h : w.scopes.get? scope name = some value) :
    value.Settled S := by
  obtain ⟨s, hs, hv⟩ := Scopes.exists_stored?_of_get? hw.outer hscope h
  exact hw.stored s name value hs hv

/-- A module that is settled can be remembered. -/
theorem cache (hw : Sheltered S base w) {path : Bytes} {loaded : LoadedModule}
    (hmodule : loaded.module.Settled S) :
    Sheltered S base { w with loader := w.loader.remember path loaded } := by
  refine ⟨hw.base_le_size, hw.fresh, hw.outer, hw.stored, hw.owned, ?_⟩
  intro p found hfound
  rw [Loader.remember, Table.get?_put] at hfound
  split at hfound
  · exact Option.some.inj hfound ▸ hmodule
  · exact hw.cached p found hfound

end World.Sheltered

/-! ## Computations -/

namespace Run

variable {α β : Type} {S : ScopeId → Prop} {base : Nat} {w : World} {Q : α → Prop} {R : β → Prop}

/-- From `w` two computations do the same, keep the shelter whole, and have a result as `Q` says. -/
def Agrees (S : ScopeId → Prop) (base : Nat) (Q : α → Prop) (x y : Run α) (w : World) : Prop :=
  x w = y w ∧ ∀ a w', x w = some (a, w') → w'.Sheltered S base ∧ Q a

namespace Agrees

/-- A result without a step keeps the shelter whole. -/
theorem pure (hw : w.Sheltered S base) {a : α} (ha : Q a) :
    Agrees S base Q (pure a : Run α) (pure a) w := by
  refine ⟨rfl, ?_⟩
  intro b w' h
  obtain ⟨rfl, rfl⟩ := Prod.mk.inj (Option.some.inj h)
  exact ⟨hw, ha⟩

/-- What follows a step may assume of its result and of the world after it what the step ensures. -/
theorem bind {x y : Run α} {f g : α → Run β} (hx : Agrees S base Q x y w)
    (hf : ∀ a w', x w = some (a, w') → w'.Sheltered S base → Q a → Agrees S base R (f a) (g a) w') :
    Agrees S base R (x >>= f) (y >>= g) w := by
  obtain ⟨heq, hpost⟩ := hx
  constructor
  · rw [bind_apply, bind_apply, ← heq]
    cases hxw : x w with
    | none => rfl
    | some p =>
      obtain ⟨hw', hQ⟩ := hpost p.1 p.2 hxw
      exact (hf p.1 p.2 hxw hw' hQ).1
  · intro b w' h
    obtain ⟨a, u, hxa, hfb⟩ := exists_of_bind_eq_some h
    obtain ⟨hw', hQ⟩ := hpost a u hxa
    exact (hf a u hxa hw' hQ).2 b w' hfb

/-- A weaker statement about the result holds where a stronger one does. -/
theorem imp {Q' : α → Prop} {x y : Run α} (hx : Agrees S base Q x y w)
    (h : ∀ a w', x w = some (a, w') → Q a → Q' a) : Agrees S base Q' x y w := by
  refine ⟨hx.1, ?_⟩
  intro a w' hxa
  obtain ⟨hw', ha⟩ := hx.2 a w' hxa
  exact ⟨hw', h a w' hxa ha⟩

/-- Two computations agree from either side. -/
theorem symm {x y : Run α} (h : Agrees S base Q x y w) : Agrees S base Q y x w :=
  ⟨h.1.symm, fun a w' hy => h.2 a w' (h.1.trans hy)⟩

/-- A quiet computation agrees with itself. -/
theorem of_quiet {x : Run α} (hw : w.Sheltered S base) (hx : Quiet Q x) :
    Agrees S base Q x x w := by
  refine ⟨rfl, ?_⟩
  intro a w' h
  obtain ⟨hscopes, hloader, ha⟩ := hx w a w' h
  exact ⟨hw.congr hscopes (congrArg Loader.cache hloader), ha⟩

/-- A computation that works in a fresh scope. -/
theorem bind_scope {f g : ScopeId → Run α} (hw : w.Sheltered S base) {outer : Option ScopeId}
    (houter : ∀ o, outer = some o → S o)
    (hf : ∀ id w', scope outer w = some (id, w') → base ≤ id → S id → w'.Sheltered S (id + 1) →
      Agrees S (id + 1) Q (f id) (g id) w') :
    Agrees S base Q (scope outer >>= f) (scope outer >>= g) w := by
  have hid : S w.scopes.size := hw.fresh _ hw.base_le_size
  obtain ⟨heq, hpost⟩ := hf w.scopes.size _ rfl hw.base_le_size hid (hw.fresh_scope houter)
  refine ⟨heq, ?_⟩
  intro a w' h
  obtain ⟨hw', ha⟩ := hpost a w' h
  -- The inner computation keeps the bound behind its scope, which lies beyond the bound asked for
  -- here.
  exact ⟨hw'.mono (Nat.le_succ_of_le hw.base_le_size) hw.fresh, ha⟩

end Agrees

variable {scope : ScopeId} {name : Bytes} {value : Value}

/-- A look at the world agrees with itself. -/
theorem agrees_get (hw : w.Sheltered S base) :
    Agrees S base (fun whole => w = whole) (MonadState.get : Run World) MonadState.get w := by
  refine ⟨rfl, ?_⟩
  intro whole w' h
  obtain ⟨rfl, rfl⟩ := Prod.mk.inj (Option.some.inj h)
  exact ⟨hw, rfl⟩

/-- A change of the world agrees with itself if it keeps the shelter whole. -/
theorem agrees_modify {f : World → World} (hw : (f w).Sheltered S base) :
    Agrees S base (fun _ => True) (modify f : Run PUnit) (modify f) w := by
  refine ⟨rfl, ?_⟩
  intro a w' h
  obtain ⟨-, rfl⟩ := Prod.mk.inj (Option.some.inj h)
  exact ⟨hw, trivial⟩

/-- Reading a name in a sheltered scope agrees with itself, and gives a settled value. -/
theorem agrees_get? (hw : w.Sheltered S base) (hscope : S scope) :
    Agrees S base (fun found => ∀ v, found = some v → v.Settled S) (get? scope name)
      (get? scope name) w := by
  refine ⟨rfl, ?_⟩
  intro found w' h
  obtain ⟨rfl, rfl⟩ := Prod.mk.inj (Option.some.inj h)
  exact ⟨hw, fun v hv => hw.get? hscope hv⟩

/-- A binding of a settled value agrees with itself. -/
theorem agrees_create (hw : w.Sheltered S base) (hvalue : value.Settled S) :
    Agrees S base (fun _ => True) (create scope name value) (create scope name value) w := by
  refine (agrees_modify (hw.create hvalue)).bind fun _ w' _ hw' _ => ?_
  exact .of_quiet hw' (quiet_log _ _ _)

/-- An assignment of a settled value agrees with itself. -/
theorem agrees_assign (hw : w.Sheltered S base) (hvalue : value.Settled S) :
    Agrees S base (fun _ => True) (assign scope name value) (assign scope name value) w := by
  refine Agrees.bind (Q := fun _ => True) ⟨rfl, ?_⟩ ?_
  · intro a w' h
    obtain ⟨-, rfl⟩ := Prod.mk.inj (Option.some.inj h)
    exact ⟨hw.assign hvalue, trivial⟩
  · intro implicit w' _ hw' _
    dsimp only
    split
    · exact (Agrees.of_quiet hw' (quiet_log _ _ _)).bind fun _ _ _ hw'' _ =>
        .of_quiet hw'' (quiet_log _ _ _)
    · exact .of_quiet hw' (quiet_log _ _ _)

end Run

end Rill
