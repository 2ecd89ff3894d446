import Rill.Proofs.Run.Reach
import Rill.Proofs.Scope.Writes
import Rill.Proofs.Value.Parts

/-!
# What is bound

A property of all values that are bound in a scope or remembered as modules stays so when only such
values are bound and remembered.

* `World.Holding`: every bound value and every remembered module has a property.
* `World.Holding.each_of_reaches`: if the property is one of parts, whatever can be got at has it.
-/

namespace Rill.World

/-- Every value that is bound somewhere, and every module that was loaded, has a property. -/
structure Holding (P : Value → Prop) (w : World) : Prop where
  stored : ∀ s name v, w.scopes.stored? name s = some v → P v
  owned : ∀ s name v, w.scopes.owned? name s = some v → P v
  cached : ∀ path loaded, w.loader.cache.get? path = some loaded → P loaded.module

namespace Holding

variable {P P' : Value → Prop} {w w' : World} {s : ScopeId} {name : Bytes} {v : Value}

/-- What is held depends on scopes and modules only. -/
theorem congr (h : w.Holding P) (hscopes : w'.scopes = w.scopes)
    (hcache : w'.loader.cache = w.loader.cache) : w'.Holding P := by
  obtain ⟨hstored, howned, hcached⟩ := h
  exact ⟨hscopes ▸ hstored, hscopes ▸ howned, hcache ▸ hcached⟩

/-- A weaker property is held where a stronger one is. -/
theorem imp (h : w.Holding P) (hP : ∀ v, P v → P' v) : w.Holding P' where
  stored s name v hv := hP v (h.stored s name v hv)
  owned s name v hv := hP v (h.owned s name v hv)
  cached path loaded hloaded := hP _ (h.cached path loaded hloaded)

/-- A new scope holds nothing. -/
theorem fresh (h : w.Holding P) (outer : Option ScopeId) :
    World.Holding P { w with scopes := (w.scopes.fresh outer).2 } where
  stored s name v hv := h.stored s name v (by rwa [Scopes.stored?_fresh] at hv)
  owned s name v hv := h.owned s name v (by rwa [Scopes.owned?_fresh] at hv)
  cached := h.cached

/-- A binding of a fit value keeps all that is held fit. -/
theorem create (h : w.Holding P) (hv : P v) :
    World.Holding P { w with scopes := w.scopes.create s name v } := by
  refine ⟨?_, ?_, h.cached⟩
  · intro t n u hu
    rcases Scopes.stored?_create_cases hu with hu | rfl
    · exact h.stored t n u hu
    · exact hv
  · intro t n u hu
    rcases Scopes.owned?_create_cases hu with hu | rfl
    · exact h.owned t n u hu
    · exact hv

/-- An assignment of a fit value keeps all that is held fit. -/
theorem assign (h : w.Holding P) (hv : P v) :
    World.Holding P { w with scopes := (w.scopes.assign s name v).2 } := by
  refine ⟨?_, ?_, h.cached⟩
  · intro t n u hu
    rcases Scopes.stored?_assignAlong_cases hu with hu | rfl
    · exact h.stored t n u hu
    · exact hv
  · intro t n u hu
    rcases Scopes.owned?_assignAlong_cases hu with hu | rfl
    · exact h.owned t n u hu
    · exact hv

/-- A fit module can be remembered. -/
theorem remember (h : w.Holding P) {path : Bytes} {loaded : LoadedModule}
    (hmodule : P loaded.module) :
    World.Holding P { w with loader := w.loader.remember path loaded } := by
  refine ⟨h.stored, h.owned, ?_⟩
  intro p found hfound
  rw [Loader.remember, Table.get?_put] at hfound
  split at hfound
  · exact Option.some.inj hfound ▸ hmodule
  · exact h.cached p found hfound

/-- What a name stands for is fit. -/
theorem get? (h : w.Holding P) (hv : w.scopes.get? s name = some v) : P v := by
  obtain ⟨t, -, hv⟩ := List.exists_of_findSome?_eq_some hv
  exact h.stored t name v hv

/-- Whatever can be got at is made of such parts, if this holds of what is bound and of the
roots. -/
theorem each_of_reaches {L : Value → Prop} (h : w.Holding (Value.Each L)) {roots : Item → Prop}
    (hroots : ∀ v, roots (.value v) → v.Each L) (hv : w.Reaches roots (.value v)) : v.Each L := by
  -- The way leads through scopes as well, of which there is nothing to say.
  have hitem : ∀ i, w.Reaches roots i → ∀ v, i = .value v → v.Each L := by
    intro i hi
    induction hi with
    | root hroot =>
      rintro v rfl
      exact hroots v hroot
    | outer | module | function => rintro v ⟨⟩
    | stored _ hv =>
      rintro v ⟨⟩
      exact h.stored _ _ _ hv
    | owned _ hv =>
      rintro v ⟨⟩
      exact h.owned _ _ _ hv
    | element _ hv ih =>
      rintro v ⟨⟩
      exact Value.Each.array_iff.mp (ih _ rfl) _ hv
    | key _ he ih =>
      rintro v ⟨⟩
      exact (Value.Each.hash_iff.mp (ih _ rfl) _ he).1
    | entry _ he ih =>
      rintro v ⟨⟩
      exact (Value.Each.hash_iff.mp (ih _ rfl) _ he).2
    | carried _ ih =>
      rintro v ⟨⟩
      exact Value.Each.returned_iff.mp (ih _ rfl)
  exact hitem _ hv v rfl

end Holding

end Rill.World
