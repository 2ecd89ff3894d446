import Rill.Proofs.Scope.Ownership

/-!
# What scopes come to own

A scope comes to own a name in two ways: the name is bound in it, or the scope is an outermost one
and the name is assigned from within it while no scope on the way owns it.

* `Action.Gains`: the names that an operation makes a scope own.
* `owns_apply_cases`: a scope comes to own no other names.
* `Scopes.Arisen`: the forests that can come about.
* `Scopes.Grown`: what a forest grows into while names are bound in one scope only.
-/

namespace Rill.Scopes

variable {scopes : Scopes} {a : Action} {name : Bytes} {s t : ScopeId} {G : ScopeId → Bytes → Prop}

/-! ## One operation -/

/-- An operation makes a scope the owner of a name, if it is not the owner before. -/
def Action.Gains (scopes : Scopes) (t : ScopeId) (name : Bytes) : Action → Prop
  | .root => False
  | .child _ => False
  | .create scope n _ => t = scope ∧ n = name
  | .assign scope n _ => n = name ∧ (scopes.path scope).getLast? = some t ∧
      ∀ s ∈ scopes.path scope, scopes.owns s n = false

/-- The stretch up to an owner that is not there is the whole path. -/
theorem upToOwner_eq_self {path : List ScopeId} (h : ∀ s ∈ path, scopes.owns s name = false) :
    scopes.upToOwner name path = path := by
  induction path with
  | nil => rfl
  | cons s rest ih =>
    obtain ⟨hs, hrest⟩ := List.forall_mem_cons.mp h
    rw [upToOwner, hs, ih hrest]
    rfl

/-- A path ends with an outermost scope. -/
theorem outer?_getLast?_path (hformed : scopes.Formed) (h : (scopes.path s).getLast? = some t) :
    scopes.outer? t = none := by
  induction s using Nat.strongRecOn with
  | ind s ih =>
    rw [path_eq hformed] at h
    cases houter : scopes.outer? s with
    | none =>
      obtain rfl : s = t := by simpa [houter] using h
      exact houter
    | some outer =>
      rw [houter, Option.elim_some, List.getLast?_cons_of_ne_nil (by simp [path_eq hformed])] at h
      exact ih outer (hformed s outer houter) h

/-- A scope owns what it owned before and what the operation gives it. -/
theorem owns_apply_cases (hformed : scopes.Formed) (hfits : a.Fits scopes)
    (h : (a.apply scopes).owns t name = true) :
    scopes.owns t name = true ∨ a.Gains scopes t name := by
  cases a with
  | root => exact .inl (by simpa [owns, Action.apply] using h)
  | child => exact .inl (by simpa [owns, Action.apply] using h)
  | create scope n v =>
    rw [owns, Action.apply, owned?_create hfits] at h
    split at h
    next hhere => exact .inr hhere
    next => exact .inl h
  | assign scope n v =>
    rw [owns, Action.apply, assign, owned?_assignAlong (lt_size_of_mem_path hformed hfits)] at h
    split at h
    next hlast =>
      obtain ⟨hlast, rfl⟩ := hlast
      -- The stretch ends at an owner, which gains nothing, or there is none and it is the whole
      -- path.
      by_cases howner : ∃ s ∈ scopes.path scope, scopes.owns s n = true
      · exact .inl (owns_getLast?_upToOwner howner hlast)
      · have hnone : ∀ s ∈ scopes.path scope, scopes.owns s n = false := by simpa using howner
        rw [upToOwner_eq_self hnone] at hlast
        exact .inr ⟨rfl, hlast, hnone⟩
    next => exact .inl h

/-- No action takes a scope away. -/
theorem size_le_apply (a : Action) (scopes : Scopes) : scopes.size ≤ (a.apply scopes).size := by
  cases a <;> simp [Action.apply, assign]

/-! ## Forests that can come about -/

/-- A forest that some history leaves behind. -/
def Arisen (scopes : Scopes) : Prop := ∃ h, History.Valid h ∧ History.replay h = scopes

namespace Arisen

/-- Scopes that have arisen from actions are well-formed. -/
theorem formed (h : scopes.Arisen) : scopes.Formed := by
  obtain ⟨h, hvalid, rfl⟩ := h
  exact History.formed_replay hvalid

/-- Scopes that have arisen from actions are anchored. -/
theorem anchored (h : scopes.Arisen) : scopes.Anchored := by
  obtain ⟨h, hvalid, rfl⟩ := h
  exact History.anchored_replay hvalid

/-- One more action that fits is taken. -/
theorem apply (h : scopes.Arisen) (hfits : a.Fits scopes) : (a.apply scopes).Arisen := by
  obtain ⟨h, hvalid, rfl⟩ := h
  exact ⟨a :: h, ⟨hfits, hvalid⟩, rfl⟩

end Arisen

/-! ## Growth -/

/-- A forest grows while names are bound in the scope `s` only: all else that scopes come to own are
names that `G` gives to outermost scopes. -/
structure Grown (G : ScopeId → Bytes → Prop) (s : ScopeId) (before after : Scopes) : Prop where
  size_le : before.size ≤ after.size
  outer?_eq : ∀ t, t < before.size → after.outer? t = before.outer? t
  kept : ∀ t name, t < before.size → before.owns t name = true → after.owns t name = true
  gained : ∀ t name, t < before.size → t ≠ s → after.owns t name = true →
    before.owns t name = true ∨ before.outer? t = none ∧ G t name

namespace Grown

variable {before after after' : Scopes}

theorem refl (s : ScopeId) (scopes : Scopes) : Grown G s scopes scopes :=
  ⟨Nat.le_refl _, fun _ _ => rfl, fun _ _ _ h => h, fun _ _ _ _ h => .inl h⟩

/-- What has grown twice has grown. -/
theorem trans (h : Grown G s before after) (h' : Grown G s after after') :
    Grown G s before after' := by
  have hlt : ∀ t, t < before.size → t < after.size := fun t ht => Nat.lt_of_lt_of_le ht h.size_le
  refine ⟨Nat.le_trans h.size_le h'.size_le, ?_, ?_, ?_⟩
  · intro t ht
    rw [h'.outer?_eq t (hlt t ht), h.outer?_eq t ht]
  · intro t name ht howns
    exact h'.kept t name (hlt t ht) (h.kept t name ht howns)
  · intro t name ht hne howns
    rcases h'.gained t name (hlt t ht) hne howns with howns | ⟨houter, hG⟩
    · exact h.gained t name ht hne howns
    · exact .inr ⟨h.outer?_eq t ht ▸ houter, hG⟩

/-- One operation, if all that it gives to other scopes than `s` is given by `G`. -/
theorem apply (hformed : scopes.Formed) (hfits : a.Fits scopes)
    (hgains : ∀ t name, a.Gains scopes t name → t ≠ s → scopes.outer? t = none ∧ G t name) :
    Grown G s scopes (a.apply scopes) := by
  refine ⟨size_le_apply a scopes, fun t ht => outer?_apply ht,
    fun t name _ => owns_apply hformed hfits, ?_⟩
  intro t name _ hne howns
  exact (owns_apply_cases hformed hfits howns).imp_right fun h => hgains t name h hne

/-- What happens in a scope that is not there yet is no matter of the scopes that are. -/
theorem of_fresh {outer : Option ScopeId}
    (h : Grown G scopes.size (scopes.fresh outer).2 after) (s : ScopeId) :
    Grown G s scopes after := by
  -- The new scope comes behind all scopes from before, so these are as they were.
  have hsize : scopes.size ≤ (scopes.fresh outer).2.size := by simp
  have hlt : ∀ t, t < scopes.size → t < (scopes.fresh outer).2.size := fun t ht =>
    Nat.lt_of_lt_of_le ht hsize
  have houter : ∀ t, t < scopes.size → (scopes.fresh outer).2.outer? t = scopes.outer? t := by
    intro t ht
    rw [outer?_fresh, if_neg (Nat.ne_of_lt ht)]
  have howns : ∀ t name, (scopes.fresh outer).2.owns t name = scopes.owns t name := by
    intro t name
    rw [owns, owned?_fresh, owns]
  refine ⟨Nat.le_trans hsize h.size_le, ?_, ?_, ?_⟩
  · intro t ht
    rw [h.outer?_eq t (hlt t ht), houter t ht]
  · intro t name ht hbefore
    exact h.kept t name (hlt t ht) (by rwa [howns])
  · intro t name ht _ hafter
    have hgained := h.gained t name (hlt t ht) (Nat.ne_of_lt ht) hafter
    rwa [howns, houter t ht] at hgained

end Grown

end Rill.Scopes
