import Rill.Proofs.Scope.Forest

/-!
# Histories of a forest

A history is a finite sequence of the four operations on scopes: making an outermost scope, making a
scope inside another one, binding a name and assigning to a name. `History.replay` is the forest
that it leaves behind, and `History.Valid` says that every operation was made on scopes that were
there.

* `Action.writes?`: the value that an operation puts into the store of a scope under a name.
* `stored?_apply`: this is all that an operation does to stores.
* `owned?_apply_eq_some`: an owned table changes together with its store, and to the same value.
* `owns_apply`: no operation takes a name from its owner.
-/

namespace Rill.Scopes

/-- An operation on a forest. -/
inductive Action where
  /-- Makes an outermost scope. -/
  | root
  /-- Makes a scope inside another one. -/
  | child (outer : ScopeId)
  /-- Binds a name in a scope. -/
  | create (scope : ScopeId) (name : Bytes) (value : Value)
  /-- Assigns to a name, seen from a scope. -/
  | assign (scope : ScopeId) (name : Bytes) (value : Value)

namespace Action

/-- The forest after an operation. -/
def apply : Action → Scopes → Scopes
  | root, scopes => (scopes.fresh none).2
  | child outer, scopes => (scopes.fresh (some outer)).2
  | create scope name value, scopes => scopes.create scope name value
  | assign scope name value, scopes => (scopes.assign scope name value).2

/-- The scope that an operation is made on is there. -/
def Fits (scopes : Scopes) : Action → Prop
  | root => True
  | child outer => outer < scopes.size
  | create scope _ _ => scope < scopes.size
  | assign scope _ _ => scope < scopes.size

/-- The value that an operation puts into the store of scope `s` under a name. -/
def writes? (scopes : Scopes) (name : Bytes) (s : ScopeId) : Action → Option Value
  | root => none
  | child _ => none
  | create scope n value => if s = scope ∧ n = name then some value else none
  | assign scope n value =>
    if s ∈ scopes.upToOwner n (scopes.path scope) ∧ n = name then some value else none

end Action

/-- Operations on a forest that starts empty, the latest first. -/
abbrev History := List Action

namespace History

/-- The forest after a history. -/
def replay : History → Scopes
  | [] => #[]
  | a :: h => a.apply (replay h)

/-- Every operation was made on a scope that was there. -/
def Valid : History → Prop
  | [] => True
  | a :: h => a.Fits (replay h) ∧ Valid h

end History

variable {scopes : Scopes} {a : Action} {name : Bytes} {s : ScopeId}

/-! ## One operation -/

/-- Operations keep a forest formed. -/
theorem formed_apply (hformed : scopes.Formed) (hfits : a.Fits scopes) :
    (a.apply scopes).Formed := by
  intro scope outer houter
  cases a with
  | root =>
    rw [Action.apply, outer?_fresh] at houter
    split at houter
    · simp at houter
    · exact hformed scope outer houter
  | child parent =>
    rw [Action.apply, outer?_fresh] at houter
    split at houter
    next hscope =>
      cases houter
      -- The parent is one of the scopes from before, so it has a lower number.
      rw [hscope]
      exact hfits
    next => exact hformed scope outer houter
  | create => exact hformed scope outer (by simpa [Action.apply] using houter)
  | assign => exact hformed scope outer (by simpa [Action.apply, assign] using houter)

/-- The scope around a scope stays the same. -/
theorem outer?_apply (hs : s < scopes.size) : (a.apply scopes).outer? s = scopes.outer? s := by
  cases a with
  | root => rw [Action.apply, outer?_fresh, if_neg (Nat.ne_of_lt hs)]
  | child => rw [Action.apply, outer?_fresh, if_neg (Nat.ne_of_lt hs)]
  | create => simp [Action.apply]
  | assign => simp [Action.apply, assign]

/-- The path of a scope stays the same. -/
theorem path_apply (hformed : scopes.Formed) (hfits : a.Fits scopes) (hs : s < scopes.size) :
    (a.apply scopes).path s = scopes.path s := by
  induction s using Nat.strongRecOn with
  | ind s ih =>
    rw [path_eq (formed_apply hformed hfits), path_eq hformed, outer?_apply hs]
    cases houter : scopes.outer? s with
    | none => rfl
    | some outer =>
      have hlt := hformed s outer houter
      rw [Option.elim_some, Option.elim_some, ih outer hlt (Nat.lt_trans hlt hs)]

/-- The scopes of a path are there if its first scope is. -/
theorem lt_size_of_mem_path (hformed : scopes.Formed) {scope : ScopeId}
    (hscope : scope < scopes.size) :
    ∀ s ∈ scopes.path scope, s < scopes.size :=
  fun _ hs => Nat.lt_of_le_of_lt (le_of_mem_path hformed hs) hscope

/-- A store holds what the operation puts there, and otherwise what it held before. -/
theorem stored?_apply (hformed : scopes.Formed) (hfits : a.Fits scopes) (name : Bytes)
    (s : ScopeId) :
    (a.apply scopes).stored? name s = (a.writes? scopes name s).or (scopes.stored? name s) := by
  cases a with
  | root => simp [Action.apply, Action.writes?]
  | child => simp [Action.apply, Action.writes?]
  | create scope n value =>
    rw [Action.apply, stored?_create hfits, Action.writes?]
    split <;> rfl
  | assign scope n value =>
    rw [Action.apply, assign, stored?_assignAlong (lt_size_of_mem_path hformed hfits),
      Action.writes?]
    split <;> rfl

/-- The owner of a name in a stretch that ends at the owner is the end of the stretch. -/
private theorem getLast?_upToOwner {path : List ScopeId} (h : s ∈ scopes.upToOwner name path)
    (howns : scopes.owns s name = true) : (scopes.upToOwner name path).getLast? = some s := by
  induction path with
  | nil => simp [upToOwner] at h
  | cons t rest ih =>
    rw [upToOwner] at h ⊢
    split at h
    next ht =>
      rw [if_pos ht, List.mem_singleton.mp h]
      rfl
    next ht =>
      have hs : s ∈ scopes.upToOwner name rest := by
        rcases List.mem_cons.mp h with rfl | h
        · exact absurd howns ht
        · exact h
      rw [if_neg ht, List.getLast?_cons_of_ne_nil (List.ne_nil_of_mem hs), ih hs]

/-- What a scope owns after an operation is what the operation put into its store, or what it owned
before if the operation passed it by. -/
theorem owned?_apply_eq_some (hformed : scopes.Formed) (hfits : a.Fits scopes) {value : Value}
    (h : (a.apply scopes).owned? name s = some value) :
    (a.writes? scopes name s).or (scopes.owned? name s) = some value := by
  cases a with
  | root => simpa [Action.apply, Action.writes?] using h
  | child => simpa [Action.apply, Action.writes?] using h
  | create scope n v =>
    rw [Action.apply, owned?_create hfits] at h
    rw [Action.writes?]
    split at h
    next hhere => simpa [hhere] using h
    next helse => simpa [if_neg helse] using h
  | assign scope n v =>
    rw [Action.apply, assign, owned?_assignAlong (lt_size_of_mem_path hformed hfits)] at h
    rw [Action.writes?]
    split at h
    next hlast =>
      rw [if_pos ⟨List.mem_of_getLast? hlast.1, hlast.2⟩]
      simpa using h
    next hlast =>
      -- The scope owns the name, so it would be the last one of a stretch that it stands on.
      have hnot : ¬(s ∈ scopes.upToOwner n (scopes.path scope) ∧ n = name) := by
        rintro ⟨hmem, rfl⟩
        exact hlast ⟨getLast?_upToOwner hmem (by simp [owns, h]), rfl⟩
      rw [if_neg hnot]
      simpa using h

/-- No operation takes a name from its owner. -/
theorem owns_apply (hformed : scopes.Formed) (hfits : a.Fits scopes)
    (h : scopes.owns s name = true) :
    (a.apply scopes).owns s name = true := by
  cases a with
  | root => simpa [owns, Action.apply] using h
  | child => simpa [owns, Action.apply] using h
  | create scope n v =>
    rw [owns, Action.apply, owned?_create hfits]
    split
    · rfl
    · exact h
  | assign scope n v =>
    rw [owns, Action.apply, assign, owned?_assignAlong (lt_size_of_mem_path hformed hfits)]
    split
    · rfl
    · exact h

/-! ## Whole histories -/

namespace History

variable {h : History}

/-- Every forest that a history leaves behind is formed. -/
theorem formed_replay (hvalid : Valid h) : (replay h).Formed := by
  induction h with
  | nil => intro scope outer houter; simp [replay, outer?] at houter
  | cons a h ih => exact formed_apply (ih hvalid.2) hvalid.1

/-- The value that was put into the store of scope `s` last. -/
def lastWrite (name : Bytes) (s : ScopeId) : History → Option Value
  | [] => none
  | a :: h => (a.writes? (replay h) name s).or (lastWrite name s h)

/-- A store holds the value that was put there last. -/
theorem stored?_replay (hvalid : Valid h) (name : Bytes) (s : ScopeId) :
    (replay h).stored? name s = lastWrite name s h := by
  induction h with
  | nil => simp [replay, stored?, lastWrite]
  | cons a h ih =>
    rw [replay, stored?_apply (formed_replay hvalid.2) hvalid.1, ih hvalid.2, lastWrite]

/-- An owner owns the value that was put into its store last. -/
theorem lastWrite_of_owned? (hvalid : Valid h) {name : Bytes} {s : ScopeId} {value : Value}
    (howned : (replay h).owned? name s = some value) : lastWrite name s h = some value := by
  induction h generalizing value with
  | nil => simp [replay, owned?] at howned
  | cons a h ih =>
    have hstep := owned?_apply_eq_some (formed_replay hvalid.2) hvalid.1 howned
    rw [lastWrite]
    cases hwrite : a.writes? (replay h) name s with
    | some v => rwa [hwrite] at hstep
    | none =>
      rw [hwrite, Option.none_or] at hstep
      rw [Option.none_or, ih hvalid.2 hstep]

end History

end Rill.Scopes
