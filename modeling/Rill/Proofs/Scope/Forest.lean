import Rill.Scope

/-!
# Scopes as a forest

What the operations on scopes do to the three views `Scopes.outer?`, `Scopes.stored?` and
`Scopes.owned?`, stated once for each operation so that no later proof opens one of them.

* `Scopes.Formed`: the scope around another one was made before it. Under it the bound in
  `Scopes.path` is never reached (`path_eq`).
* `Scopes.upToOwner`: the stretch of a path that an assignment writes, which ends with the owner of
  the name or, if there is none, with the whole path.
* `stored?_assignAlong` and `owned?_assignAlong`: an assignment writes the stores of that stretch,
  and the owned table of its last scope only.
-/

namespace Rill.Scopes

variable {scopes : Scopes} {scope outer : ScopeId} {name : Bytes} {value : Value}

/-! ## Single tables -/

/-- A fresh scope is empty and the other stores keep what they hold. -/
@[simp]
theorem stored?_fresh (scopes : Scopes) (outer : Option ScopeId) (name : Bytes) (s : ScopeId) :
    (scopes.fresh outer).2.stored? name s = scopes.stored? name s := by
  simp only [stored?, fresh, Array.getElem?_push]
  split
  next h =>
    rw [h, Array.getElem?_size]
    rfl
  next => rfl

/-- A fresh scope owns nothing and the other scopes own what they owned. -/
@[simp]
theorem owned?_fresh (scopes : Scopes) (outer : Option ScopeId) (name : Bytes) (s : ScopeId) :
    (scopes.fresh outer).2.owned? name s = scopes.owned? name s := by
  simp only [owned?, fresh, Array.getElem?_push]
  split
  next h =>
    rw [h, Array.getElem?_size]
    rfl
  next => rfl

/-- A fresh scope stands inside the scope that it was made for. -/
theorem outer?_fresh (scopes : Scopes) (outer : Option ScopeId) (s : ScopeId) :
    (scopes.fresh outer).2.outer? s = if s = scopes.size then outer else scopes.outer? s := by
  simp only [outer?, fresh, Array.getElem?_push]
  split <;> rfl

@[simp]
theorem size_fresh (scopes : Scopes) (outer : Option ScopeId) :
    (scopes.fresh outer).2.size = scopes.size + 1 := by
  simp [fresh]

@[simp]
theorem size_create (scope : ScopeId) (name : Bytes) (value : Value) (scopes : Scopes) :
    (scopes.create scope name value).size = scopes.size := by
  simp [create]

@[simp]
theorem size_write (scope : ScopeId) (name : Bytes) (value : Value) (scopes : Scopes) :
    (scopes.write scope name value).size = scopes.size := by
  simp [write]

/-- A binding changes the scope around no scope. -/
@[simp]
theorem outer?_create (scope : ScopeId) (name : Bytes) (value : Value) (scopes : Scopes)
    (s : ScopeId) : (scopes.create scope name value).outer? s = scopes.outer? s := by
  simp only [outer?, create, Array.getElem?_modify]
  split
  · rw [Option.bind_map]
    rfl
  · rfl

/-- A write into a store changes the scope around no scope. -/
@[simp]
theorem outer?_write (scope : ScopeId) (name : Bytes) (value : Value) (scopes : Scopes)
    (s : ScopeId) : (scopes.write scope name value).outer? s = scopes.outer? s := by
  simp only [outer?, write, Array.getElem?_modify]
  split
  · rw [Option.bind_map]
    rfl
  · rfl

/-- A binding puts its value into the store of its scope. -/
theorem stored?_create (hscope : scope < scopes.size) (value : Value) (n : Bytes) (s : ScopeId) :
    (scopes.create scope name value).stored? n s =
      if s = scope ∧ name = n then some value else scopes.stored? n s := by
  simp only [stored?, create, Array.getElem?_modify]
  by_cases hs : scope = s
  · subst hs
    simp [Array.getElem?_eq_getElem hscope]
  · simp [hs, Ne.symm hs]

/-- A binding puts its value into the owned table of its scope. -/
theorem owned?_create (hscope : scope < scopes.size) (value : Value) (n : Bytes) (s : ScopeId) :
    (scopes.create scope name value).owned? n s =
      if s = scope ∧ name = n then some value else scopes.owned? n s := by
  simp only [owned?, create, Array.getElem?_modify]
  by_cases hs : scope = s
  · subst hs
    simp [Array.getElem?_eq_getElem hscope]
  · simp [hs, Ne.symm hs]

/-- A write puts its value into the store of its scope. -/
theorem stored?_write (hscope : scope < scopes.size) (value : Value) (n : Bytes) (s : ScopeId) :
    (scopes.write scope name value).stored? n s =
      if s = scope ∧ name = n then some value else scopes.stored? n s := by
  simp only [stored?, write, Array.getElem?_modify]
  by_cases hs : scope = s
  · subst hs
    simp [Array.getElem?_eq_getElem hscope]
  · simp [hs, Ne.symm hs]

/-- A write into a store changes no owned table. -/
@[simp]
theorem owned?_write (scope : ScopeId) (name : Bytes) (value : Value) (scopes : Scopes)
    (n : Bytes) (s : ScopeId) : (scopes.write scope name value).owned? n s = scopes.owned? n s := by
  simp only [owned?, write, Array.getElem?_modify]
  split
  · rw [Option.bind_map]
    rfl
  · rfl

@[simp]
theorem owns_write (scope : ScopeId) (name : Bytes) (value : Value) (scopes : Scopes)
    (s : ScopeId) (n : Bytes) : (scopes.write scope name value).owns s n = scopes.owns s n := by
  simp [owns]

/-! ## Paths -/

/-- The scope around a scope was made before it. -/
def Formed (scopes : Scopes) : Prop :=
  ∀ scope outer, scopes.outer? scope = some outer → outer < scope

/-- In a formed forest all bounds that exceed the number of a scope give the same chain. -/
private theorem chain_eq_chain (hformed : scopes.Formed) {bound bound' : Nat} {scope : ScopeId}
    (h : scope < bound) (h' : scope < bound') :
    scopes.chain bound scope = scopes.chain bound' scope := by
  induction bound generalizing bound' scope with
  | zero => exact absurd h (Nat.not_lt_zero _)
  | succ bound ih =>
    obtain ⟨bound', rfl⟩ := Nat.exists_eq_succ_of_ne_zero (Nat.ne_zero_of_lt h')
    rw [chain, chain]
    cases houter : scopes.outer? scope with
    | none => rfl
    | some outer =>
      -- Each step goes to an older scope, so the bounds go down no faster than the scopes do.
      have hlt := hformed scope outer houter
      simp only [ih (Nat.lt_of_lt_of_le hlt (Nat.le_of_lt_succ h))
        (Nat.lt_of_lt_of_le hlt (Nat.le_of_lt_succ h'))]

/-- A path is its scope, followed by the path of the scope around it. -/
theorem path_eq (hformed : scopes.Formed) (scope : ScopeId) :
    scopes.path scope = scope :: (scopes.outer? scope).elim [] scopes.path := by
  rw [path, chain]
  cases houter : scopes.outer? scope with
  | none => rfl
  | some outer =>
    have hlt := hformed scope outer houter
    simp only [Option.elim_some, path, chain_eq_chain hformed hlt (Nat.lt_succ_self outer)]

/-- The scopes of a path are its scope and older ones. -/
theorem le_of_mem_path (hformed : scopes.Formed) {scope s : ScopeId} (h : s ∈ scopes.path scope) :
    s ≤ scope := by
  induction scope using Nat.strongRecOn generalizing s with
  | ind scope ih =>
    rw [path_eq hformed, List.mem_cons] at h
    rcases h with rfl | h
    · exact Nat.le_refl s
    · cases houter : scopes.outer? scope with
      | none => simp [houter] at h
      | some outer =>
        have hlt := hformed scope outer houter
        rw [houter] at h
        exact Nat.le_trans (ih outer hlt h) (Nat.le_of_lt hlt)

/-! ## Assignments -/

/-- The stretch of a path up to the first owner of a name; all of it if there is no owner. -/
def upToOwner (scopes : Scopes) (name : Bytes) : List ScopeId → List ScopeId
  | [] => []
  | s :: rest => if scopes.owns s name then [s] else s :: scopes.upToOwner name rest

/-- The stretch depends on nothing but which scopes own the name. -/
theorem upToOwner_congr {scopes' : Scopes} (h : ∀ s, scopes'.owns s name = scopes.owns s name)
    (path : List ScopeId) : scopes'.upToOwner name path = scopes.upToOwner name path := by
  induction path with
  | nil => rfl
  | cons s rest ih => simp only [upToOwner, h, ih]

theorem mem_of_mem_upToOwner {path : List ScopeId} {s : ScopeId}
    (h : s ∈ scopes.upToOwner name path) : s ∈ path := by
  induction path with
  | nil => exact h
  | cons t rest ih =>
    rw [upToOwner] at h
    split at h
    · exact List.mem_cons.mpr (.inl (List.mem_singleton.mp h))
    · rcases List.mem_cons.mp h with rfl | h
      · exact List.mem_cons_self
      · exact List.mem_cons_of_mem _ (ih h)

/-- A stretch of a path starts where the path does. -/
theorem upToOwner_ne_nil {path : List ScopeId} (h : path ≠ []) :
    scopes.upToOwner name path ≠ [] := by
  cases path with
  | nil => exact absurd rfl h
  | cons s rest =>
    rw [upToOwner]
    split <;> simp

@[simp]
theorem size_assignAlong (name : Bytes) (value : Value) (path : List ScopeId) (scopes : Scopes) :
    (assignAlong name value path scopes).2.size = scopes.size := by
  induction path generalizing scopes with
  | nil => rfl
  | cons s rest ih =>
    rw [assignAlong]
    split
    · simp
    · split
      · simp
      · simp [ih]

/-- An assignment changes the scope around no scope. -/
@[simp]
theorem outer?_assignAlong (name : Bytes) (value : Value) (path : List ScopeId) (scopes : Scopes)
    (s : ScopeId) : (assignAlong name value path scopes).2.outer? s = scopes.outer? s := by
  induction path generalizing scopes with
  | nil => rfl
  | cons t rest ih =>
    rw [assignAlong]
    split
    · simp
    · split
      · simp
      · simp [ih]

/-- An assignment puts its value into every store up to the owner. -/
theorem stored?_assignAlong {path : List ScopeId} (hpath : ∀ s ∈ path, s < scopes.size)
    (value : Value) (n : Bytes) (s : ScopeId) :
    (assignAlong name value path scopes).2.stored? n s =
      if s ∈ scopes.upToOwner name path ∧ name = n then some value else scopes.stored? n s := by
  induction path generalizing scopes with
  | nil => simp [assignAlong, upToOwner]
  | cons t rest ih =>
    have ht : t < scopes.size := hpath t List.mem_cons_self
    rw [assignAlong, upToOwner]
    split
    next => simp [stored?_create ht]
    next howns =>
      split
      next hrest =>
        rw [List.isEmpty_iff] at hrest
        simp [stored?_create ht, hrest, upToOwner]
      next =>
        have hrest : ∀ s ∈ rest, s < (scopes.write t name value).size := by
          intro s hs
          rw [size_write]
          exact hpath s (List.mem_cons_of_mem _ hs)
        -- This write makes no scope an owner, so the rest of the stretch is what it was before it.
        rw [ih hrest, upToOwner_congr (fun s => owns_write t name value scopes s name),
          stored?_write ht]
        by_cases hn : name = n <;> by_cases hs : s = t <;> simp [hn, hs]

/-- An assignment puts its value into the owned table of the last scope that it writes. -/
theorem owned?_assignAlong {path : List ScopeId} (hpath : ∀ s ∈ path, s < scopes.size)
    (value : Value) (n : Bytes) (s : ScopeId) :
    (assignAlong name value path scopes).2.owned? n s =
      if (scopes.upToOwner name path).getLast? = some s ∧ name = n then some value
      else scopes.owned? n s := by
  induction path generalizing scopes with
  | nil => simp [assignAlong, upToOwner]
  | cons t rest ih =>
    have ht : t < scopes.size := hpath t List.mem_cons_self
    rw [assignAlong, upToOwner]
    split
    -- The scope owns the name, so the way ends here.
    next => simp [owned?_create ht, eq_comm]
    next howns =>
      split
      next hrest =>
        -- The last scope of the path comes to own it.
        rw [List.isEmpty_iff] at hrest
        simp [owned?_create ht, hrest, upToOwner, eq_comm]
      next hne =>
        -- A write on the way leaves what is owned, so the owner is still the same one.
        have hrest : ∀ s ∈ rest, s < (scopes.write t name value).size := by
          intro s hs
          rw [size_write]
          exact hpath s (List.mem_cons_of_mem _ hs)
        rw [List.isEmpty_iff] at hne
        rw [ih hrest, upToOwner_congr (fun s => owns_write t name value scopes s name),
          owned?_write, List.getLast?_cons_of_ne_nil (upToOwner_ne_nil hne)]

end Rill.Scopes
