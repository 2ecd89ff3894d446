import Rill.Proofs.Scope.Forest

/-!
# What writing leaves behind

What stands in a table after a name was bound or assigned was there before, or is the value that was
written. These facts need nothing of the scopes, unlike the equations of the tables.

* `Scopes.Lasts`: no scope and no name in a store is lost, which is so of all that is done to
  scopes.
-/

namespace Rill

namespace Scopes

variable {scopes : Scopes} {scope s : ScopeId} {name n : Bytes} {value v : Value}

/-- What stands in a store after a value was put into one was there before, or is that value. -/
private theorem stored?_modify_cases {f : Scope → Scope}
    (hf : ∀ found, (f found).store = found.store.put name value)
    (h : Scopes.stored? (scopes.modify scope f) n s = some v) :
    scopes.stored? n s = some v ∨ v = value := by
  simp only [stored?, Array.getElem?_modify] at h ⊢
  split at h
  next =>
    cases hs : scopes[s]? with
    | none => simp [hs] at h
    | some found =>
      simp only [hs, Option.map_some, Option.bind_some, hf, Table.get?_put] at h
      split at h
      · exact .inr (Option.some.inj h).symm
      · exact .inl h
  next => exact .inl h

/-- What is stored after a binding was stored before or is its value. -/
theorem stored?_create_cases (h : (scopes.create scope name value).stored? n s = some v) :
    scopes.stored? n s = some v ∨ v = value :=
  stored?_modify_cases (fun _ => rfl) h

/-- What is stored after a write was stored before or is its value. -/
theorem stored?_write_cases (h : (scopes.write scope name value).stored? n s = some v) :
    scopes.stored? n s = some v ∨ v = value :=
  stored?_modify_cases (fun _ => rfl) h

/-- What is owned after a binding was owned before or is its value. -/
theorem owned?_create_cases (h : (scopes.create scope name value).owned? n s = some v) :
    scopes.owned? n s = some v ∨ v = value := by
  simp only [owned?, create, Array.getElem?_modify] at h ⊢
  split at h
  next =>
    cases hs : scopes[s]? with
    | none => simp [hs] at h
    | some found =>
      simp only [hs, Option.map_some, Option.bind_some, Table.get?_put] at h
      split at h
      · exact .inr (Option.some.inj h).symm
      · exact .inl h
  next => exact .inl h

/-- What is stored after an assignment along a path was stored before or is its value. -/
theorem stored?_assignAlong_cases {path : List ScopeId}
    (h : (assignAlong name value path scopes).2.stored? n s = some v) :
    scopes.stored? n s = some v ∨ v = value := by
  induction path generalizing scopes with
  | nil => exact .inl h
  | cons t rest ih =>
    rw [assignAlong] at h
    split at h
    · exact stored?_create_cases h
    · split at h
      · exact stored?_create_cases h
      · rcases ih h with h | h
        · exact stored?_write_cases h
        · exact .inr h

/-- What is owned after an assignment along a path was owned before or is its value. -/
theorem owned?_assignAlong_cases {path : List ScopeId}
    (h : (assignAlong name value path scopes).2.owned? n s = some v) :
    scopes.owned? n s = some v ∨ v = value := by
  induction path generalizing scopes with
  | nil => exact .inl h
  | cons t rest ih =>
    rw [assignAlong] at h
    split at h
    · exact owned?_create_cases h
    · split at h
      · exact owned?_create_cases h
      · rcases ih h with h | h
        · exact .inl (owned?_write t name value scopes n s ▸ h)
        · exact .inr h

/-- A value that stands in a store stays there when it is put into stores under the same name. -/
private theorem stored?_modify_of_stored? {f : Scope → Scope}
    (hf : ∀ found, (f found).store = found.store.put name value)
    (h : scopes.stored? name s = some value) :
    Scopes.stored? (scopes.modify scope f) name s = some value := by
  simp only [stored?, Array.getElem?_modify] at h ⊢
  split
  next =>
    cases hs : scopes[s]? with
    | none => simp [hs] at h
    | some found => simp [hf]
  next => exact h

/-- An assignment along a path leaves a name that has the value already with it. -/
private theorem stored?_assignAlong_of_stored? {path : List ScopeId}
    (h : scopes.stored? name s = some value) :
    (assignAlong name value path scopes).2.stored? name s = some value := by
  induction path generalizing scopes with
  | nil => exact h
  | cons t rest ih =>
    rw [assignAlong]
    split
    · exact stored?_modify_of_stored? (fun _ => rfl) h
    · split
      · exact stored?_modify_of_stored? (fun _ => rfl) h
      · exact ih (stored?_modify_of_stored? (fun _ => rfl) h)

/-- A path starts with its scope. -/
theorem exists_path_eq (scopes : Scopes) (scope : ScopeId) :
    ∃ rest, scopes.path scope = scope :: rest := by
  rw [path, chain]
  cases scopes.outer? scope with
  | none => exact ⟨[], rfl⟩
  | some outer => exact ⟨_, rfl⟩

/-- What a scope stores under a name is what the name stands for in it. -/
theorem get?_of_stored? (h : scopes.stored? name scope = some v) :
    scopes.get? scope name = some v := by
  obtain ⟨rest, hpath⟩ := exists_path_eq scopes scope
  rw [get?, hpath, List.findSome?_cons, h]

/-- An assignment leaves its value in the store of the scope that it is made from. -/
theorem stored?_assign (hscope : scope < scopes.size) :
    (scopes.assign scope name value).2.stored? name scope = some value := by
  -- The path starts with the scope, so the first step writes there, and the later ones only write
  -- the same value again.
  obtain ⟨rest, hpath⟩ := exists_path_eq scopes scope
  rw [assign, hpath, assignAlong]
  split
  · simp [stored?_create hscope]
  · split
    · simp [stored?_create hscope]
    · apply stored?_assignAlong_of_stored?
      simp [stored?_write hscope]

/-- Scopes that nothing leads out of hold the path of each of them. -/
theorem mem_of_mem_path {S : ScopeId → Prop}
    (houter : ∀ s o, S s → scopes.outer? s = some o → S o) (hscope : S scope)
    (h : s ∈ scopes.path scope) : S s := by
  -- A path is a chain of outer scopes, and the bound on its length plays no part.
  have hchain : ∀ bound t, S t → s ∈ scopes.chain bound t → S s := by
    intro bound
    induction bound with
    | zero => intro t _ h; cases h
    | succ bound ih =>
      intro t ht h
      rw [chain] at h
      cases ho : scopes.outer? t with
      | none =>
        rw [ho] at h
        exact List.mem_singleton.mp h ▸ ht
      | some o =>
        rw [ho] at h
        rcases List.mem_cons.mp h with rfl | h
        · exact ht
        · exact ih o (houter t o ht ho) h
  exact hchain _ scope hscope h

/-- A name reads as something that is stored in one of the scopes. -/
theorem exists_stored?_of_get? {S : ScopeId → Prop}
    (houter : ∀ s o, S s → scopes.outer? s = some o → S o) (hscope : S scope)
    (h : scopes.get? scope name = some v) : ∃ s, S s ∧ scopes.stored? name s = some v := by
  obtain ⟨s, hs, hv⟩ := List.exists_of_findSome?_eq_some h
  exact ⟨s, mem_of_mem_path houter hscope hs, hv⟩

/-! ## What lasts -/

/-- No scope and no name in a store is lost. -/
structure Lasts (before after : Scopes) : Prop where
  size_le : before.size ≤ after.size
  stored : ∀ name s, (before.stored? name s).isSome = true → (after.stored? name s).isSome = true

namespace Lasts

variable {before after after' : Scopes}

theorem refl (scopes : Scopes) : Lasts scopes scopes := ⟨Nat.le_refl _, fun _ _ h => h⟩

/-- What lasts through two changes lasts through both. -/
theorem trans (h : Lasts before after) (h' : Lasts after after') : Lasts before after' :=
  ⟨Nat.le_trans h.size_le h'.size_le, fun name s hs => h'.stored name s (h.stored name s hs)⟩

/-- A new scope leaves the names of the others. -/
theorem fresh (scopes : Scopes) (outer : Option ScopeId) : Lasts scopes (scopes.fresh outer).2 := by
  refine ⟨by simp, fun name s hs => ?_⟩
  rwa [stored?_fresh]

/-- A name that is put into a store takes the place of no other one. -/
private theorem modify {f : Scope → Scope}
    (hf : ∀ found, (f found).store = found.store.put name value) :
    Lasts scopes (scopes.modify scope f) := by
  refine ⟨by simp, fun n s hs => ?_⟩
  simp only [stored?, Array.getElem?_modify] at hs ⊢
  split
  next =>
    cases hfound : scopes[s]? with
    | none => simp [hfound] at hs
    | some found =>
      simp only [hfound, Option.bind_some] at hs
      simp only [Option.map_some, Option.bind_some, hf, Table.get?_put]
      split
      · rfl
      · exact hs
  next => exact hs

/-- A binding takes no name away. -/
theorem create (scopes : Scopes) (scope : ScopeId) (name : Bytes) (value : Value) :
    Lasts scopes (scopes.create scope name value) :=
  modify fun _ => rfl

/-- An assignment along a path takes no name away. -/
private theorem assignAlong (path : List ScopeId) :
    Lasts scopes (assignAlong name value path scopes).2 := by
  induction path generalizing scopes with
  | nil => exact .refl _
  | cons t rest ih =>
    rw [Scopes.assignAlong]
    split
    · exact create _ _ _ _
    · split
      · exact create _ _ _ _
      · exact (modify fun _ => rfl).trans ih

/-- An assignment takes no name away. -/
theorem assign (scopes : Scopes) (scope : ScopeId) (name : Bytes) (value : Value) :
    Lasts scopes (scopes.assign scope name value).2 :=
  assignAlong _

end Lasts

end Scopes

end Rill
