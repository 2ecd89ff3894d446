import Rill.Proofs.Scope.Growth
import Rill.Proofs.Scope.Writes

/-!
# What an assignment writes

An assignment goes outwards from its scope to the owner of the name, or to the outermost scope if
there is no owner. It leaves its value in the store of every scope on this way, and at the end of it
in the owned table as well. Other scopes may shadow the name further out, and copies of older values
may lie anywhere on the way.

* `Scopes.Way`: the path of a scope, cut at the owner of a name.
* `Scopes.Way.Assigned`: all that an assignment changes, and that everything else stays.
* `Scopes.Way.assigned`: this is what an assignment does in a formed forest.
* `History.assigned_replay`: so it is after every history.
-/

namespace Rill.Scopes

variable {scopes : Scopes} {scope owner s : ScopeId} {name : Bytes} {value : Value}

/-! ## Ways -/

/-- The way of an assignment: the path of a scope, cut at the nearest owner of a name. If no scope
on the path owns the name, then the outermost one stands in. -/
structure Way (scopes : Scopes) (scope : ScopeId) (name : Bytes) where
  /-- The scopes before the owner, from the inside to the outside. -/
  below : List ScopeId
  /-- The owner, or the outermost scope. -/
  owner : ScopeId
  /-- The scopes around the owner. -/
  above : List ScopeId
  path_eq : scopes.path scope = below ++ owner :: above
  not_owns_below : ∀ s ∈ below, scopes.owns s name = false
  owns_or_outermost : scopes.owns owner name = true ∨ above = [] ∧ scopes.outer? owner = none

/-- The scopes that an assignment writes. -/
def Way.written (way : scopes.Way scope name) : List ScopeId := way.below ++ [way.owner]

/-- Every path that is not empty can be cut at its first owner, or before its last scope. -/
private theorem exists_cut (scopes : Scopes) (name : Bytes) {path : List ScopeId}
    (hne : path ≠ []) :
    ∃ below owner above, path = below ++ owner :: above ∧
      (∀ s ∈ below, scopes.owns s name = false) ∧
      (scopes.owns owner name = true ∨ above = []) := by
  induction path with
  | nil => exact absurd rfl hne
  | cons s rest ih =>
    by_cases hs : scopes.owns s name = true
    · exact ⟨[], s, rest, rfl, List.forall_mem_nil _, .inl hs⟩
    · by_cases hrest : rest = []
      · exact ⟨[], s, rest, rfl, List.forall_mem_nil _, .inr hrest⟩
      · obtain ⟨below, owner, above, rfl, hbelow, hend⟩ := ih hrest
        refine ⟨s :: below, owner, above, rfl, ?_, hend⟩
        exact List.forall_mem_cons.mpr ⟨Bool.eq_false_iff.mpr hs, hbelow⟩

/-- In a formed forest there is a way from every scope. -/
theorem nonempty_way (hformed : scopes.Formed) (scope : ScopeId) (name : Bytes) :
    Nonempty (scopes.Way scope name) := by
  have hne : scopes.path scope ≠ [] := by simp [Scopes.path_eq hformed]
  obtain ⟨below, owner, above, hpath, hbelow, hend⟩ := exists_cut scopes name hne
  refine ⟨⟨below, owner, above, hpath, hbelow, hend.imp_right fun habove => ⟨habove, ?_⟩⟩⟩
  -- A path without an owner is written to its end, and nothing is around the last scope of a path.
  subst habove
  apply outer?_getLast?_path hformed (s := scope)
  rw [hpath, List.getLast?_concat]

/-- The stretch of a path up to an owner ends with the first one. -/
private theorem upToOwner_append {below above : List ScopeId}
    (hbelow : ∀ s ∈ below, scopes.owns s name = false)
    (hend : scopes.owns owner name = true ∨ above = []) :
    scopes.upToOwner name (below ++ owner :: above) = below ++ [owner] := by
  induction below with
  | nil =>
    rw [List.nil_append, upToOwner]
    split
    next => rfl
    next hnot => rw [hend.resolve_left hnot, upToOwner, List.nil_append]
  | cons s below ih =>
    obtain ⟨hs, hbelow⟩ := List.forall_mem_cons.mp hbelow
    rw [List.cons_append, upToOwner, hs, ih hbelow]
    rfl

namespace Way

variable (way : scopes.Way scope name)

/-- An assignment writes the way up to the owner. -/
theorem upToOwner_eq : scopes.upToOwner name (scopes.path scope) = way.written := by
  rw [way.path_eq]
  exact upToOwner_append way.not_owns_below (way.owns_or_outermost.imp_right And.left)

theorem getLast?_written : way.written.getLast? = some way.owner := List.getLast?_concat

end Way

/-- The scopes of a path become older and older. -/
theorem pairwise_path (hformed : scopes.Formed) (scope : ScopeId) :
    (scopes.path scope).Pairwise (· > ·) := by
  induction scope using Nat.strongRecOn with
  | ind scope ih =>
    rw [path_eq hformed]
    cases houter : scopes.outer? scope with
    | none => exact List.pairwise_singleton _ _
    | some outer =>
      have hlt := hformed scope outer houter
      refine List.pairwise_cons.mpr ⟨fun s hs => ?_, ih outer hlt⟩
      exact Nat.lt_of_le_of_lt (le_of_mem_path hformed hs) hlt

/-- No scope around the owner is written. -/
theorem Way.not_mem_written (way : scopes.Way scope name) (hformed : scopes.Formed)
    (hs : s ∈ way.above) :
    s ∉ way.written := by
  have hpath := pairwise_path hformed scope
  rw [way.path_eq, List.append_cons] at hpath
  intro hmem
  exact Nat.lt_irrefl s ((List.pairwise_append.mp hpath).2.2 s hmem s hs)

/-! ## Assignments -/

/-- What is written into one scope leaves the others as they were. -/
private theorem getElem?_modify_of_ne {f : Scope → Scope} (hne : s ≠ scope) :
    (scopes.modify scope f)[s]? = scopes[s]? := by
  rw [Array.getElem?_modify, if_neg hne.symm]

/-- An assignment leaves the scopes as they were that it does not come to. -/
theorem getElem?_assignAlong_of_not_mem {path : List ScopeId}
    (hs : s ∉ scopes.upToOwner name path) :
    (assignAlong name value path scopes).2[s]? = scopes[s]? := by
  induction path generalizing scopes with
  | nil => rfl
  | cons t rest ih =>
    rw [upToOwner] at hs
    rw [assignAlong]
    split
    next ht =>
      rw [if_pos ht, List.mem_singleton] at hs
      exact getElem?_modify_of_ne hs
    next ht =>
      rw [if_neg ht, List.mem_cons, not_or] at hs
      obtain ⟨hne, hrest⟩ := hs
      split
      · exact getElem?_modify_of_ne hne
      · -- The store that is written first decides nothing about the owners further out.
        rw [← upToOwner_congr fun s => owns_write t name value scopes s name] at hrest
        exact (ih hrest).trans (getElem?_modify_of_ne hne)

/-- What a forest is after a value was assigned along a way. -/
structure Way.Assigned (way : scopes.Way scope name) (value : Value) (after : Scopes) : Prop where
  /-- Every scope of the way reads the name as the value. -/
  get?_eq : ∀ s ∈ way.written, after.get? s name = some value
  /-- The end of the way owns the value. -/
  owned?_owner : after.owned? name way.owner = some value
  /-- No other scope becomes an owner, and what else is owned stays. -/
  owned?_eq : ∀ s n, ¬ (s = way.owner ∧ n = name) → after.owned? n s = scopes.owned? n s
  /-- The scopes that are not on the way have the tables that they had. -/
  elsewhere : ∀ s, s ∉ way.written → after[s]? = scopes[s]?
  /-- The scopes around the owner are among them. -/
  above : ∀ s ∈ way.above, after[s]? = scopes[s]?
  /-- Under every other name all stores are as they were, also on the way. -/
  stored?_eq : ∀ s n, n ≠ name → after.stored? n s = scopes.stored? n s
  /-- The forest has the scopes that it had, each inside the same one. -/
  size_eq : after.size = scopes.size
  outer?_eq : ∀ s, after.outer? s = scopes.outer? s

/-- An assignment in a formed forest writes its way and nothing else. -/
theorem Way.assigned (way : scopes.Way scope name) (hformed : scopes.Formed)
    (hscope : scope < scopes.size) (value : Value) :
    way.Assigned value (scopes.assign scope name value).2 := by
  have hpath := lt_size_of_mem_path hformed hscope
  -- The three facts below say what the assignment does to a scope, to what it stores and to what it
  -- owns. The fields are read off from them.
  have helsewhere : ∀ s, s ∉ way.written → (scopes.assign scope name value).2[s]? = scopes[s]? :=
    fun s hs =>
    getElem?_assignAlong_of_not_mem (way.upToOwner_eq ▸ hs)
  have hstored : ∀ n s, (scopes.assign scope name value).2.stored? n s =
      if s ∈ way.written ∧ name = n then some value else scopes.stored? n s := by
    intro n s
    rw [assign, stored?_assignAlong hpath, way.upToOwner_eq]
  have howned : ∀ n s, (scopes.assign scope name value).2.owned? n s =
      if way.owner = s ∧ name = n then some value else scopes.owned? n s := by
    intro n s
    rw [assign, owned?_assignAlong hpath, way.upToOwner_eq, way.getLast?_written]
    simp only [Option.some.injEq]
  exact {
    get?_eq := fun s hs => get?_of_stored? (by rw [hstored, if_pos ⟨hs, rfl⟩])
    owned?_owner := by rw [howned, if_pos ⟨rfl, rfl⟩]
    owned?_eq := fun s n hne => by rw [howned, if_neg fun h => hne ⟨h.1.symm, h.2.symm⟩]
    elsewhere := helsewhere
    above := fun s hs => helsewhere s (way.not_mem_written hformed hs)
    stored?_eq := fun s n hne => by rw [hstored, if_neg fun h => hne h.2.symm]
    size_eq := size_assignAlong _ _ _ _
    outer?_eq := outer?_assignAlong _ _ _ _ }

/-! ## Whole histories -/

namespace History

variable {h : History}

/-- After every history, an assignment from any scope writes the way to the nearest owner of the
name, or to the outermost scope, and nothing else. -/
theorem assigned_replay (hvalid : Valid h) {scope : ScopeId} (hscope : scope < (replay h).size)
    (name : Bytes) (value : Value) :
    ∃ way : (replay h).Way scope name,
      way.Assigned value ((replay h).assign scope name value).2 := by
  have hformed := formed_replay hvalid
  obtain ⟨way⟩ := nonempty_way hformed scope name
  exact ⟨way, way.assigned hformed hscope value⟩

/-- Two scopes own a name, one inside the other, and an older value was assigned through a third one
further in. A fourth one stands in that one. -/
def shadowed : History :=
  [.child 2, .assign 2 (text "x") (.integer 3), .child 1, .create 1 (text "x")
    (.integer 2), .child 0, .create 0 (text "x") (.integer 1), .root]

theorem assigned_shadowed :
    Valid shadowed ∧ 3 < (replay shadowed).size ∧
      (∃ way : (replay shadowed).Way 3 (text "x"),
        way.Assigned (.integer 4) ((replay shadowed).assign 3 (text "x") (.integer 4)).2) ∧
      (replay shadowed).path 3 = [3, 2, 1, 0] ∧
      [3, 2, 1, 0].map (fun s => (replay shadowed).owns s (text "x")) =
        [false, false, true, true] := by
  have hvalid : Valid shadowed := by
    simp [shadowed, Valid, Action.Fits, replay, Action.apply, assign]
  have hscope : 3 < (replay shadowed).size := by decide
  exact ⟨hvalid, hscope, assigned_replay hvalid hscope (text "x") (.integer 4),
    by decide, by decide⟩

end History

end Rill.Scopes
