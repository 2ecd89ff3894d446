import Rill.Proofs.Scope.History

/-!
# Every value that can be read has an owner

A scope has two tables, and the four operations on scopes write now one of them and now both. This
module shows what ties the tables of all scopes together, whatever the operations were.

* `Scopes.Anchored`: what a scope owns is in its store, an outermost scope has nothing else there,
  and whatever is in a store is owned there or further out.
* `anchored_apply`: the step. Every operation keeps a forest anchored.
* `Anchored.isSome_get?_iff`: a name can be read exactly if a scope on the path owns it.
* `Anchored.owns_assign`: an assignment to a name that can be read makes no scope an owner.
* `History.anchored_replay`: the run. All this holds after every history, and no owner is ever lost.
-/

namespace Rill.Scopes

variable {scopes : Scopes} {a : Action} {name : Bytes} {e s o : ScopeId} {value : Value}

/-- The two tables of every outermost scope are the same. -/
def TablesMatch (scopes : Scopes) : Prop :=
  ∀ (s : ScopeId) (found : Scope), scopes[s]? = some found → found.outer = none →
    found.store = found.owned

/-- What ties the two tables of the scopes together. -/
structure Anchored (scopes : Scopes) : Prop where
  /-- What a scope owns is in its store, with the same value. -/
  stored : ∀ s name value, scopes.owned? name s = some value → scopes.stored? name s = some value
  /-- The two tables of an outermost scope are the same. -/
  outermost : scopes.TablesMatch
  /-- What is in a store is owned by that scope or by one around it. -/
  owner : ∀ s name value, scopes.stored? name s = some value →
    ∃ o ∈ scopes.path s, scopes.owns o name = true

/-! ## Paths and stretches -/

/-- A path leads through the paths of all its scopes. -/
theorem mem_path_trans (hformed : scopes.Formed) (hs : s ∈ scopes.path e) (ho : o ∈ scopes.path s) :
    o ∈ scopes.path e := by
  induction e using Nat.strongRecOn with
  | ind e ih =>
    rw [path_eq hformed] at hs ⊢
    rcases List.mem_cons.mp hs with rfl | hs
    · rwa [path_eq hformed] at ho
    · cases houter : scopes.outer? e with
      | none => simp [houter] at hs
      | some outer =>
        rw [houter] at hs
        exact List.mem_cons_of_mem _ (ih outer (hformed e outer houter) hs)

/-- Only the last scope of a path is an outermost one. -/
theorem isSome_outer?_of_mem_dropLast (hformed : scopes.Formed) (h : s ∈ (scopes.path e).dropLast) :
    (scopes.outer? s).isSome = true := by
  induction e using Nat.strongRecOn with
  | ind e ih =>
    rw [path_eq hformed] at h
    cases houter : scopes.outer? e with
    | none => simp [houter] at h
    | some outer =>
      rw [houter, Option.elim_some, List.dropLast_cons_of_ne_nil (by simp [path_eq hformed])] at h
      rcases List.mem_cons.mp h with rfl | h
      · simp [houter]
      · exact ih outer (hformed e outer houter) h

/-- The end of a stretch stands on the path of each of its scopes. -/
theorem mem_path_of_getLast?_upToOwner (hformed : scopes.Formed)
    (hs : s ∈ scopes.upToOwner name (scopes.path e))
    (ho : (scopes.upToOwner name (scopes.path e)).getLast? = some o) : o ∈ scopes.path s := by
  induction e using Nat.strongRecOn with
  | ind e ih =>
    -- The stretch from `e` goes on as the stretch from the scope around it, unless `e` is the
    -- owner.
    by_cases hse : s = e
    · subst hse
      exact mem_of_mem_upToOwner (List.mem_of_getLast? ho)
    rw [path_eq hformed, upToOwner] at hs ho
    split at hs
    next => exact absurd (List.mem_singleton.mp hs) hse
    next hnot =>
      have hrest := (List.mem_cons.mp hs).resolve_left hse
      rw [if_neg hnot, List.getLast?_cons_of_ne_nil (List.ne_nil_of_mem hrest)] at ho
      cases houter : scopes.outer? e with
      | none => simp [houter, upToOwner] at hrest
      | some outer =>
        rw [houter] at hrest ho
        exact ih outer (hformed e outer houter) hrest ho

/-- A stretch that starts somewhere has an end. -/
theorem exists_getLast?_upToOwner (hs : s ∈ scopes.upToOwner name (scopes.path e)) :
    ∃ o, (scopes.upToOwner name (scopes.path e)).getLast? = some o := by
  rw [← Option.isSome_iff_exists, List.getLast?_isSome]
  exact List.ne_nil_of_mem hs

/-- An owner that is not the first scope of a path is further along. -/
private theorem exists_owner_of_not_owns {t : ScopeId} {rest : List ScopeId}
    (howner : ∃ s ∈ t :: rest, scopes.owns s name = true) (ht : ¬ scopes.owns t name = true) :
    ∃ s ∈ rest, scopes.owns s name = true := by
  obtain ⟨s, hs, howns⟩ := howner
  rcases List.mem_cons.mp hs with rfl | hs
  · exact absurd howns ht
  · exact ⟨s, hs, howns⟩

/-- If a scope on a path owns a name, then the stretch up to its owner ends with an owner. -/
theorem owns_getLast?_upToOwner {path : List ScopeId}
    (howner : ∃ s ∈ path, scopes.owns s name = true)
    (ho : (scopes.upToOwner name path).getLast? = some o) : scopes.owns o name = true := by
  induction path with
  | nil => simp at howner
  | cons t rest ih =>
    rw [upToOwner] at ho
    split at ho
    next ht =>
      obtain rfl : t = o := by simpa using ho
      exact ht
    next ht =>
      have hrest := exists_owner_of_not_owns howner ht
      have hne : rest ≠ [] := by
        obtain ⟨s, hs, -⟩ := hrest
        exact List.ne_nil_of_mem hs
      rw [List.getLast?_cons_of_ne_nil (upToOwner_ne_nil hne)] at ho
      exact ih hrest ho

/-- An assignment to a name that has an owner on the path makes no other one. -/
theorem assignAlong_fst {path : List ScopeId} (howner : ∃ s ∈ path, scopes.owns s name = true)
    (value : Value) : (assignAlong name value path scopes).1 = false := by
  induction path generalizing scopes with
  | nil => rfl
  | cons t rest ih =>
    rw [assignAlong]
    split
    next => rfl
    next ht =>
      have hrest := exists_owner_of_not_owns howner ht
      split
      next hempty =>
        rw [List.isEmpty_iff] at hempty
        simp [hempty] at hrest
      next => exact ih (by simpa using hrest)

/-! ## One operation -/

private theorem tablesMatch_fresh (h : scopes.TablesMatch) (outer : Option ScopeId) :
    TablesMatch (scopes.fresh outer).2 := by
  intro s found hfound hnone
  rw [fresh, Array.getElem?_push] at hfound
  split at hfound
  · cases hfound
    rfl
  · exact h s found hfound hnone

private theorem tablesMatch_create (h : scopes.TablesMatch) (scope : ScopeId) (name : Bytes)
    (value : Value) : TablesMatch (scopes.create scope name value) := by
  intro s found hfound hnone
  rw [create, Array.getElem?_modify] at hfound
  split at hfound
  · obtain ⟨before, hbefore, rfl⟩ := Option.map_eq_some_iff.mp hfound
    exact congrArg _ (h s before hbefore hnone)
  · exact h s found hfound hnone

/-- A value that goes into a store only must not go into that of an outermost scope. -/
private theorem tablesMatch_write (h : scopes.TablesMatch) {scope : ScopeId}
    (hscope : (scopes.outer? scope).isSome = true) (name : Bytes) (value : Value) :
    TablesMatch (scopes.write scope name value) := by
  intro s found hfound hnone
  rw [write, Array.getElem?_modify] at hfound
  split at hfound
  next heq =>
    subst heq
    obtain ⟨before, hbefore, rfl⟩ := Option.map_eq_some_iff.mp hfound
    have hinner : before.outer = none := hnone
    simp [outer?, hbefore, hinner] at hscope
  next => exact h s found hfound hnone

/-- All but the last scope of an assignment have their store written, and the last one has both
tables written. -/
private theorem tablesMatch_assignAlong {path : List ScopeId} (h : scopes.TablesMatch)
    (hpath : ∀ s ∈ path.dropLast, (scopes.outer? s).isSome = true) (name : Bytes) (value : Value) :
    TablesMatch (assignAlong name value path scopes).2 := by
  induction path generalizing scopes with
  | nil => exact h
  | cons t rest ih =>
    rw [assignAlong]
    split
    · exact tablesMatch_create h t name value
    · split
      · exact tablesMatch_create h t name value
      next hne =>
        -- Scopes with an outer one are written on the way, and in those the tables may differ.
        rw [List.isEmpty_iff] at hne
        rw [List.dropLast_cons_of_ne_nil hne] at hpath
        refine ih (tablesMatch_write h (hpath t List.mem_cons_self) name value) ?_
        intro s hs
        rw [outer?_write]
        exact hpath s (List.mem_cons_of_mem _ hs)

theorem tablesMatch_apply (hformed : scopes.Formed) (h : scopes.TablesMatch) :
    (a.apply scopes).TablesMatch := by
  cases a with
  | root => exact tablesMatch_fresh h none
  | child outer => exact tablesMatch_fresh h (some outer)
  | create scope name value => exact tablesMatch_create h scope name value
  | assign scope name value =>
    exact tablesMatch_assignAlong h (fun s => isSome_outer?_of_mem_dropLast hformed) name value

/-- A scope that an operation writes has an owner on its path afterwards: a binding makes the scope
its own owner, and the stretch of an assignment ends with one. -/
theorem exists_owner_of_writes? (hformed : scopes.Formed) (hfits : a.Fits scopes)
    (hwrite : a.writes? scopes name s = some value) :
    ∃ o ∈ scopes.path s, (a.apply scopes).owns o name = true := by
  cases a with
  | root => simp [Action.writes?] at hwrite
  | child => simp [Action.writes?] at hwrite
  | create scope n v =>
    simp only [Action.writes?, Option.ite_none_right_eq_some, Option.some.injEq] at hwrite
    obtain ⟨⟨rfl, rfl⟩, rfl⟩ := hwrite
    refine ⟨s, by simp [path_eq hformed], ?_⟩
    simp [owns, Action.apply, owned?_create hfits]
  | assign scope n v =>
    simp only [Action.writes?, Option.ite_none_right_eq_some, Option.some.injEq] at hwrite
    obtain ⟨⟨hmem, rfl⟩, rfl⟩ := hwrite
    obtain ⟨o, ho⟩ := exists_getLast?_upToOwner hmem
    refine ⟨o, mem_path_of_getLast?_upToOwner hformed hmem ho, ?_⟩
    simp [owns, Action.apply, assign, owned?_assignAlong (lt_size_of_mem_path hformed hfits), ho]

theorem lt_size_of_stored? (h : scopes.stored? name s = some value) : s < scopes.size := by
  obtain ⟨found, hfound, -⟩ := Option.bind_eq_some_iff.mp h
  exact (Array.getElem?_eq_some_iff.mp hfound).1

theorem lt_size_of_writes? (hformed : scopes.Formed) (hfits : a.Fits scopes)
    (h : a.writes? scopes name s = some value) : s < scopes.size := by
  cases a with
  | root => simp [Action.writes?] at h
  | child => simp [Action.writes?] at h
  | create scope n v =>
    simp only [Action.writes?, Option.ite_none_right_eq_some] at h
    exact h.1.1 ▸ hfits
  | assign scope n v =>
    simp only [Action.writes?, Option.ite_none_right_eq_some] at h
    exact lt_size_of_mem_path hformed hfits s (mem_of_mem_upToOwner h.1.1)

/-- Every operation keeps a forest anchored. -/
theorem anchored_apply (hformed : scopes.Formed) (hfits : a.Fits scopes) (h : scopes.Anchored) :
    (a.apply scopes).Anchored := by
  -- In either table there is what the operation wrote, or else what was there before.
  refine ⟨?_, tablesMatch_apply hformed h.outermost, ?_⟩
  · intro s name value howned
    have hstep := owned?_apply_eq_some hformed hfits howned
    rw [stored?_apply hformed hfits]
    cases hwrite : a.writes? scopes name s with
    | some v => rwa [hwrite] at hstep
    | none =>
      rw [hwrite, Option.none_or] at hstep
      rw [Option.none_or, h.stored s name value hstep]
  · intro s name value hstored
    rw [stored?_apply hformed hfits] at hstored
    cases hwrite : a.writes? scopes name s with
    | some v =>
      obtain ⟨o, ho, howns⟩ := exists_owner_of_writes? hformed hfits hwrite
      rw [path_apply hformed hfits (lt_size_of_writes? hformed hfits hwrite)]
      exact ⟨o, ho, howns⟩
    | none =>
      rw [hwrite, Option.none_or] at hstored
      obtain ⟨o, ho, howns⟩ := h.owner s name value hstored
      rw [path_apply hformed hfits (lt_size_of_stored? hstored)]
      exact ⟨o, ho, owns_apply hformed hfits howns⟩

/-! ## Reading and writing in an anchored forest -/

namespace Anchored

/-- A name can be read exactly if a scope on the path owns it. -/
theorem isSome_get?_iff (h : scopes.Anchored) (hformed : scopes.Formed) :
    (scopes.get? e name).isSome = true ↔ ∃ o ∈ scopes.path e, scopes.owns o name = true := by
  rw [get?, List.findSome?_isSome_iff]
  constructor
  · rintro ⟨s, hs, hstored⟩
    obtain ⟨value, hvalue⟩ := Option.isSome_iff_exists.mp hstored
    obtain ⟨o, ho, howns⟩ := h.owner s name value hvalue
    exact ⟨o, mem_path_trans hformed hs ho, howns⟩
  · rintro ⟨o, ho, howns⟩
    obtain ⟨value, hvalue⟩ := Option.isSome_iff_exists.mp howns
    exact ⟨o, ho, by simp [h.stored o name value hvalue]⟩

/-- An assignment to a name that can be read makes no scope an owner. -/
theorem owns_assign (h : scopes.Anchored) (hformed : scopes.Formed) (he : e < scopes.size)
    (hread : (scopes.get? e name).isSome = true) (value : Value) (s : ScopeId) (n : Bytes) :
    (scopes.assign e name value).2.owns s n = scopes.owns s n := by
  have howner := (h.isSome_get?_iff hformed).mp hread
  rw [owns, assign, owned?_assignAlong (lt_size_of_mem_path hformed he)]
  split
  next hlast =>
    obtain ⟨hlast, rfl⟩ := hlast
    rw [owns_getLast?_upToOwner howner hlast]
    rfl
  next => rfl

end Anchored

/-! ## Whole histories -/

namespace History

variable {h : History}

/-- Every forest that a history leaves behind is anchored. -/
theorem anchored_replay (hvalid : Valid h) : (replay h).Anchored := by
  induction h with
  | nil =>
    refine ⟨?_, ?_, ?_⟩
    · intro s name value howned
      simp [replay, owned?] at howned
    · intro s found hfound
      simp [replay] at hfound
    · intro s name value hstored
      simp [replay, stored?] at hstored
  | cons a h ih => exact anchored_apply (formed_replay hvalid.2) hvalid.1 (ih hvalid.2)

/-- An owner stays one, whatever is done later. -/
theorem owns_append {later : History} (hvalid : Valid (later ++ h))
    (howns : (replay h).owns s name = true) : (replay (later ++ h)).owns s name = true := by
  induction later with
  | nil => exact howns
  | cons a later ih => exact owns_apply (formed_replay hvalid.2) hvalid.1 (ih hvalid.2)

/-- After any history the tables of all scopes belong together. So a name can be read exactly where
a scope on the path owns it, an assignment to such a name makes no scope an owner, and no owner is
ever lost. -/
theorem ownership_replay (hvalid : Valid h) :
    (replay h).Anchored ∧
      (∀ e name, ((replay h).get? e name).isSome = true ↔
        ∃ o ∈ (replay h).path e, (replay h).owns o name = true) ∧
      (∀ e name value, e < (replay h).size → ((replay h).get? e name).isSome = true →
        ((replay h).assign e name value).1 = false ∧
          ∀ s n, ((replay h).assign e name value).2.owns s n = (replay h).owns s n) ∧
      ∀ later, Valid (later ++ h) → ∀ s name, (replay h).owns s name = true →
        (replay (later ++ h)).owns s name = true := by
  have hformed := formed_replay hvalid
  have hanchored := anchored_replay hvalid
  refine ⟨hanchored, fun e name => hanchored.isSome_get?_iff hformed, ?_, ?_⟩
  · intro e name value he hread
    have howner := (hanchored.isSome_get?_iff hformed).mp hread
    exact ⟨assignAlong_fst howner value, hanchored.owns_assign hformed he hread value⟩
  · intro later hlater s name howns
    exact owns_append hlater howns

/-- A name that is bound in the outermost scope is assigned from two scopes further in, and another
one that no scope owns is assigned from there as well. -/
def fromWithin : History :=
  [.assign 2 (text "y") (.integer 3), .assign 2 (text "x") (.integer 2), .child 1, .child 0,
    .create 0 (text "x") (.integer 1), .root]

theorem ownership_fromWithin :
    Valid fromWithin ∧ (replay fromWithin).Anchored ∧
      (∀ e name, ((replay fromWithin).get? e name).isSome = true ↔
        ∃ o ∈ (replay fromWithin).path e, (replay fromWithin).owns o name = true) ∧
      (∀ e name value, e < (replay fromWithin).size →
        ((replay fromWithin).get? e name).isSome = true →
        ((replay fromWithin).assign e name value).1 = false ∧
          ∀ s n, ((replay fromWithin).assign e name value).2.owns s n =
            (replay fromWithin).owns s n) ∧
      ∀ later, Valid (later ++ fromWithin) → ∀ s name, (replay fromWithin).owns s name = true →
        (replay (later ++ fromWithin)).owns s name = true := by
  have hvalid : Valid fromWithin := by
    simp [fromWithin, Valid, Action.Fits, replay, Action.apply, assign]
  exact ⟨hvalid, ownership_replay hvalid⟩

end History

end Rill.Scopes
