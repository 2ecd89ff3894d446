import Rill.Proofs.Scope.History

/-!
# When reading a name finds what its owner holds

An assignment leaves a copy of its value in every scope on its way to the owner of the name. Reading
looks at stores only, so a copy hides the owner until a later assignment passes through the scope of
the copy again.

* `Scopes.owner?`: the nearest scope around a scope that owns a name.
* `History.holder?`: the nearest scope around a scope that the name was ever written through.
* `History.latest`: the last operation that wrote a name in a scope, with the history before it.
* `History.get?_eq_owned?_iff`: a name reads as the value of its owner exactly if the last operation
  that reached the owner went through the holder as well, or left there the value that the holder
  had.
-/

namespace Rill.Scopes

variable {scopes : Scopes} {a : Action} {name : Bytes} {e s o : ScopeId} {value : Value}

/-- The nearest scope, from a scope outwards, that owns a name. -/
def owner? (scopes : Scopes) (scope : ScopeId) (name : Bytes) : Option ScopeId :=
  (scopes.path scope).find? fun s => scopes.owns s name

/-! ## Stretches up to an owner -/

/-- The first owner of a path ends the stretch. -/
private theorem mem_upToOwner_of_find? {path : List ScopeId}
    (h : path.find? (fun s => scopes.owns s name) = some o) : o ∈ scopes.upToOwner name path := by
  induction path with
  | nil => simp at h
  | cons t rest ih =>
    rw [List.find?_cons] at h
    rw [upToOwner]
    split at h
    next howns =>
      rw [if_pos howns, List.mem_singleton]
      exact (Option.some.inj h).symm
    next howns =>
      rw [if_neg (by simp [howns])]
      exact List.mem_cons_of_mem _ (ih h)

/-- With fewer owners a stretch is no shorter. -/
private theorem mem_upToOwner_of_owns_imp {scopes' : Scopes} {path : List ScopeId}
    (howns : ∀ t, scopes.owns t name = true → scopes'.owns t name = true)
    (h : o ∈ scopes'.upToOwner name path) : o ∈ scopes.upToOwner name path := by
  induction path with
  | nil => exact h
  | cons t rest ih =>
    rw [upToOwner] at h ⊢
    split at h
    next =>
      rw [List.mem_singleton.mp h]
      split <;> simp
    next hnot =>
      rw [if_neg (fun ht => hnot (howns t ht))]
      rcases List.mem_cons.mp h with rfl | h
      · exact List.mem_cons_self
      · exact List.mem_cons_of_mem _ (ih h)

/-- A stretch goes on through each of its scopes as the stretch from there does. -/
private theorem mem_upToOwner_trans (hformed : scopes.Formed) {d : ScopeId}
    (hs : s ∈ scopes.upToOwner name (scopes.path d))
    (ho : o ∈ scopes.upToOwner name (scopes.path s)) :
    o ∈ scopes.upToOwner name (scopes.path d) := by
  -- Outer scopes have lower numbers, so the induction goes outwards from `d`.
  induction d using Nat.strongRecOn with
  | ind d ih =>
    by_cases hsd : s = d
    · rwa [← hsd]
    rw [path_eq hformed, upToOwner] at hs ⊢
    split at hs
    next => exact absurd (List.mem_singleton.mp hs) hsd
    next hnot =>
      rw [if_neg hnot]
      have hrest := (List.mem_cons.mp hs).resolve_left hsd
      cases houter : scopes.outer? d with
      | none => simp [houter, upToOwner] at hrest
      | some outer =>
        rw [houter] at hrest
        exact List.mem_cons_of_mem _ (ih outer (hformed d outer houter) hrest)

/-! ## Copies lag behind owners, never the other way round -/

/-- An operation that writes scope `s` goes on to every scope that is still between `s` and the
owner after it. -/
private theorem writes?_of_mem_upToOwner (hformed : scopes.Formed) (hfits : a.Fits scopes)
    (ho : o ∈ (a.apply scopes).upToOwner name ((a.apply scopes).path s))
    (hwrite : a.writes? scopes name s = some value) : a.writes? scopes name o = some value := by
  cases a with
  | root => simp [Action.writes?] at hwrite
  | child => simp [Action.writes?] at hwrite
  | create scope n v =>
    simp only [Action.writes?, Option.ite_none_right_eq_some, Option.some.injEq] at hwrite
    obtain ⟨⟨rfl, rfl⟩, rfl⟩ := hwrite
    -- Now `s` owns the name, so the stretch from `s` is `s` alone.
    have howns : ((Action.create s n v).apply scopes).owns s n = true := by
      simp [owns, Action.apply, owned?_create hfits]
    rw [path_eq (formed_apply hformed hfits), upToOwner, if_pos howns, List.mem_singleton] at ho
    simp [Action.writes?, ho]
  | assign scope n v =>
    simp only [Action.writes?, Option.ite_none_right_eq_some, Option.some.injEq] at hwrite
    obtain ⟨⟨hmem, rfl⟩, rfl⟩ := hwrite
    have hs : s < scopes.size :=
      lt_size_of_mem_path hformed hfits s (mem_of_mem_upToOwner hmem)
    rw [path_apply hformed hfits hs] at ho
    have hbefore := mem_upToOwner_of_owns_imp (fun t => owns_apply hformed hfits) ho
    simp [Action.writes?, mem_upToOwner_trans hformed hmem hbefore]

namespace History

variable {h : History}

/-- The last operation that wrote a name in scope `s`, with the history before it. -/
def latest (name : Bytes) (s : ScopeId) : History → Option (Action × History)
  | [] => none
  | a :: h => if (a.writes? (replay h) name s).isSome then some (a, h) else latest name s h

/-- The nearest scope, from a scope outwards, that a name was ever written through. -/
def holder? (h : History) (scope : ScopeId) (name : Bytes) : Option ScopeId :=
  ((replay h).path scope).find? fun s => (lastWrite name s h).isSome

/-- There is a last operation that wrote a scope whose store has a value, and it left that value. -/
private theorem exists_latest (hlast : lastWrite name s h = some value) :
    ∃ a before, latest name s h = some (a, before) ∧
      a.writes? (replay before) name s = some value := by
  induction h with
  | nil => simp [lastWrite] at hlast
  | cons b h ih =>
    rw [lastWrite] at hlast
    rw [latest]
    cases hwrite : b.writes? (replay h) name s with
    | some v =>
      rw [hwrite, Option.some_or] at hlast
      exact ⟨b, h, rfl, hwrite.trans hlast⟩
    | none =>
      rw [hwrite, Option.none_or] at hlast
      exact ih hlast

/-- If nothing was ever written through scope `s`, then neither at nor before the last operation on
another one. -/
private theorem lastWrite_eq_none_of_latest {before : History}
    (hlatest : latest name o h = some (a, before)) (hnone : lastWrite name s h = none) :
    (a.writes? (replay before) name s).or (lastWrite name s before) = none := by
  induction h with
  | nil => simp [latest] at hlatest
  | cons b h ih =>
    rw [latest] at hlatest
    split at hlatest
    · cases hlatest
      exact hnone
    · exact ih hlatest (Option.or_eq_none_iff.mp hnone).2

/-- What scope `s` holds was written by the last operation that reached the owner, or before it. -/
private theorem lastWrite_eq_of_latest {before : History} (hvalid : Valid h)
    (ho : o ∈ (replay h).upToOwner name ((replay h).path s))
    (hlatest : latest name o h = some (a, before)) :
    lastWrite name s h = (a.writes? (replay before) name s).or (lastWrite name s before) := by
  induction h with
  | nil => simp [latest] at hlatest
  | cons b h ih =>
    have hformed := formed_replay hvalid.2
    rw [latest] at hlatest
    split at hlatest
    next =>
      cases hlatest
      rfl
    next hpassed =>
      have hwrite : b.writes? (replay h) name s = none := by
        cases hwrite : b.writes? (replay h) name s with
        | none => rfl
        | some v =>
          have hreached := writes?_of_mem_upToOwner hformed hvalid.1 ho hwrite
          exact absurd (by simp [hreached]) hpassed
      rw [lastWrite, hwrite, Option.none_or]
      rcases Nat.lt_or_ge s (replay h).size with hs | hs
      · rw [replay, path_apply hformed hvalid.1 hs] at ho
        exact ih hvalid.2 (mem_upToOwner_of_owns_imp (fun t => owns_apply hformed hvalid.1) ho)
          hlatest
      · -- Scope `s` was only just made.
        have hnone : lastWrite name s h = none := by
          rw [← stored?_replay hvalid.2]
          simp [stored?, hs]
        rw [hnone, lastWrite_eq_none_of_latest hlatest hnone]

/-- The holder of a name stands at or inside its owner, with no other owner between them. -/
private theorem exists_holder (hvalid : Valid h) (howner : (replay h).owner? e name = some o) :
    ∃ s, holder? h e name = some s ∧ o ∈ (replay h).upToOwner name ((replay h).path s) := by
  have hformed := formed_replay hvalid
  induction e using Nat.strongRecOn with
  | ind e ih =>
    rw [holder?, path_eq hformed, List.find?_cons]
    split
    next => exact ⟨e, rfl, mem_upToOwner_of_find? howner⟩
    next hnone =>
      -- A scope that nothing was written through owns nothing, so the owner is further out.
      have hnot : (replay h).owns e name = false := by
        rw [owns, Option.isSome_eq_false_iff, Option.isNone_iff_eq_none]
        cases howned : (replay h).owned? name e with
        | none => rfl
        | some v => simp [lastWrite_of_owned? hvalid howned] at hnone
      rw [owner?, path_eq hformed, List.find?_cons, hnot] at howner
      cases houter : (replay h).outer? e with
      | none => simp [houter] at howner
      | some outer =>
        rw [houter] at howner
        exact ih outer (hformed e outer houter) howner

/-- Reading a name finds what was last written through its holder. -/
theorem get?_replay (hvalid : Valid h) (hholder : holder? h e name = some s) :
    (replay h).get? e name = lastWrite name s h := by
  have hstored : (replay h).stored? name = fun t => lastWrite name t h :=
    funext (stored?_replay hvalid name)
  obtain ⟨hsome, inner, rest, hpath, hinner⟩ := List.find?_eq_some_iff_append.mp hholder
  rw [get?, hpath, hstored, List.findSome?_append]
  have hskip : inner.findSome? (fun t => lastWrite name t h) = none := by
    rw [List.findSome?_eq_none_iff]
    intro t ht
    simpa using hinner t ht
  obtain ⟨v, hv⟩ := Option.isSome_iff_exists.mp hsome
  simp [hskip, hv]

/-- The two values that an operation leaves in two scopes under one name are the same. -/
private theorem writes?_inj {v : Value} (hs : a.writes? scopes name s = some v)
    (ho : a.writes? scopes name o = some value) : v = value := by
  cases a <;> simp_all [Action.writes?]

/-- Reading finds the owner's value exactly if no write overtook the holder: the last operation that
reached the owner went through the holder as well, or left with the owner what the holder had
already. -/
theorem get?_eq_owned?_iff (hvalid : Valid h) (howner : (replay h).owner? e name = some o) :
    ∃ s a before value, holder? h e name = some s ∧ (replay h).get? e name = lastWrite name s h ∧
      latest name o h = some (a, before) ∧ a.writes? (replay before) name o = some value ∧
      (replay h).owned? name o = some value ∧
      ((replay h).get? e name = (replay h).owned? name o ↔
        a.writes? (replay before) name s = some value ∨ lastWrite name s before = some value) := by
  obtain ⟨s, hholder, hstretch⟩ := exists_holder hvalid howner
  have howns : (replay h).owns o name = true := List.find?_some (p := fun t => owns _ t name) howner
  obtain ⟨value, howned⟩ := Option.isSome_iff_exists.mp howns
  obtain ⟨a, before, hlatest, hwrite⟩ := exists_latest (lastWrite_of_owned? hvalid howned)
  have hget := get?_replay hvalid hholder
  refine ⟨s, a, before, value, hholder, hget, hlatest, hwrite, howned, ?_⟩
  rw [hget, howned, lastWrite_eq_of_latest hvalid hstretch hlatest]
  cases hthrough : a.writes? (replay before) name s with
  | none => simp
  | some v => simp [writes?_inj hthrough hwrite]

/-- A name of the outermost scope is assigned from the scope inside it, and then from the outermost
scope itself. -/
def overtaken : History :=
  [.assign 0 (text "x") (.integer 3), .assign 1 (text "x") (.integer 2), .child 0,
    .create 0 (text "x") (.integer 1), .root]

/-- The inner scope keeps reading the value that it assigned. -/
theorem get?_overtaken :
    (replay overtaken).owner? 1 (text "x") = some 0 ∧
      (replay overtaken).owned? (text "x") 0 = some (.integer 3) ∧
      (replay overtaken).get? 1 (text "x") = some (.integer 2) ∧
      ∃ s a before value, holder? overtaken 1 (text "x") = some s ∧
        (replay overtaken).get? 1 (text "x") = lastWrite (text "x") s overtaken ∧
        latest (text "x") 0 overtaken = some (a, before) ∧
        a.writes? (replay before) (text "x") 0 = some value ∧
        (replay overtaken).owned? (text "x") 0 = some value ∧
        ((replay overtaken).get? 1 (text "x") = (replay overtaken).owned? (text "x") 0 ↔
          a.writes? (replay before) (text "x") s = some value ∨
            lastWrite (text "x") s before = some value) := by
  have hvalid : Valid overtaken := by
    simp [overtaken, Valid, Action.Fits, replay, Action.apply, assign]
  have howner : (replay overtaken).owner? 1 (text "x") = some 0 := by decide +kernel
  exact ⟨howner, rfl, rfl, get?_eq_owned?_iff hvalid howner⟩

end History

end Rill.Scopes
