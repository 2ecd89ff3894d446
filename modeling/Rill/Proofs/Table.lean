import Mathlib.Data.List.Nodup
import Rill.Table

/-!
# Entries of tables

The entries of a table as a list, beside the view of it by keys. In a table without two entries of
one key both say the same (`Table.mem_of_get?`, `Table.get?_of_mem`), and the operations keep such
tables (`Table.nodup_keys_put`, `Table.nodup_keys_erase`). The keys do not depend on the values
(`Table.mapValues`).
-/

namespace Rill.Table

variable {κ α : Type} [DecidableEq κ] {k : κ} {v : α} {e : κ × α} {t : Table κ α}

/-- What is found under a key is an entry with this key. -/
theorem mem_of_get? (h : get? k t = some v) : (k, v) ∈ t := by
  induction t with
  | nil => cases h
  | cons e entries ih =>
    obtain ⟨k', v'⟩ := e
    rw [get?] at h
    split at h
    next hk =>
      rw [← hk, ← Option.some.inj h]
      exact List.mem_cons_self
    next => exact List.mem_cons_of_mem _ (ih h)

/-- An entry after putting one is this one or was there before. -/
theorem mem_put (h : e ∈ put k v t) : e = (k, v) ∨ e ∈ t := by
  induction t with
  | nil => exact .inl (List.mem_singleton.mp h)
  | cons e' entries ih =>
    obtain ⟨k', v'⟩ := e'
    rw [put] at h
    split at h
    · rcases List.mem_cons.mp h with h | h
      · exact .inl h
      · exact .inr (List.mem_cons_of_mem _ h)
    · rcases List.mem_cons.mp h with h | h
      · exact .inr (List.mem_cons.mpr (.inl h))
      · rcases ih h with h | h
        · exact .inl h
        · exact .inr (List.mem_cons_of_mem _ h)

/-- A key is there if it is among the keys. -/
theorem has_iff : has k t = true ↔ k ∈ t.keys := by
  induction t with
  | nil => simp [has, get?, keys]
  | cons e t ih =>
    obtain ⟨k', v'⟩ := e
    rw [has] at ih
    rw [has, get?]
    split
    next hk => simp [keys, hk]
    next hk => simp [keys, Ne.symm hk, ih]

/-- In a table without repeated keys an entry is found under its key. -/
theorem get?_of_mem (hkeys : t.keys.Nodup) (h : (k, v) ∈ t) : get? k t = some v := by
  induction t with
  | nil => cases h
  | cons e t ih =>
    obtain ⟨k', v'⟩ := e
    obtain ⟨hfresh, hkeys⟩ := List.nodup_cons.mp hkeys
    rw [get?]
    rcases List.mem_cons.mp h with heq | hmem
    · cases heq
      exact if_pos rfl
    · have hk : k' ≠ k := by
        rintro rfl
        exact hfresh (List.mem_map.mpr ⟨_, hmem, rfl⟩)
      rw [if_neg hk, ih hkeys hmem]

/-- A new key goes to the end. -/
theorem put_of_not_mem (h : k ∉ t.keys) : put k v t = t ++ [(k, v)] := by
  induction t with
  | nil => rfl
  | cons e t ih =>
    obtain ⟨k', v'⟩ := e
    obtain ⟨hne, hmem⟩ := not_or.mp (mt List.mem_cons.mpr h)
    rw [put, if_neg (Ne.symm hne), ih hmem, List.cons_append]

/-- A key that is there keeps its place. -/
theorem keys_put_of_mem (h : k ∈ t.keys) : (put k v t).keys = t.keys := by
  induction t with
  | nil => cases h
  | cons e t ih =>
    obtain ⟨k', v'⟩ := e
    rw [put]
    split
    next hk => simp [keys, hk]
    next hk =>
      have hmem : k ∈ keys t := (List.mem_cons.mp h).resolve_left (Ne.symm hk)
      exact congrArg (k' :: ·) (ih hmem)

/-- The keys after putting an entry are its key and those from before. -/
theorem mem_keys_put {j : κ} : j ∈ (put k v t).keys ↔ j = k ∨ j ∈ t.keys := by
  induction t with
  | nil => simp [put, keys]
  | cons e t ih =>
    obtain ⟨k', v'⟩ := e
    rw [put]
    split
    next hk => simp [keys, hk]
    next =>
      have ih : j ∈ List.map Prod.fst (put k v t) ↔ j = k ∨ j ∈ List.map Prod.fst t := ih
      simp [keys, ih, or_left_comm]

/-- Putting an entry repeats no key. -/
theorem nodup_keys_put (h : t.keys.Nodup) : (put k v t).keys.Nodup := by
  induction t with
  | nil => simp [put, keys]
  | cons e t ih =>
    obtain ⟨k', v'⟩ := e
    obtain ⟨hfresh, hkeys⟩ := List.nodup_cons.mp h
    rw [put]
    split
    next hk =>
      subst hk
      exact h
    next hk =>
      refine List.nodup_cons.mpr ⟨fun hmem => ?_, ih hkeys⟩
      exact (mem_keys_put.mp hmem).elim hk hfresh

/-- Putting a value under a key that is there replaces its entry and no other. -/
theorem put_eq_map (hkeys : t.keys.Nodup) (h : k ∈ t.keys) :
    put k v t = t.map fun e => if e.1 = k then (k, v) else e := by
  induction t with
  | nil => cases h
  | cons e t ih =>
    obtain ⟨k', v'⟩ := e
    obtain ⟨hfresh, hkeys⟩ := List.nodup_cons.mp hkeys
    rw [put, List.map_cons]
    split
    next hk =>
      have htail : ∀ e ∈ t, (if e.1 = k then (k, v) else e) = e := by
        intro e he
        rw [if_neg]
        intro heq
        exact hfresh (List.mem_map.mpr ⟨e, he, heq.trans hk.symm⟩)
      rw [List.map_congr_left htail, List.map_id']
    next hk => rw [ih hkeys ((List.mem_cons.mp h).resolve_left (Ne.symm hk))]

/-- Dropping an entry drops its key and keeps the order of the others. -/
theorem keys_erase_sublist : (erase k t).keys.Sublist t.keys := by
  induction t with
  | nil => exact .slnil
  | cons e t ih =>
    obtain ⟨k', v'⟩ := e
    rw [erase]
    split
    next => exact ih.cons k'
    next => exact ih.cons_cons k'

/-- The values are those of the keys, key by key. -/
theorem filterMap_get?_keys (h : t.keys.Nodup) : t.keys.filterMap (get? · t) = t.map Prod.snd := by
  rw [keys, List.filterMap_map, ← List.filterMap_eq_map]
  refine List.filterMap_congr fun e he => ?_
  exact get?_of_mem h he

/-- In a table without repeated keys the values are those that are found. -/
theorem mem_values_iff (h : t.keys.Nodup) : v ∈ t.map Prod.snd ↔ ∃ k, get? k t = some v := by
  rw [List.mem_map]
  constructor
  · rintro ⟨⟨k, v⟩, hmem, rfl⟩
    exact ⟨k, get?_of_mem h hmem⟩
  · rintro ⟨k, hget⟩
    exact ⟨(k, v), mem_of_get? hget, rfl⟩

/-- Values are not repeated if no two keys have the same one. -/
theorem nodup_values (h : t.keys.Nodup)
    (hunique : ∀ k k' v, get? k t = some v → get? k' t = some v → k = k') :
    (t.map Prod.snd).Nodup := by
  refine List.Nodup.map_on ?_ h.of_map
  rintro ⟨k, v⟩ hmem ⟨k', v'⟩ hmem' rfl
  rw [hunique k k' v (get?_of_mem h hmem) (get?_of_mem h hmem')]

theorem nodup_keys_erase (h : t.keys.Nodup) : (erase k t).keys.Nodup := h.sublist keys_erase_sublist

/-! ## Other values -/

/-- A table with other values under the same keys. -/
def mapValues {β : Type} (f : α → β) (t : Table κ α) : Table κ β := t.map (Prod.map id f)

section MapValues

variable {β : Type} (f : α → β)

/-- A function of all values is found as the function of what is found. -/
@[simp]
theorem get?_mapValues (k : κ) (t : Table κ α) : get? k (mapValues f t) = (get? k t).map f := by
  induction t with
  | nil => rfl
  | cons e t ih =>
    obtain ⟨k', v'⟩ := e
    show (if k' = k then some (f v') else get? k (mapValues f t)) = _
    rw [ih, get?]
    split <;> rfl

/-- A function of all values can be taken before or after putting one. -/
@[simp]
theorem put_mapValues (k : κ) (v : α) (t : Table κ α) :
    put k (f v) (mapValues f t) = mapValues f (put k v t) := by
  induction t with
  | nil => rfl
  | cons e t ih =>
    obtain ⟨k', v'⟩ := e
    show (if k' = k then (k, f v) :: mapValues f t else (k', f v') :: put k (f v)
      (mapValues f t)) = _
    rw [ih, put]
    split <;> rfl

omit [DecidableEq κ] in
@[simp]
theorem keys_mapValues (t : Table κ α) : keys (mapValues f t) = keys t := by
  simp [keys, mapValues]

end MapValues

end Rill.Table
