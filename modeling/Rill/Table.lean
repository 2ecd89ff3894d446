/-!
# Tables

An insertion-ordered association list. Putting a value under a key that is present keeps the place
of the entry and takes the new value; a new key goes to the end.

`Table.get?` is the view of a table: `get?_put` and `get?_erase` say what the operations do to it.
-/

namespace Rill

/-- Entries in the order in which their keys were first put. -/
abbrev Table (κ α : Type) := List (κ × α)

namespace Table

variable {κ α : Type} [DecidableEq κ]

/-- The value under a key. -/
def get? (k : κ) : Table κ α → Option α
  | [] => none
  | (k', v) :: entries => if k' = k then some v else get? k entries

/-- Puts a value under a key. -/
def put (k : κ) (v : α) : Table κ α → Table κ α
  | [] => [(k, v)]
  | (k', v') :: entries => if k' = k then (k, v) :: entries else (k', v') :: put k v entries

/-- Drops the entry of a key. -/
def erase (k : κ) : Table κ α → Table κ α
  | [] => []
  | (k', v) :: entries => if k' = k then erase k entries else (k', v) :: erase k entries

/-- Whether a key has an entry. -/
def has (k : κ) (t : Table κ α) : Bool := (get? k t).isSome

/-- The keys in order. -/
def keys (t : Table κ α) : List κ := t.map Prod.fst

/-- A key has the value that was put under it, and every other key keeps its own. -/
@[simp] theorem get?_put (k j : κ) (v : α) (t : Table κ α) :
    get? j (put k v t) = if k = j then some v else get? j t := by
  induction t with
  | nil => simp [put, get?]
  | cons e entries ih =>
    obtain ⟨k', v'⟩ := e
    by_cases h : k' = k
    · subst h; by_cases hj : k' = j <;> simp [put, get?, hj]
    · by_cases hj : k' = j
      · subst hj; simp [put, get?, h, Ne.symm h]
      · simp [put, get?, h, hj, ih]

/-- An erased key has no value, and every other key keeps its own. -/
@[simp] theorem get?_erase (k j : κ) (t : Table κ α) :
    get? j (erase k t) = if k = j then none else get? j t := by
  induction t with
  | nil => simp [erase, get?]
  | cons e entries ih =>
    obtain ⟨k', v'⟩ := e
    by_cases h : k' = k
    · subst h; by_cases hj : k' = j <;> simp_all [erase, get?]
    · by_cases hj : k' = j
      · subst hj; simp [erase, get?, h, Ne.symm h]
      · simp [erase, get?, h, hj, ih]

end Table

end Rill
