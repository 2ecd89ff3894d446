import Rill.Value.Key

/-!
# Values and their parts

Arrays and hashes have parts, and so has the value with which a function ends.

* `Value.partsInduction`: induction on the parts of a value.
* `Value.isBreach`: the faults that an evaluation takes for impossible.
* `Value.Hereditary`: properties that go from the parts of a value to the whole and back. A strict
  one looks at hashes as well, whose keys have to be filed.
* `Value.Each`: the hereditary property that every part without parts of its own is as a predicate
  says.
-/

namespace Rill

/-- Whether a fault is one that an evaluation takes for impossible. -/
def Fault.isBreach : Fault → Bool
  | gap | breach _ => true
  | _ => false

namespace Entries

/-- Every key is filed under what it is. -/
def Filed (entries : Entries) : Prop := ∀ e ∈ entries.pairs, e.2.1.key? = some e.1

/-- Both parts of every entry have a property, and if it is a strict one, every key is filed. -/
def All (strict : Prop) (P : Value → Prop) (entries : Entries) : Prop :=
  (strict → entries.Filed) ∧ ∀ e ∈ entries.pairs, P e.2.1 ∧ P e.2.2

end Entries

namespace Value

/-- Whether a value has neither parts nor a scope. -/
def isLeaf : Value → Bool
  | integer _ | float _ | double _ | boolean _ | string _ | null | builtin _ | error _ => true
  | _ => false

/-- Whether a value is a fault that an evaluation takes for impossible. -/
def isBreach : Value → Bool
  | error fault => fault.isBreach
  | _ => false

/-- Whether a value has neither parts nor a scope and is no breach. -/
def isPlain (v : Value) : Bool := v.isLeaf && ! v.isBreach

theorem isLeaf_of_isPlain {v : Value} (h : v.isPlain = true) : v.isLeaf = true :=
  (Bool.and_eq_true_iff.mp h).1

/-- A value that is no error is no breach. -/
theorem isBreach_of_isError {v : Value} (h : v.isError = false) : v.isBreach = false := by
  cases v with
  | error => cases h
  | _ => rfl

/-- Plain values are no breaches. -/
theorem isBreach_of_isPlain {v : Value} (h : v.isPlain = true) : v.isBreach = false := by
  simpa using (Bool.and_eq_true_iff.mp h).2

/-- What holds of values without parts and goes from the parts to the whole holds of all values. -/
@[elab_as_elim]
theorem partsInduction {motive : Value → Prop} (leaf : ∀ v, v.isLeaf = true → motive v)
    (array : ∀ stamp elements, (∀ v ∈ elements, motive v) → motive (.array stamp elements))
    (hash : ∀ stamp (entries : Entries), (∀ e ∈ entries.pairs, motive e.2.1 ∧ motive e.2.2) →
      motive (.hash stamp entries))
    (module : ∀ name path scope, motive (.module name path scope))
    (function : ∀ stamp parameters body scope, motive (.function stamp parameters body scope))
    (returned : ∀ stamp v, motive v → motive (.returned stamp v)) (broken : motive .broken) :
    ∀ v, motive v
  -- The recursor of a nested type gives no induction over members of lists, so this one recurses on
  -- the size.
  | .array stamp elements => array stamp elements fun v hv =>
      have := List.sizeOf_lt_of_mem hv
      partsInduction leaf array hash module function returned broken v
  | .hash stamp entries => hash stamp entries fun e he =>
      have := List.sizeOf_lt_of_mem he
      ⟨partsInduction leaf array hash module function returned broken e.2.1,
        partsInduction leaf array hash module function returned broken e.2.2⟩
  | .module name path scope => module name path scope
  | .function stamp parameters body scope => function stamp parameters body scope
  | .returned stamp v =>
      returned stamp v (partsInduction leaf array hash module function returned broken v)
  | .broken => broken
  | .integer _ | .float _ | .double _ | .boolean _ | .string _ | .null | .builtin _ | .error _ =>
      leaf _ rfl
termination_by v => sizeOf v
decreasing_by
  · rw [Value.array.sizeOf_spec]
    omega
  · obtain ⟨order, pairs⟩ := entries
    obtain ⟨k, key, v⟩ := e
    rw [Value.hash.sizeOf_spec]
    simp only [Filing.mk.sizeOf_spec, Prod.mk.sizeOf_spec] at *
    omega
  · obtain ⟨order, pairs⟩ := entries
    obtain ⟨k, key, v⟩ := e
    rw [Value.hash.sizeOf_spec]
    simp only [Filing.mk.sizeOf_spec, Prod.mk.sizeOf_spec] at *
    omega
  · rw [Value.returned.sizeOf_spec]
    omega

/-- A fault, or a value with a property. If the property is a strict one, the fault is no breach. -/
def Given (strict : Prop) (P : Value → Prop) (v : Value) : Prop :=
  v.isError = true ∧ (strict → v.isBreach = false) ∨ P v

/-- A property of all leaves, perhaps without the faults, that arrays and hashes have exactly if all
their parts have it. If it is a strict one, hashes have it only if their keys are filed. -/
structure Hereditary (strict : Prop) (P : Value → Prop) : Prop where
  leaf : ∀ {v : Value}, v.isLeaf = true → v.isError = false → P v
  array : ∀ {stamp : Stamp} {elements : List Value},
    P (.array stamp elements) ↔ ∀ v ∈ elements, P v
  hash : ∀ {stamp : Stamp} {entries : Entries}, P (.hash stamp entries) ↔ entries.All strict P

theorem hereditary_true : Hereditary False fun _ => True := by
  refine ⟨fun _ _ => trivial, ?_, ?_⟩ <;> simp [Entries.All]

/-- Plain values are given under every property that is inherited. -/
theorem Hereditary.given {strict : Prop} {P : Value → Prop} (hP : Hereditary strict P) {v : Value}
    (h : v.isPlain = true) : v.Given strict P := by
  cases herror : v.isError with
  | true => exact .inl ⟨herror, fun _ => isBreach_of_isPlain h⟩
  | false => exact .inr (hP.leaf (isLeaf_of_isPlain h) herror)

/-- Every part of a value that has no parts itself is as `L` says. -/
inductive Each (L : Value → Prop) : Value → Prop where
  | leaf {v : Value} (hleaf : v.isLeaf = true) (h : L v) : Each L v
  | array {stamp : Stamp} {elements : List Value} (h : ∀ v ∈ elements, Each L v) :
      Each L (.array stamp elements)
  | hash {stamp : Stamp} {entries : Entries} (hkey : ∀ e ∈ entries.pairs, Each L e.2.1)
      (hvalue : ∀ e ∈ entries.pairs, Each L e.2.2) : Each L (.hash stamp entries)
  | module {name path : Bytes} {scope : ScopeId} (h : L (.module name path scope)) :
      Each L (.module name path scope)
  | function {stamp : Stamp} {parameters : List Name} {body : Block} {scope : ScopeId}
      (h : L (.function stamp parameters body scope)) :
        Each L (.function stamp parameters body scope)
  | returned {stamp : Stamp} {v : Value} (h : Each L v) : Each L (.returned stamp v)
  | broken (h : L .broken) : Each L .broken

namespace Each

variable {L L' : Value → Prop} {v : Value} {stamp : Stamp}

/-- A weaker property holds of each leaf where a stronger one does. -/
theorem imp (hL : ∀ v, L v → L' v) (h : v.Each L) : v.Each L' := by
  induction h with
  | leaf hleaf h => exact .leaf hleaf (hL _ h)
  | array _ ih => exact .array ih
  | hash _ _ ihkey ihvalue => exact .hash ihkey ihvalue
  | module h => exact .module (hL _ h)
  | function h => exact .function (hL _ h)
  | returned _ ih => exact .returned ih
  | broken h => exact .broken (hL _ h)

/-- The leaves of an array are those of its elements. -/
theorem array_iff {elements : List Value} :
    (Value.array stamp elements).Each L ↔ ∀ v ∈ elements, v.Each L := by
  constructor
  · intro h
    cases h with
    | leaf hleaf => cases hleaf
    | array h => exact h
  · exact .array

/-- The leaves of a hash are those of its keys and values. -/
theorem hash_iff {entries : Entries} :
    (Value.hash stamp entries).Each L ↔ ∀ e ∈ entries.pairs, e.2.1.Each L ∧ e.2.2.Each L := by
  constructor
  · intro h
    cases h with
    | leaf hleaf => cases hleaf
    | hash hkey hvalue => exact fun e he => ⟨hkey e he, hvalue e he⟩
  · exact fun h => .hash (fun e he => (h e he).1) fun e he => (h e he).2

/-- The leaves of a returned value are those of what it carries. -/
theorem returned_iff : (Value.returned stamp v).Each L ↔ v.Each L := by
  constructor
  · intro h
    cases h with
    | leaf hleaf => cases hleaf
    | returned h => exact h
  · exact .returned

theorem module_iff {name path : Bytes} {scope : ScopeId} :
    (Value.module name path scope).Each L ↔ L (.module name path scope) := by
  constructor
  · intro h
    cases h with
    | leaf hleaf => cases hleaf
    | module h => exact h
  · exact .module

theorem function_iff {parameters : List Name} {body : Block} {scope : ScopeId} :
    (Value.function stamp parameters body scope).Each L ↔
      L (.function stamp parameters body scope) := by
  constructor
  · intro h
    cases h with
    | leaf hleaf => cases hleaf
    | function h => exact h
  · exact .function

/-- A property of all leaves is inherited by all parts. -/
theorem hereditary (hL : ∀ v : Value, v.isLeaf = true → v.isError = false → L v) :
    Hereditary False (Each L) where
  leaf hleaf herror := .leaf hleaf (hL _ hleaf herror)
  array := array_iff
  hash := hash_iff.trans (and_iff_right False.elim).symm

end Each

end Value

end Rill
