import Mathlib.Data.List.Perm.Subperm
import Mathlib.Logic.Relation
import Mathlib.Order.WellFounded
import Rill.Proofs.Scope.Ownership
import Rill.Proofs.Scope.Writes
import Rill.Proofs.Table
import Rill.Proofs.Value.Parts
import Rill.Value.Inspect

/-!
# Values that end somewhere

An array contains its elements, a hash its keys and values, and a module what its scope owns. Arrays
and hashes never change, but scopes do, so a module can come to contain itself.

* `Scopes.Contains`, `Scopes.Finite`: containment, and the values from which it is well-founded.
* `Scopes.Encloses`: a value is a module of a certain scope, or contains one at some depth.
* `Scopes.Rebinds.finite`, `Scopes.Rebinds.not_finite`: a value that a scope comes to own leaves all
  values finite exactly if it does not enclose a module of that scope.
* `Scopes.finite_iff_isSome_inspect`: the finite values are those that have a text.
-/

namespace Rill

open Relation (ReflTransGen TransGen)

namespace Scopes

/-- What a value contains: its parts, and if it is a module, what its scope owns. -/
inductive Contains (scopes : Scopes) : Value → Value → Prop where
  | element {stamp : Stamp} {elements : List Value} {v : Value} (hv : v ∈ elements) :
      Contains scopes (.array stamp elements) v
  | key {stamp : Stamp} {entries : Entries} {e : Key × Value × Value} (he : e ∈ entries.pairs) :
      Contains scopes (.hash stamp entries) e.2.1
  | entry {stamp : Stamp} {entries : Entries} {e : Key × Value × Value} (he : e ∈ entries.pairs) :
      Contains scopes (.hash stamp entries) e.2.2
  | owned {name path n : Bytes} {s : ScopeId} {v : Value} (hv : scopes.owned? n s = some v) :
      Contains scopes (.module name path s) v
  | carried {stamp : Stamp} {v : Value} : Contains scopes (.returned stamp v) v

/-- Containment is well-founded from a value. -/
def Finite (scopes : Scopes) (v : Value) : Prop :=
  Acc (fun part whole => scopes.Contains whole part) v

/-- A value is a module of a scope, or it contains one at some depth. -/
def Encloses (scopes : Scopes) (v : Value) (o : ScopeId) : Prop :=
  ∃ name path, ReflTransGen scopes.Contains v (.module name path o)

variable {scopes before after : Scopes} {o s : ScopeId} {v u part : Value}

/-- What a finite value contains is finite. -/
theorem Finite.inv (h : scopes.Finite v) (hpart : scopes.Contains v part) : scopes.Finite part :=
  Acc.inv h hpart

/-- A value is finite if all that it contains is. -/
theorem Finite.of_parts (h : ∀ part, scopes.Contains v part → scopes.Finite part) :
    scopes.Finite v :=
  Acc.intro v h

/-- A finite value does not come up again among what it contains. -/
theorem Finite.not_cyclic (h : scopes.Finite v) : ¬ TransGen scopes.Contains v v := by
  induction h with
  | intro v _ ih =>
    -- If it did, then so would the first part on the way.
    intro hcycle
    obtain ⟨part, hpart, hrest⟩ := TransGen.head'_iff.mp hcycle
    exact ih part hpart (TransGen.tail' hrest hpart)

/-- A value encloses what its parts enclose. -/
theorem Encloses.of_contains (hpart : scopes.Contains v part) (h : scopes.Encloses part o) :
    scopes.Encloses v o := by
  obtain ⟨name, path, h⟩ := h
  exact ⟨name, path, h.head hpart⟩

/-- A module encloses its own scope. -/
theorem encloses_module (scopes : Scopes) (name path : Bytes) (o : ScopeId) :
    scopes.Encloses (.module name path o) o :=
  ⟨name, path, .refl⟩

/-- A leaf contains nothing. -/
theorem not_contains_of_isLeaf (h : v.isLeaf = true) : ¬ scopes.Contains v part := by
  intro hpart
  cases hpart <;> cases h

/-- A leaf encloses no scope. -/
theorem not_encloses_of_isLeaf (h : v.isLeaf = true) : ¬ scopes.Encloses v o := by
  rintro ⟨name, path, hreach⟩
  rcases hreach.cases_head with rfl | ⟨part, hpart, -⟩
  · cases h
  · exact not_contains_of_isLeaf h hpart

/-- The values with a property are finite, if the modules with it are and every other value passes
it on to its parts. -/
theorem finite_of_inherited {P : Value → Prop}
    (hmodule : ∀ name path s, P (.module name path s) → scopes.Finite (.module name path s))
    (hparts : ∀ v part, (∀ name path s, v ≠ .module name path s) →
      scopes.Contains v part → P v → P part) (h : P v) : scopes.Finite v := by
  -- The induction is on what stands inside a value. It ends at modules, whose scopes may own
  -- anything: there the premise takes over.
  induction v using Value.partsInduction with
  | leaf v hleaf => exact .of_parts fun _ hpart => absurd hpart (not_contains_of_isLeaf hleaf)
  | array stamp elements ih =>
    refine .of_parts fun part hpart => ?_
    have hP := hparts _ part (by simp) hpart h
    cases hpart with
    | element hmem => exact ih part hmem hP
  | hash stamp entries ih =>
    refine .of_parts fun part hpart => ?_
    have hP := hparts _ part (by simp) hpart h
    cases hpart with
    | key hmem => exact (ih _ hmem).1 hP
    | entry hmem => exact (ih _ hmem).2 hP
  | module name path s => exact hmodule name path s h
  | function => exact .of_parts fun _ hpart => by cases hpart
  | returned stamp v ih =>
    refine .of_parts fun part hpart => ?_
    have hP := hparts _ part (by simp) hpart h
    cases hpart with
    | carried => exact ih hP
  | broken => exact .of_parts fun _ hpart => by cases hpart

/-- All values are finite if all modules are. -/
theorem finite_of_modules (h : ∀ name path s, scopes.Finite (.module name path s)) (v : Value) :
    scopes.Finite v :=
  finite_of_inherited (P := fun _ => True) (fun name path s _ => h name path s)
    (fun _ _ _ _ _ => trivial) trivial

/-! ## Changes of what is owned -/

/-- A value contains the same if, being a module, its scope owns the same. -/
theorem Contains.congr (h : ∀ name path t n, v = .module name path t →
    after.owned? n t = before.owned? n t)
    (hpart : before.Contains v part) : after.Contains v part := by
  cases hpart with
  | element hmem => exact .element hmem
  | key hmem => exact .key hmem
  | entry hmem => exact .entry hmem
  | carried => exact .carried
  | owned howned => exact .owned ((h _ _ _ _ rfl).trans howned)

/-- Whether a value is finite depends only on what the scopes own. -/
theorem Finite.congr (h : ∀ n t, after.owned? n t = before.owned? n t) (hv : before.Finite v) :
    after.Finite v := by
  induction hv with
  | intro v _ ih =>
    exact .of_parts fun part hpart => ih part (hpart.congr fun _ _ t n _ => (h n t).symm)

/-- Values other than the modules of one scope contain the same if the other scopes own the same. -/
theorem contains_iff_of_ne (h : ∀ n t, t ≠ o → after.owned? n t = before.owned? n t)
    (hv : ∀ name path, v ≠ .module name path o) :
    after.Contains v part ↔ before.Contains v part := by
  have hne : ∀ name path t, v = .module name path t → t ≠ o := by
    rintro name path t rfl rfl
    exact hv name path rfl
  refine ⟨.congr fun name path t n hmodule => ?_, .congr fun name path t n hmodule => ?_⟩
  · exact (h n t (hne name path t hmodule)).symm
  · exact h n t (hne name path t hmodule)

/-- The way to a module of a scope leads through values that are not modules of this scope, up to
the first one that is. -/
theorem Encloses.congr (h : ∀ n t, t ≠ o → after.owned? n t = before.owned? n t)
    (hv : before.Encloses v o) : after.Encloses v o := by
  obtain ⟨name, path, hreach⟩ := hv
  induction hreach using ReflTransGen.head_induction_on with
  | refl => exact encloses_module after name path o
  | @head v part hpart _ ih =>
    by_cases hmodule : ∃ name path, v = .module name path o
    · obtain ⟨name, path, rfl⟩ := hmodule
      exact encloses_module after name path o
    · simp only [not_exists] at hmodule
      exact .of_contains ((contains_iff_of_ne h hmodule).mpr hpart) ih

/-- What a scope owns itself does not change which values enclose it. -/
theorem encloses_iff (h : ∀ n t, t ≠ o → after.owned? n t = before.owned? n t) :
    after.Encloses v o ↔ before.Encloses v o :=
  ⟨.congr fun n t hne => (h n t hne).symm, .congr h⟩

/-- One scope has come to own a value. What it owns besides it owned before, and the other scopes
own the same. -/
structure Rebinds (before after : Scopes) (o : ScopeId) (v : Value) : Prop where
  other : ∀ n t, t ≠ o → after.owned? n t = before.owned? n t
  gained : ∀ n u, after.owned? n o = some u → before.owned? n o = some u ∨ u = v
  owned : ∃ n, after.owned? n o = some v

namespace Rebinds

/-- A value that does not enclose the scope that comes to own something stays finite. -/
theorem finite_of_not_encloses (h : Rebinds before after o v) (hu : before.Finite u)
    (hnot : ¬ before.Encloses u o) : after.Finite u := by
  induction hu with
  | intro u _ ih =>
    have hne : ∀ name path, u ≠ .module name path o := by
      rintro name path rfl
      exact hnot (encloses_module before name path o)
    refine .of_parts fun part hpart => ?_
    have hpart := (contains_iff_of_ne h.other hne).mp hpart
    exact ih part hpart fun henc => hnot (.of_contains hpart henc)

/-- All values stay finite if the scope comes to own one that does not enclose a module of it. -/
theorem finite (h : Rebinds before after o v) (hv : before.Finite v) (hnot : ¬ before.Encloses v o)
    (hu : before.Finite u) : after.Finite u := by
  induction hu with
  | intro u _ ih =>
    refine .of_parts fun part hpart => ?_
    by_cases hmodule : ∃ name path, u = .module name path o
    · -- What a module of the scope contains was there before, or it is the new value.
      obtain ⟨name, path, rfl⟩ := hmodule
      cases hpart with
      | owned howned =>
        rcases h.gained _ _ howned with howned | rfl
        · exact ih part (.owned howned)
        · exact h.finite_of_not_encloses hv hnot
    · simp only [not_exists] at hmodule
      exact ih part ((contains_iff_of_ne h.other hmodule).mp hpart)

/-- A value that encloses a module of the scope that comes to own it contains itself from then
on. -/
theorem not_finite (h : Rebinds before after o v) (henc : before.Encloses v o) :
    ¬ after.Finite v := by
  intro hfinite
  obtain ⟨name, path, hreach⟩ := (encloses_iff h.other).mpr henc
  obtain ⟨n, howned⟩ := h.owned
  exact hfinite.not_cyclic (TransGen.tail' hreach (.owned howned))

end Rebinds

/-- A binding leaves what the other scopes own. -/
theorem owned?_create_of_ne {t : ScopeId} (hne : t ≠ s) (name : Bytes) (v : Value) (n : Bytes) :
    (scopes.create s name v).owned? n t = scopes.owned? n t := by
  rw [owned?, create, Array.getElem?_modify, if_neg hne.symm, owned?]

/-- A binding lets its scope own the value. -/
theorem rebinds_create (hscope : s < scopes.size) (name : Bytes) (v : Value) :
    Rebinds scopes (scopes.create s name v) s v := by
  refine ⟨fun n t hne => owned?_create_of_ne hne name v n, ?_, name, ?_⟩
  · intro n u hu
    rw [owned?_create hscope] at hu
    split at hu
    · exact .inr (Option.some.inj hu).symm
    · exact .inl hu
  · rw [owned?_create hscope, if_pos ⟨rfl, rfl⟩]

/-- The stretch of a path up to the owner of a name has an end. -/
theorem exists_getLast?_upToOwner_path (scopes : Scopes) (s : ScopeId) (name : Bytes) :
    ∃ o, (scopes.upToOwner name (scopes.path s)).getLast? = some o := by
  obtain ⟨rest, hpath⟩ := exists_path_eq scopes s
  have hne : scopes.upToOwner name (scopes.path s) ≠ [] := upToOwner_ne_nil (by simp [hpath])
  exact ⟨_, List.getLast?_eq_some_getLast hne⟩

/-- An assignment lets the scope that owns the name own the value. -/
theorem rebinds_assign (hformed : scopes.Formed) (hscope : s < scopes.size)
    {name : Bytes} (v : Value) (ho : (scopes.upToOwner name (scopes.path s)).getLast? = some o) :
    Rebinds scopes (scopes.assign s name v).2 o v := by
  have howned : ∀ n t, (scopes.assign s name v).2.owned? n t =
      if (scopes.upToOwner name (scopes.path s)).getLast? = some t ∧ name = n then some v
      else scopes.owned? n t := fun n t =>
    owned?_assignAlong (fun t ht => lt_size_of_mem_path hformed hscope t ht) v n t
  refine ⟨?_, ?_, name, ?_⟩
  · intro n t hne
    rw [howned, if_neg]
    rintro ⟨hlast, -⟩
    exact hne (Option.some.inj (hlast.symm.trans ho))
  · intro n u hu
    rw [howned] at hu
    split at hu
    · exact .inr (Option.some.inj hu).symm
    · exact .inl hu
  · rw [howned, if_pos ⟨ho, rfl⟩]

/-! ## Texts -/

/-- Inside another value exactly the values have a text that have one. -/
theorem isSome_element {module : Bytes → ScopeId → Option Bytes} :
    (v.element (v.inspectWith module)).isSome = (v.inspectWith module).isSome := by
  cases v with
  | string => rfl
  | _ => rfl

/-- Whether there is a text of the elements, from whether there is one of each. -/
theorem isSome_inspectElements {module : Bytes → ScopeId → Option Bytes} {vs : List Value} :
    (inspectElements module vs).isSome = true ↔ ∀ v ∈ vs, (v.inspectWith module).isSome = true := by
  induction vs with
  | nil => simp [inspectElements]
  | cons v vs ih =>
    rw [List.forall_mem_cons, ← ih, ← isSome_element]
    simp only [inspectElements]
    cases v.element (v.inspectWith module) <;> cases inspectElements module vs <;> simp

@[inherit_doc isSome_inspectElements]
theorem isSome_inspectPairs {module : Bytes → ScopeId → Option Bytes}
    {pairs : Table Key (Value × Value)} :
    (inspectPairs module pairs).isSome = true ↔
      ∀ e ∈ pairs, (e.2.1.inspectWith module).isSome = true ∧
        (e.2.2.inspectWith module).isSome = true := by
  induction pairs with
  | nil => simp [inspectPairs]
  | cons e pairs ih =>
    obtain ⟨filed, k, v⟩ := e
    rw [List.forall_mem_cons, ← ih, ← isSome_element, ← isSome_element]
    simp only [inspectPairs]
    cases k.element (k.inspectWith module) <;> cases v.element (v.inspectWith module) <;>
      cases inspectPairs module pairs <;> simp

private theorem isSome_bind_some {α β : Type} {x : Option α} {f : α → β} :
    (x.bind fun a => some (f a)).isSome = x.isSome := by
  cases x <;> rfl

/-- All results of a list are there if each of them is. -/
private theorem isSome_mapM {α β : Type} {f : α → Option β} {xs : List α} :
    (xs.mapM f).isSome = true ↔ ∀ x ∈ xs, (f x).isSome = true := by
  induction xs with
  | nil => simp
  | cons x xs ih =>
    rw [List.forall_mem_cons, ← ih, List.mapM_cons]
    cases f x <;> cases xs.mapM f <;> simp

/-- The names of a scope are those that it owns. -/
theorem mem_names {n : Bytes} : n ∈ scopes.names s ↔ scopes.owns s n = true := by
  rw [names, Bytes.sort, List.mem_mergeSort, owns, owned?]
  cases scopes[s]? with
  | none => simp [Table.keys]
  | some found => exact Table.has_iff.symm

/-- The modules of a scope have a text if all has one that the scope owns. -/
theorem isSome_inspectModule (hanchored : scopes.Anchored) {inspect : Value → Option Bytes}
    {name : Bytes} (hinspect : ∀ v, (v.element (inspect v)).isSome = (inspect v).isSome) :
    (inspectModule scopes inspect name s).isSome = true ↔
      ∀ n v, scopes.owned? n s = some v → (inspect v).isSome = true := by
  -- A module is written by reading its names, and reading gives what its scope owns.
  have hread : ∀ n v, scopes.owned? n s = some v → (scopes.get? s n).getD .null = v := by
    intro n v howned
    rw [get?_of_stored? (hanchored.stored s n v howned), Option.getD_some]
  have hlines : (inspectModule scopes inspect name s).isSome = true ↔ ∀ n ∈ scopes.names s,
      (inspect ((scopes.get? s n).getD .null)).isSome = true := by
    simp only [← hinspect]
    unfold inspectModule
    simp only [Option.bind_eq_bind, Option.pure_def, isSome_bind_some, isSome_mapM]
  rw [hlines]
  constructor
  · intro h n v howned
    rw [← hread n v howned]
    exact h n (mem_names.mpr (by rw [owns, howned]; rfl))
  · intro h n hn
    obtain ⟨v, howned⟩ := Option.isSome_iff_exists.mp (mem_names.mp hn)
    rw [hread n v howned]
    exact h n v howned

/-- An element has a text if its value has one. -/
theorem isSome_element_inspect (depth : Nat) (v : Value) :
    (v.element (Value.inspect scopes depth v)).isSome = (Value.inspect scopes depth v).isSome := by
  cases depth <;> exact isSome_element

/-- A value is finite if it has a text, given that this is so of the modules in it. -/
theorem finite_of_isSome_inspectWith {module : Bytes → ScopeId → Option Bytes}
    (hmodule : ∀ name path s, (module name s).isSome = true → scopes.Finite (.module name path s))
    (h : (v.inspectWith module).isSome = true) : scopes.Finite v := by
  refine finite_of_inherited (P := fun v => (v.inspectWith module).isSome = true) hmodule ?_ h
  intro v part hne hpart h
  cases hpart with
  | element hmem =>
    rw [Value.inspectWith, Option.isSome_map, isSome_inspectElements] at h
    exact h part hmem
  | key hmem =>
    rw [Value.inspectWith, Option.isSome_map, isSome_inspectPairs] at h
    exact (h _ hmem).1
  | entry hmem =>
    rw [Value.inspectWith, Option.isSome_map, isSome_inspectPairs] at h
    exact (h _ hmem).2
  | owned => exact absurd rfl (hne _ _ _)
  | carried => exact h

/-- A value that has a text to some depth is finite. -/
theorem finite_of_isSome_inspect (hanchored : scopes.Anchored) {depth : Nat}
    (h : (Value.inspect scopes depth v).isSome = true) : scopes.Finite v := by
  induction depth generalizing v with
  | zero =>
    refine finite_of_isSome_inspectWith ?_ h
    rintro _ _ _ ⟨⟩
  | succ depth ih =>
    refine finite_of_isSome_inspectWith ?_ h
    intro name path s hs
    rw [isSome_inspectModule hanchored (isSome_element_inspect depth)] at hs
    refine .of_parts fun part hpart => ?_
    cases hpart with
    | owned howned => exact ih (hs _ _ howned)

/-- A finite value has a text if modules are followed to the number of scopes, less those that the
way to the value led through: no module on the way comes up twice. -/
theorem isSome_inspect_of_finite (hanchored : scopes.Anchored) (h : scopes.Finite v)
    {seen : List ScopeId} (hnodup : seen.Nodup) (hlt : ∀ s ∈ seen, s < scopes.size)
    (hseen : ∀ s ∈ seen, ∀ name path, TransGen scopes.Contains (.module name path s) v) :
    (Value.inspect scopes (scopes.size - seen.length + 1) v).isSome = true := by
  induction h generalizing seen with
  | intro v hparts ih =>
    have hpart : ∀ part, scopes.Contains v part →
        (Value.inspect scopes (scopes.size - seen.length + 1) part).isSome = true :=
          fun part hpart =>
      ih part hpart hnodup hlt fun s hs name path => (hseen s hs name path).tail hpart
    cases v with
    | array stamp elements =>
      rw [Value.inspect, Value.inspectWith, Option.isSome_map, isSome_inspectElements]
      exact fun v hv => hpart v (.element hv)
    | hash stamp entries =>
      rw [Value.inspect, Value.inspectWith, Option.isSome_map, isSome_inspectPairs]
      exact fun e he => ⟨hpart _ (.key he), hpart _ (.entry he)⟩
    | returned stamp v => exact hpart v .carried
    | module name path s =>
      rw [Value.inspect, Value.inspectWith,
        isSome_inspectModule hanchored (isSome_element_inspect _)]
      intro n u howned
      have hs : s < scopes.size := lt_size_of_stored? (hanchored.stored s n u howned)
      -- A module on the way to itself would not be finite.
      have hnew : s ∉ seen := fun hmem => Finite.not_cyclic (.of_parts hparts)
        (hseen s hmem name path)
      have hnodup' : (s :: seen).Nodup := List.nodup_cons.mpr ⟨hnew, hnodup⟩
      have hlt' : ∀ t ∈ s :: seen, t < scopes.size := List.forall_mem_cons.mpr ⟨hs, hlt⟩
      -- So the way has led through no more modules than there are scopes.
      have hroom : (s :: seen).length ≤ scopes.size := by
        have hsub : s :: seen ⊆ List.range scopes.size := fun t ht => List.mem_range.mpr (hlt' t ht)
        simpa using (hnodup'.subperm hsub).length_le
      have hdepth : scopes.size - (s :: seen).length + 1 = scopes.size - seen.length := by
        rw [List.length_cons] at hroom ⊢
        omega
      rw [← hdepth]
      refine ih u (.owned howned) hnodup' hlt' (List.forall_mem_cons.mpr ⟨?_, ?_⟩)
      · exact fun name path => .single (.owned howned)
      · exact fun t ht name' path' => (hseen t ht name' path').tail (.owned howned)
    | _ => rfl

/-- The values that have a text are the finite ones. -/
theorem finite_iff_isSome_inspect (hanchored : scopes.Anchored) :
    scopes.Finite v ↔ (scopes.inspect v).isSome = true := by
  refine ⟨fun h => ?_, finite_of_isSome_inspect hanchored⟩
  exact isSome_inspect_of_finite hanchored h List.nodup_nil (List.forall_mem_nil _)
    (List.forall_mem_nil _)

end Scopes

end Rill
