import Rill.Proofs.Run.Reach
import Rill.Proofs.Value.Parts

/-!
# Where signals could hide

Signals are the values that end a function or a loop. This module says what it means that a run can
get hold of none.

* `World.SignalFree`: no signal can be got at from a scope or from the modules that were loaded.
* `Value.Settled`: a value that neither is nor holds a signal, with all its scopes in a given set.
* `World.Sheltered`: a set of scopes that nothing leads out of and in which every binding is
  settled. Such a set witnesses that what it holds is free of signals (`Sheltered.signalFreeFrom`),
  and the scopes that can be reached form one (`SignalFree.sheltered`).
-/

namespace Rill

namespace Value

/-- Whether a value ends a function or a loop. -/
def isSignal : Value → Bool
  | returned .. | broken => true
  | _ => false

/-- Values that neither are nor hold signals, and that lead only to scopes of `S`. -/
inductive Settled (S : ScopeId → Prop) : Value → Prop where
  | leaf {v : Value} (h : v.isLeaf = true) : Settled S v
  | array {stamp : Stamp} {elements : List Value} (h : ∀ v ∈ elements, Settled S v) :
      Settled S (.array stamp elements)
  | hash {stamp : Stamp} {entries : Entries}
      (hkey : ∀ e ∈ entries.pairs, Settled S e.2.1)
        (hvalue : ∀ e ∈ entries.pairs, Settled S e.2.2) :
      Settled S (.hash stamp entries)
  | module {name path : Bytes} {scope : ScopeId} (h : S scope) : Settled S (.module name path scope)
  | function {stamp : Stamp} {parameters : List Name} {body : Block} {scope : ScopeId}
      (h : S scope) : Settled S (.function stamp parameters body scope)

/-- Being settled is inherited by all parts. -/
theorem hereditary_settled (S : ScopeId → Prop) : Hereditary False (Settled S) where
  leaf h _ := .leaf h
  array := by
    intro stamp elements
    constructor
    · intro h
      cases h with
      | leaf h => cases h
      | array h => exact h
    · exact .array
  hash := by
    intro stamp entries
    constructor
    · intro h
      cases h with
      | leaf h => cases h
      | hash hkey hvalue => exact ⟨False.elim, fun e he => ⟨hkey e he, hvalue e he⟩⟩
    · exact fun h => .hash (fun e he => (h.2 e he).1) fun e he => (h.2 e he).2

/-- Faults are settled. -/
theorem Given.settled {S : ScopeId → Prop} {v : Value} (h : v.Given False (Settled S)) :
    v.Settled S := by
  rcases h with ⟨herror, -⟩ | h
  · cases v with
    | error => exact .leaf rfl
    | _ => cases herror
  · exact h

/-- A settled value is no signal. -/
theorem Settled.isSignal_eq_false {S : ScopeId → Prop} {v : Value} (h : v.Settled S) :
    v.isSignal = false := by
  cases h with
  | leaf h => cases v <;> simp_all [isLeaf, isSignal]
  | array | hash | module | function => rfl

end Value

/-- A scope is in `S`, and a value leads only there. -/
def Item.Within (S : ScopeId → Prop) : Item → Prop
  | .scope s => S s
  | .value v => v.Settled S

namespace World

/-- No signal can be got at from the roots. -/
def SignalFreeFrom (w : World) (roots : Item → Prop) : Prop :=
  ∀ v, w.Reaches roots (.value v) → v.isSignal = false

/-- Where an evaluation in a scope starts from: the scope and the modules that were loaded
before. -/
def roots (w : World) (scope : ScopeId) (i : Item) : Prop :=
  i = .scope scope ∨ ∃ path loaded, w.loader.cache.get? path = some loaded ∧
    i = .value loaded.module

/-- No signal can be got at from a scope or from the modules that were loaded before. -/
def SignalFree (w : World) (scope : ScopeId) : Prop := w.SignalFreeFrom (w.roots scope)

/-- Every scope of `S` leads only to scopes of `S`, and all that is bound in one is settled. The
scopes from `base` on are all in `S`, so that a scope that is yet to be made is in it. -/
structure Sheltered (S : ScopeId → Prop) (base : Nat) (w : World) : Prop where
  base_le_size : base ≤ w.scopes.size
  fresh : ∀ s, base ≤ s → S s
  outer : ∀ s o, S s → w.scopes.outer? s = some o → S o
  stored : ∀ s name v, S s → w.scopes.stored? name s = some v → v.Settled S
  owned : ∀ s name v, S s → w.scopes.owned? name s = some v → v.Settled S
  cached : ∀ path loaded, w.loader.cache.get? path = some loaded → loaded.module.Settled S

variable {S : ScopeId → Prop} {base : Nat} {w : World} {scope : ScopeId}

/-- Nothing leads out of a shelter. -/
theorem Sheltered.within (hw : Sheltered S base w) {roots : Item → Prop}
    (hroots : ∀ i, roots i → i.Within S) {i : Item} (h : w.Reaches roots i) : i.Within S := by
  -- Along the way from the roots, scopes are sheltered and values are settled. A step from a value
  -- to its part rules out that the value is a leaf.
  induction h with
  | root h => exact hroots _ h
  | outer _ houter ih => exact hw.outer _ _ ih houter
  | stored _ hv ih => exact hw.stored _ _ _ ih hv
  | owned _ hv ih => exact hw.owned _ _ _ ih hv
  | element _ hv ih =>
    cases ih with
    | leaf h => cases h
    | array h => exact h _ hv
  | key _ he ih =>
    cases ih with
    | leaf h => cases h
    | hash hkey _ => exact hkey _ he
  | entry _ he ih =>
    cases ih with
    | leaf h => cases h
    | hash _ hvalue => exact hvalue _ he
  | module _ ih =>
    cases ih with
    | leaf h => cases h
    | module h => exact h
  | function _ ih =>
    cases ih with
    | leaf h => cases h
    | function h => exact h
  | carried _ ih =>
    cases ih with
    | leaf h => cases h

/-- In a shelter that is whole no signal can be reached from sheltered roots. -/
theorem Sheltered.signalFreeFrom (hw : Sheltered S base w) {roots : Item → Prop}
    (hroots : ∀ i, roots i → i.Within S) : w.SignalFreeFrom roots := by
  intro v hv
  have hsettled : v.Settled S := hw.within hroots hv
  exact hsettled.isSignal_eq_false

/-- In a shelter that is whole no signal can be reached from a sheltered scope. -/
theorem Sheltered.signalFree (hw : Sheltered S base w) (hscope : S scope) : w.SignalFree scope := by
  apply hw.signalFreeFrom
  rintro i (rfl | ⟨path, loaded, hloaded, rfl⟩)
  · exact hscope
  · exact hw.cached path loaded hloaded

/-- What can be got at holds no signal, if none can be got at. -/
theorem SignalFreeFrom.settled {roots : Item → Prop} (hfree : w.SignalFreeFrom roots)
    (hS : ∀ s, w.Reaches roots (.scope s) → S s) :
    ∀ v, w.Reaches roots (.value v) → v.Settled S := by
  intro v h
  induction v using Value.partsInduction with
  | leaf v hv => exact .leaf hv
  | array stamp elements ih => exact .array fun v hv => ih v hv (h.element hv)
  | hash stamp entries ih =>
    exact .hash (fun e he => (ih e he).1 (h.key he)) fun e he => (ih e he).2 (h.entry he)
  | module => exact .module (hS _ h.module)
  | function => exact .function (hS _ h.function)
  -- The value itself can be got at, so it is no signal.
  | returned => cases hfree _ h
  | broken => cases hfree _ h

/-- The scopes that an evaluation can get at, together with all that are yet to be made. -/
def shelter (w : World) (scope s : ScopeId) : Prop :=
  w.Reaches (w.roots scope) (.scope s) ∨ w.scopes.size ≤ s

/-- A scope that is not there yet leads nowhere and binds nothing. -/
private theorem getElem?_of_size_le {s : ScopeId} (h : w.scopes.size ≤ s) : w.scopes[s]? = none :=
  Array.getElem?_eq_none h

/-- What can be reached from a scope without a signal makes a shelter. -/
theorem SignalFree.sheltered (hfree : w.SignalFree scope) :
    Sheltered (w.shelter scope) w.scopes.size w := by
  have hsettled : ∀ v, w.Reaches (w.roots scope) (.value v) → v.Settled (w.shelter scope) :=
    SignalFreeFrom.settled hfree fun s hs => .inl hs
  refine ⟨Nat.le_refl _, fun s hs => .inr hs, ?_, ?_, ?_, ?_⟩
  -- A scope is in reach, and so is what it leads to, or it is not there yet and leads nowhere.
  · rintro s o (hs | hs) houter
    · exact .inl (hs.outer houter)
    · simp [Scopes.outer?, getElem?_of_size_le hs] at houter
  · rintro s name v (hs | hs) hv
    · exact hsettled v (hs.stored hv)
    · simp [Scopes.stored?, getElem?_of_size_le hs] at hv
  · rintro s name v (hs | hs) hv
    · exact hsettled v (hs.owned hv)
    · simp [Scopes.owned?, getElem?_of_size_le hs] at hv
  · intro path loaded hloaded
    exact hsettled _ (.root (.inr ⟨path, loaded, hloaded, rfl⟩))

end World

end Rill
