import Rill.Proofs.Run.Call
import Rill.Proofs.Signal.Shelter

/-!
# Where signals become values

The evaluation of a node uses the values of its parts: it binds them, stores them, passes them on,
or ends a function or the program with them. A signal that is used in such a way has become a value.

* `Interpreter.Uses`: the uses that a node itself makes of the values of its parts.
* `Interpreter.Contained`: none of these values is a signal.
* `Interpreter.SignalFreeAt`: around the evaluation of a node no signal is in reach, none is passed
  as an argument, and neither a call nor a program gives one.
-/

namespace Rill

namespace Interpreter

/-- What the evaluation of a node does with a value. -/
inductive Use where
  /-- It is bound to a name. -/
  | bound (name : Bytes) (value : Value)
  /-- It is stored in an array or a hash. -/
  | stored (value : Value)
  /-- It is passed as an argument. -/
  | passed (value : Value)
  /-- It is what a `return` carries that ends a function or the program. -/
  | ended (value : Value)

/-- The value that is used. -/
def Use.value : Use → Value
  | bound _ v | stored v | passed v | ended v => v

/-- What the `return` carries that ends the statements of a program, if one does. -/
def carriedBy (self : Evaluator) (scope : ScopeId) : List Stmt → Run (Option Value)
  | [] => return none
  | s :: ss => do
    match ← self (.stmt s) scope with
    | .returned _ v => return some v
    | .error _ => return none
    | _ => carriedBy self scope ss

/-- The uses that a node makes of the values of its parts, which are evaluated in a scope from a
world. -/
inductive Uses (self : Evaluator) (scope : ScopeId) (w : World) : Node → Use → Prop where
  | binding {pos : Nat} {name : Name} {value : Expr} {v : Value} {w' : World}
      (hvalue : self (.expr value) scope w = some (v, w')) (hv : v.isError = false) :
      Uses self scope w (.stmt (.binding pos name value)) (.bound name.text v)
  | assignment {pos : Nat} {name : Name} {right : Expr} {v : Value} {w' : World}
      (hright : self (.expr right) scope w = some (v, w')) (hv : v.isError = false) :
      Uses self scope w (.expr (.infixed pos .assign (.ident name) right)) (.bound name.text v)
  | element {pos : Nat} {elements : List Expr} {vs : List Value} {v : Value} {w' : World}
      (helements : evalAll self scope elements w = some (.ok vs, w')) (hv : v ∈ vs) :
      Uses self scope w (.expr (.array pos elements)) (.stored v)
  | entry {pos : Nat} {pairs : List (Expr × Expr)} {stamp : Stamp} {entries : Entries}
      {e : Key × Value × Value} {w' : World}
      (hpairs : evalPairs self scope .empty pairs w = some (.hash stamp entries, w'))
        (he : e ∈ entries.pairs) :
      Uses self scope w (.expr (.hash pos pairs)) (.stored e.2.2)
  | argument {e : Expr} {f v : Value} {args : List Value} {w' : World}
      (hcall : CallOf self scope w e f args w') (hv : v ∈ args) :
      Uses self scope w (.expr e) (.passed v)
  | function {e : Expr} {stamp stamp' : Stamp} {parameters : List Name} {body : Block}
      {outer inner : ScopeId} {args : List Value} {v : Value} {u u' w' : World}
      (hcall : CallOf self scope w e (.function stamp parameters body outer) args u)
      (hcount : args.length = parameters.length)
        (henter : enter outer parameters args u = some (inner, u'))
      (hbody : self (.block body) inner u' = some (.returned stamp' v, w')) :
      Uses self scope w (.expr e) (.ended v)
  | program {p : Program} {v : Value} {w' : World}
      (hend : carriedBy self scope p.statements w = some (some v, w')) :
      Uses self scope w (.program p) (.ended v)

/-! ## Computing the uses -/

/-- What the `return` carries that ends an applied function, if one does. -/
def endOf? (self : Evaluator) (f : Value) (args : List Value) (w : World) : Option Value :=
  match f with
  | .function _ parameters body outer =>
    if args.length = parameters.length then
      match enter outer parameters args w with
      | some (inner, u) =>
        match self (.block body) inner u with
        | some (.returned _ v, _) => some v
        | _ => none
      | none => none
    else none
  | _ => none

/-- All uses that a node makes of the values of its parts. -/
def uses (self : Evaluator) (scope : ScopeId) (w : World) : Node → List Use
  | .stmt (.binding _ name value) =>
    match self (.expr value) scope w with
    | some (v, _) => if v.isError then [] else [.bound name.text v]
    | none => []
  | .expr (.infixed _ .assign (.ident name) right) =>
    match self (.expr right) scope w with
    | some (v, _) => if v.isError then [] else [.bound name.text v]
    | none => []
  | .expr (.array _ elements) =>
    match evalAll self scope elements w with
    | some (.ok vs, _) => vs.map .stored
    | _ => []
  | .expr (.hash _ pairs) =>
    match evalPairs self scope .empty pairs w with
    | some (.hash _ entries, _) => entries.pairs.map fun e => .stored e.2.2
    | _ => []
  | .expr e =>
    match callOf? self scope w e with
    | some (f, args, u) => args.map .passed ++ (endOf? self f args u).toList.map .ended
    | none => []
  | .program p =>
    match carriedBy self scope p.statements w with
    | some (some v, _) => [.ended v]
    | _ => []
  | _ => []

section Uses

variable {self : Evaluator} {scope : ScopeId} {w : World} {node : Node} {use : Use}

/-- A call ends in a value if the body of its function returns it. -/
theorem endOf?_eq_some_iff {f v : Value} {args : List Value} :
    endOf? self f args w = some v ↔ ∃ stamp parameters body outer inner u stamp' w',
      f = .function stamp parameters body outer ∧ args.length = parameters.length ∧
        enter outer parameters args w = some (inner, u) ∧
        self (.block body) inner u = some (.returned stamp' v, w') := by
  constructor
  · intro h
    unfold endOf? at h
    split at h
    · split at h
      next hcount =>
        split at h
        next henter =>
          split at h
          next hbody =>
            cases h
            exact ⟨_, _, _, _, _, _, _, _, rfl, hcount, henter, hbody⟩
          next => cases h
        next => cases h
      next => cases h
    · cases h
  · rintro ⟨stamp, parameters, body, outer, inner, u, stamp', w', rfl, hcount, henter, hbody⟩
    simp [endOf?, hcount, henter, hbody]

/-- The uses that a call makes: its arguments, and what its function ends with. -/
private theorem uses_of_callOf {e : Expr} {f : Value} {args : List Value} {u : World}
    (hcall : CallOf self scope w e f args u) :
    uses self scope w (.expr e) = args.map .passed ++ (endOf? self f args u).toList.map .ended := by
  have hcall' := callOf?_eq_some_iff.mpr hcall
  -- The form of the expression rules out the cases that stand before the calls.
  cases hcall with
  | call => simp only [uses, hcall']
  | member => simp only [uses, hcall']

/-- The listed uses are all uses of values that a node makes. -/
theorem mem_uses_iff : use ∈ uses self scope w node ↔ Uses self scope w node use := by
  constructor
  · intro h
    -- The cases are those of `uses`, in its order: where a step has no value there is nothing in
    -- the list.
    unfold uses at h
    split at h
    · split at h
      next hvalue =>
        split at h
        · cases h
        next hv =>
          rw [List.mem_singleton.mp h]
          exact .binding hvalue (by simpa using hv)
      next => cases h
    · split at h
      next hright =>
        split at h
        · cases h
        next hv =>
          rw [List.mem_singleton.mp h]
          exact .assignment hright (by simpa using hv)
      next => cases h
    · split at h
      next helements =>
        obtain ⟨v, hv, rfl⟩ := List.mem_map.mp h
        exact .element helements hv
      next => cases h
    · split at h
      next hpairs =>
        obtain ⟨e, he, rfl⟩ := List.mem_map.mp h
        exact .entry hpairs he
      next => cases h
    · split at h
      next hcall =>
        rw [callOf?_eq_some_iff] at hcall
        -- A call uses its arguments, and what its body ends with.
        rcases List.mem_append.mp h with h | h
        · obtain ⟨v, hv, rfl⟩ := List.mem_map.mp h
          exact .argument hcall hv
        · obtain ⟨v, hv, rfl⟩ := List.mem_map.mp h
          obtain ⟨_, _, _, _, _, _, _, _, rfl, hcount, henter, hbody⟩ :=
            endOf?_eq_some_iff.mp (Option.mem_toList.mp hv)
          exact .function hcall hcount henter hbody
      next => cases h
    · split at h
      next hend =>
        rw [List.mem_singleton.mp h]
        exact .program hend
      next => cases h
    · cases h
  · intro h
    -- In turn each way of using a value is one of these cases.
    cases h with
    | binding hvalue hv => simp [uses, hvalue, hv]
    | assignment hright hv => simp [uses, hright, hv]
    | element helements hv => simp [uses, helements, hv]
    | entry hpairs he =>
      simp only [uses, hpairs]
      exact List.mem_map.mpr ⟨_, he, rfl⟩
    | argument hcall hv =>
      rw [uses_of_callOf hcall]
      exact List.mem_append_left _ (List.mem_map_of_mem hv)
    | function hcall hcount henter hbody =>
      rw [uses_of_callOf hcall,
        endOf?_eq_some_iff.mpr ⟨_, _, _, _, _, _, _, _, rfl, hcount, henter, hbody⟩]
      exact List.mem_append_right _ List.mem_cons_self
    | program hend => simp [uses, hend]

end Uses

/-! ## The two conditions -/

/-- A node uses no signal. -/
def Contained : Check := fun _ self node scope w =>
  ∀ w₁, announce node w = some ((), w₁) → ∀ use, Uses self scope w₁ node use →
    use.value.isSignal = false

/-- Whether a node uses no signal. -/
def contained (self : Evaluator) (node : Node) (scope : ScopeId) (w : World) : Bool :=
  match announce node w with
  | some (_, w₁) => (uses self scope w₁ node).all fun use => ! use.value.isSignal
  | none => true

/-- Whether a node uses no signal can be computed. -/
theorem contained_iff {bound : Nat} {self : Evaluator} {node : Node} {scope : ScopeId} {w : World} :
    contained self node scope w = true ↔ Contained bound self node scope w := by
  unfold contained Contained
  split
  next hlog => simp [hlog, List.all_eq_true, mem_uses_iff]
  next hlog => simp [hlog]

instance (bound : Nat) (self : Evaluator) (node : Node) (scope : ScopeId) (w : World) :
    Decidable (Contained bound self node scope w) :=
  decidable_of_iff _ contained_iff

/-- Programs and calls, where a `return` gives up what it carries. -/
def unwraps : Node → Bool
  | .program _ | .expr (.call ..) | .expr (.infixed _ .member _ (.call ..)) => true
  | _ => false

/-- Around the evaluation of a node no signal has become a value. -/
structure SignalFreeAt (it : Interpreter) (rounds : Nat) (parts : Evaluator) (node : Node)
    (scope : ScopeId) (w : World) : Prop where
  /-- Before it, no signal is bound or stored where it can be reached. -/
  before : w.SignalFree scope
  /-- No signal is passed as an argument. -/
  passed : ∀ w₁, announce node w = some ((), w₁) → ∀ v, Uses parts scope w₁ node (.passed v) →
    v.isSignal = false
  /-- After it, no signal is bound or stored where it can be reached. -/
  after : ∀ v w', it.evalNode rounds parts node scope w = some (v, w') → w'.SignalFree scope
  /-- The result holds no signal, unless it is on its way to the end of a function or a loop
  itself. -/
  result : ∀ v w', it.evalNode rounds parts node scope w = some (v, w') → v.isSignal = false →
    w'.SignalFreeFrom (· = .value v)
  /-- Programs and calls give no signal. -/
  unwrapped : ∀ v w', it.evalNode rounds parts node scope w = some (v, w') → unwraps node = true →
    v.isSignal = false

open Classical in
noncomputable instance (it : Interpreter) (rounds : Nat) (parts : Evaluator) (node : Node)
    (scope : ScopeId) (w : World) : Decidable (it.SignalFreeAt rounds parts node scope w) :=
  inferInstance

end Interpreter

end Rill
