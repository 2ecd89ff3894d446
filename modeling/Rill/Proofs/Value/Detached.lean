import Rill.Proofs.Outline.Decoding
import Rill.Proofs.Run.Builtins

/-!
# Values without the sources of their functions

A function keeps the tree of its body, and with it the places of its tokens in a source. A value
without them is detached. Operators, collections, scopes and texts of values do not depend on them.

* `Value.detached`, `Entries.detached`, `Scopes.detached`: without the sources of functions.
* `Value.infixed_detached`, `Value.index_detached`, …: the operators.
* `Scopes.get?_detached`, `Scopes.create_detached`, `Scopes.assign_detached`: the scopes.
* `Scopes.inspect_detached`: the texts of values.
-/

namespace Rill

mutual

/-- A value without the sources of its functions. -/
def Value.detached : Value → Value
  | .array stamp elements => .array stamp (detachedValues elements)
  | .hash stamp ⟨order, pairs⟩ => .hash stamp ⟨order, detachedEntries pairs⟩
  | .function stamp parameters body scope =>
    .function stamp (parameters.map Name.detached) body.detached scope
  | .returned stamp v => .returned stamp v.detached
  | v => v

/-- Values without the sources of their functions. -/
def detachedValues : List Value → List Value
  | [] => []
  | v :: vs => v.detached :: detachedValues vs

/-- Entries of a hash without the sources of their functions. -/
def detachedEntries : List (Key × Value × Value) → List (Key × Value × Value)
  | [] => []
  | (key, k, v) :: entries => (key, k.detached, v.detached) :: detachedEntries entries

end

/-- The entries of a hash without the sources of their functions. -/
def Entries.detached (entries : Entries) : Entries :=
  ⟨entries.order, Table.mapValues (Prod.map Value.detached Value.detached) entries.pairs⟩

/-- Several values without their sources, by a map. -/
theorem detachedValues_eq_map (vs : List Value) : detachedValues vs = vs.map Value.detached := by
  induction vs with
  | nil => rfl
  | cons v vs ih => rw [detachedValues, ih, List.map_cons]

/-- The pairs of a hash without their sources, by a map over the table. -/
theorem detachedEntries_eq_mapValues (entries : List (Key × Value × Value)) :
    detachedEntries entries = Table.mapValues (Prod.map Value.detached Value.detached) entries := by
  induction entries with
  | nil => rfl
  | cons e entries ih =>
    rw [detachedEntries, ih]
    rfl

namespace Value

/-- An array without sources has the elements without theirs. -/
@[simp]
theorem detached_array (stamp : Stamp) (elements : List Value) :
    (array stamp elements).detached = array stamp (elements.map detached) := by
  rw [detached, detachedValues_eq_map]

/-- A hash without sources has the pairs without theirs. -/
@[simp]
theorem detached_hash (stamp : Stamp) (entries : Entries) :
    (hash stamp entries).detached = hash stamp (Entries.detached entries) := by
  rw [detached, detachedEntries_eq_mapValues]
  rfl

@[simp]
theorem detached_integer (n : Int64) : (integer n).detached = integer n := rfl

@[simp]
theorem detached_string (s : Bytes) : (string s).detached = string s := rfl

@[simp]
theorem detached_null : null.detached = null := rfl

@[simp]
theorem detached_error (fault : Fault) : (error fault).detached = error fault := rfl

/-- The kind of a value does not depend on its source. -/
@[simp]
theorem kind_detached (v : Value) : v.detached.kind = v.kind := by cases v <;> rfl

@[simp]
theorem isError_detached (v : Value) : v.detached.isError = v.isError := by cases v <;> rfl

/-- Whether a value counts as true does not depend on its source. -/
@[simp]
theorem isTruthy_detached (v : Value) : v.detached.isTruthy = v.isTruthy := by
  cases v with
  | boolean b => cases b <;> rfl
  | _ => rfl

@[simp]
theorem number?_detached (v : Value) : v.detached.number? = v.number? := by cases v <;> rfl

/-- A value is filed under the same key without its source. -/
@[simp]
theorem key?_detached (v : Value) : v.detached.key? = v.key? := by cases v <;> rfl

/-- How a value is shown inside a collection does not depend on its source. -/
@[simp]
theorem element_detached (v : Value) (shown : Option Bytes) :
    v.detached.element shown = v.element shown := by
  cases v <;> rfl

/-- Values are the same without their sources exactly if they are the same: they are told apart by
their stamps. -/
@[simp]
theorem same_detached (v v' : Value) : v.detached.same v'.detached = v.same v' := by
  cases v <;> cases v' <;> rfl

/-- What has no parts has no source. -/
theorem detached_of_isLeaf {v : Value} (h : v.isLeaf = true) : v.detached = v := by
  cases v <;> first | rfl | cases h

/-- A value without parts has no source. -/
theorem detached_of_isPlain {v : Value} (h : v.isPlain = true) : v.detached = v :=
  detached_of_isLeaf (isLeaf_of_isPlain h)

/-- Numbers have no source. -/
theorem detached_of_isNumeric {v : Value} (h : v.kind.isNumeric = true) : v.detached = v := by
  cases v <;> first | rfl | cases h

private theorem map_eq_self_iff {α : Type} {f : α → α} {l : List α} :
    l.map f = l ↔ ∀ a ∈ l, f a = a := by
  rw [← List.map_inj_left (g := fun a => a), List.map_id']

/-- A collection has no source exactly if none of its parts has one. -/
theorem hereditary_detached : Hereditary False fun v => v.detached = v := by
  refine ⟨fun hleaf _ => detached_of_isLeaf hleaf, ?_, ?_⟩
  · intro stamp elements
    rw [detached_array, array.injEq, map_eq_self_iff]
    exact and_iff_right rfl
  · rintro stamp ⟨order, pairs⟩
    have hpair (e : Key × Value × Value) : Prod.map id (Prod.map detached detached) e = e ↔
        e.2.1.detached = e.2.1 ∧ e.2.2.detached = e.2.2 := by simp [Prod.ext_iff]
    rw [detached_hash, hash.injEq, Entries.detached, Filing.mk.injEq, Table.mapValues,
      map_eq_self_iff]
    simp only [hpair, Entries.All, false_imp_iff, true_and]

end Value

/-! ## Collections -/

namespace Entries

@[simp]
theorem detached_empty : detached empty = empty := rfl

@[simp]
theorem size_detached (entries : Entries) : size entries.detached = size entries := rfl

/-- Looking up a key without sources gives what it gives with them, without its source. -/
@[simp]
theorem lookup_detached (key : Key) (entries : Entries) :
    lookup key entries.detached = (lookup key entries).map Value.detached := by
  simp only [lookup, detached, Table.get?_mapValues, Option.map_map]
  rfl

/-- A pair without its sources is put into the hash without sources. -/
@[simp]
theorem insert_detached (key : Key) (k v : Value) (entries : Entries) :
    insert key k.detached v.detached entries.detached = (insert key k v entries).detached := by
  have hput := Table.put_mapValues (Prod.map Value.detached Value.detached) key (k, v) entries.pairs
  simp only [insert, detached, Table.has, Table.get?_mapValues, Option.isSome_map]
  exact congrArg _ hput

/-- The pairs of a hash in order, without their sources. -/
theorem ordered_detached (entries : Entries) :
    ordered entries.detached = (ordered entries).map (Prod.map Value.detached Value.detached) := by
  simp only [ordered, detached, Table.get?_mapValues, List.map_filterMap]

/-- Filing pairs anew does the same without sources, and a key that cannot be filed is given back
without its source. -/
theorem refile_detached (skip : Option Key) (filed : Entries) (pairs : List (Value × Value)) :
    refile skip filed.detached (pairs.map (Prod.map Value.detached Value.detached)) =
      ((refile skip filed pairs).map detached).mapError Value.detached := by
  induction pairs generalizing filed with
  | nil => rfl
  | cons pair pairs ih =>
    obtain ⟨k, v⟩ := pair
    rw [List.map_cons, Prod.map_apply, refile, refile, Value.key?_detached]
    cases k.key? with
    | none => rfl
    | some key =>
      dsimp only
      rw [insert_detached, ih, ih]
      split <;> rfl

/-- A copy of a hash, or the key that prevents it, without sources. -/
theorem copy_detached (skip : Option Key) (entries : Entries) :
    copy skip entries.detached = ((copy skip entries).map detached).mapError Value.detached := by
  rw [copy, copy, ordered_detached, ← refile_detached, detached_empty]

/-- The keys of a hash, without their sources. -/
@[simp]
theorem keyValues_detached (entries : Entries) :
    keyValues entries.detached = (keyValues entries).map Value.detached := by
  simp [keyValues, ordered_detached, Function.comp_def]

/-- The values of a hash, without their sources. -/
@[simp]
theorem values_detached (entries : Entries) :
    values entries.detached = (values entries).map Value.detached := by
  simp [values, ordered_detached, Function.comp_def]

end Entries

/-! ## Operators -/

namespace Value

/-- A prefix operator does not look at sources. -/
@[simp]
theorem prefixed_detached (op : PrefixOp) (v : Value) :
    prefixed op v.detached = (prefixed op v).detached := by
  cases op with
  | not =>
    show boolean (!v.detached.isTruthy) = boolean (!v.isTruthy)
    rw [isTruthy_detached]
  | negate => cases v <;> rfl

/-- The fault of a refused operator names the kinds of its operands only. -/
theorem refuse_detached (op : InfixOp) (left right : Value) :
    refuse op left.detached right.detached = refuse op left right := by
  rw [refuse, refuse, kind_detached, kind_detached]

/-- Operands that are not both numbers are compared and joined without a look at their sources. -/
theorem others_detached (op : InfixOp) (left right : Value) :
    others op left.detached right.detached = others op left right := by
  have hrefuse := refuse_detached op left right
  cases op with
  -- These two look at truth values, which have no source, and refuse everything else by its kind.
  | and | or =>
    cases left with
    | boolean a => cases right <;> rfl
    | _ => exact hrefuse
  | eq | notEq => simp only [others, same_detached]
  | _ => exact hrefuse

/-- An infix operator does not look at sources. -/
@[simp]
theorem infixed_detached (op : InfixOp) (left right : Value) :
    infixed op left.detached right.detached = (infixed op left right).detached := by
  -- What comes out has no parts, and so no source.
  rw [detached_of_isPlain (isPlain_infixed op left right), infixed.eq_def, infixed.eq_def,
    kind_detached, kind_detached]
  split
  next h =>
    obtain ⟨hleft, hright⟩ := Bool.and_eq_true_iff.mp h
    rw [detached_of_isNumeric hleft, detached_of_isNumeric hright]
  next =>
    cases left with
    | string a =>
      cases right with
      | string b => rfl
      | _ => exact others_detached ..
    | _ => exact others_detached ..

/-- A compound assignment assigns the same value without sources. -/
@[simp]
theorem compound_detached (op : InfixOp) (current right : Value) :
    compound op current.detached right.detached = (compound op current right).detached := by
  rw [detached_of_isPlain (isPlain_compound op current right), compound.eq_def, compound.eq_def]
  cases op.compoundOp? with
  | none =>
    dsimp only
    rw [kind_detached]
  | some arith =>
    -- Numbers have no offsets, so arithmetic sees the same operands.
    have hnumber (v : Value) :
      (if right.detached.kind.isNumeric then arithmetic v.kind arith v right.detached
          else error (.compoundOperand op right.detached.kind)) =
        if right.kind.isNumeric then arithmetic v.kind arith v right
          else error (.compoundOperand op right.kind) := by
      rw [kind_detached]
      split
      next h => rw [detached_of_isNumeric h]
      next => rfl
    cases current with
    | string a => cases right <;> rfl
    | integer n => exact hnumber (integer n)
    | float x => exact hnumber (float x)
    | double x => exact hnumber (double x)
    | _ => rfl

/-- What stands at an index without sources is what stands there, without its source. -/
@[simp]
theorem index_detached (collection key : Value) :
    index collection.detached key.detached = (index collection key).detached := by
  cases collection with
  | array stamp elements =>
    rw [detached_array]
    cases key with
    | integer i =>
      simp only [detached, index, List.length_map, List.getElem?_map]
      split
      · rfl
      · cases elements[i.toInt.toNat]? <;> rfl
    | _ => rfl
  | hash stamp entries =>
    -- What a key is filed under has no source.
    rw [detached_hash, index.eq_def, index.eq_def]
    dsimp only
    rw [key?_detached, kind_detached]
    cases key.key? with
    | none => rfl
    | some k =>
      dsimp only
      rw [Entries.lookup_detached]
      cases Entries.lookup k entries <;> rfl
  | _ => rfl

end Value

/-! ## Scopes -/

/-- A scope without the sources of the functions in it. -/
def Scope.detached (s : Scope) : Scope :=
  ⟨Table.mapValues Value.detached s.store, Table.mapValues Value.detached s.owned, s.outer⟩

namespace Scopes

/-- Scopes without the sources of the functions in them. -/
def detached (scopes : Scopes) : Scopes := scopes.map Scope.detached

@[simp]
theorem size_detached (scopes : Scopes) : scopes.detached.size = scopes.size := Array.size_map

/-- Making a scope does not look at what is bound in the others. -/
@[simp]
theorem fresh_detached (outer : Option ScopeId) (scopes : Scopes) :
    fresh outer scopes.detached = Prod.map id detached (fresh outer scopes) := by
  simp only [fresh, detached, Array.size_map, Array.map_push, Prod.map_apply]
  rfl

/-- The scope around a scope is the same without sources. -/
@[simp]
theorem outer?_detached (scopes : Scopes) (scope : ScopeId) :
    scopes.detached.outer? scope = scopes.outer? scope := by
  rw [outer?, outer?, detached, Array.getElem?_map]
  cases scopes[scope]? <;> rfl

/-- The scopes around a scope are the same without sources. -/
theorem chain_detached (scopes : Scopes) (bound : Nat) (scope : ScopeId) :
    scopes.detached.chain bound scope = scopes.chain bound scope := by
  induction bound generalizing scope with
  | zero => rfl
  | succ bound ih =>
    rw [chain, chain, outer?_detached]
    split
    · rfl
    · rw [ih]

@[simp]
theorem path_detached (scopes : Scopes) (scope : ScopeId) :
    scopes.detached.path scope = scopes.path scope :=
  chain_detached ..

/-- What a scope stores under a name, without its source. -/
@[simp]
theorem stored?_detached (scopes : Scopes) (name : Bytes) (scope : ScopeId) :
    scopes.detached.stored? name scope = (scopes.stored? name scope).map Value.detached := by
  rw [stored?, stored?, detached, Array.getElem?_map]
  cases scopes[scope]? with
  | none => rfl
  | some s => exact Table.get?_mapValues ..

/-- Which names a scope owns does not depend on sources. -/
@[simp]
theorem owns_detached (scopes : Scopes) (scope : ScopeId) (name : Bytes) :
    scopes.detached.owns scope name = scopes.owns scope name := by
  rw [owns, owns, owned?, owned?, detached, Array.getElem?_map]
  cases scopes[scope]? with
  | none => rfl
  | some s =>
    show (Table.get? name (Table.mapValues Value.detached s.owned)).isSome = _
    rw [Table.get?_mapValues, Option.isSome_map]
    rfl

/-- What a name reads as, without its source. -/
@[simp]
theorem get?_detached (scopes : Scopes) (scope : ScopeId) (name : Bytes) :
    scopes.detached.get? scope name = (scopes.get? scope name).map Value.detached := by
  rw [get?, get?, path_detached]
  induction scopes.path scope with
  | nil => rfl
  | cons s path ih =>
    rw [List.findSome?_cons, List.findSome?_cons, stored?_detached]
    cases scopes.stored? name s with
    | none => exact ih
    | some v => rfl

/-- The names of a scope do not depend on sources. -/
@[simp]
theorem names_detached (scopes : Scopes) (scope : ScopeId) :
    scopes.detached.names scope = scopes.names scope := by
  rw [names, names, detached, Array.getElem?_map]
  cases scopes[scope]? with
  | none => rfl
  | some s => exact congrArg Bytes.sort (Table.keys_mapValues ..)

/-- A change of one scope commutes with detaching all of them, if it does so for that scope. -/
theorem modify_detached {f f' : Scope → Scope} (h : ∀ s, f' s.detached = (f s).detached)
    (scope : ScopeId) (scopes : Scopes) :
    scopes.detached.modify scope f' = detached (scopes.modify scope f) := by
  apply Array.ext_getElem?
  intro i
  rw [detached, detached, Array.getElem?_map, Array.getElem?_modify, Array.getElem?_modify,
    Array.getElem?_map]
  split
  · cases scopes[i]? with
    | none => rfl
    | some s => exact congrArg some (h s)
  · rfl

/-- A binding without its source in scopes without sources. -/
@[simp]
theorem create_detached (scope : ScopeId) (name : Bytes) (value : Value) (scopes : Scopes) :
    create scope name value.detached scopes.detached = detached (create scope name value scopes) :=
  modify_detached (fun s => by simp [Scope.detached]) scope scopes

/-- A copy that an assignment leaves in a scope, without its source. -/
theorem write_detached (scope : ScopeId) (name : Bytes) (value : Value) (scopes : Scopes) :
    write scope name value.detached scopes.detached = detached (write scope name value scopes) :=
  modify_detached (fun s => by simp [Scope.detached]) scope scopes

/-- An assignment along a path of scopes, without sources. -/
theorem assignAlong_detached (name : Bytes) (value : Value) (path : List ScopeId)
    (scopes : Scopes) :
    assignAlong name value.detached path scopes.detached =
      Prod.map id detached (assignAlong name value path scopes) := by
  induction path generalizing scopes with
  | nil => rfl
  | cons scope path ih =>
    rw [assignAlong, assignAlong, owns_detached, create_detached, write_detached, ih]
    split
    · rfl
    · split <;> rfl

/-- An assignment without its source in scopes without sources. -/
@[simp]
theorem assign_detached (scope : ScopeId) (name : Bytes) (value : Value) (scopes : Scopes) :
    assign scope name value.detached scopes.detached =
      Prod.map id detached (assign scope name value scopes) := by
  rw [assign, assign, path_detached, assignAlong_detached]

end Scopes

/-! ## Texts -/

mutual

/-- The text of a value is the same without its source, if modules are shown in the same way. -/
theorem Value.inspectWith_detached (module : Bytes → ScopeId → Option Bytes) :
    (v : Value) → v.detached.inspectWith module = v.inspectWith module
  | .array _ elements => by
    simp only [Value.detached, Value.inspectWith, inspectElements_detachedValues module elements]
  | .hash _ ⟨_, pairs⟩ => by
    simp only [Value.detached, Value.inspectWith, inspectPairs_detachedEntries module pairs]
  | .function _ parameters body _ => by
    simp only [Value.detached, Value.inspectWith, Block.render_detached, List.map_map,
      Function.comp_def, Name.text_detached]
  | .returned _ v => by simp only [Value.detached, Value.inspectWith, v.inspectWith_detached module]
  | .integer _ | .float _ | .double _ | .boolean _ | .string _ | .null | .module
    .. | .builtin _ | .error _
  | .broken => rfl

/-- The texts of the elements of an array are the same without their sources. -/
theorem inspectElements_detachedValues (module : Bytes → ScopeId → Option Bytes) :
    (vs : List Value) → inspectElements module (detachedValues vs) = inspectElements module vs
  | [] => rfl
  | v :: vs => by
    simp only [detachedValues, inspectElements, v.inspectWith_detached module,
      Value.element_detached, inspectElements_detachedValues module vs]

/-- The texts of the pairs of a hash are the same without their sources. -/
theorem inspectPairs_detachedEntries (module : Bytes → ScopeId → Option Bytes) :
    (pairs : List (Key × Value × Value)) →
      inspectPairs module (detachedEntries pairs) = inspectPairs module pairs
  | [] => rfl
  | (_, k, v) :: pairs => by
    simp only [detachedEntries, inspectPairs, k.inspectWith_detached module,
      v.inspectWith_detached module,
      Value.element_detached, inspectPairs_detachedEntries module pairs]

end

/-- The text of a module is the same without sources, if the values in it are shown in the same
way. -/
theorem inspectModule_detached (scopes : Scopes) {inspect inspect' : Value → Option Bytes}
    (h : ∀ v, inspect' v.detached = inspect v) :
    inspectModule scopes.detached inspect' = inspectModule scopes inspect := by
  have hvalue (scope : ScopeId) (name : Bytes) : (scopes.detached.get? scope name).getD .null =
      ((scopes.get? scope name).getD .null).detached := by
    rw [Scopes.get?_detached]
    cases scopes.get? scope name <;> rfl
  funext name scope
  simp only [inspectModule, Scopes.names_detached, hvalue, Value.element_detached, h]

/-- The text of a value is the same without sources, to every depth of modules. -/
theorem Value.inspect_detached (scopes : Scopes) (depth : Nat) (v : Value) :
    Value.inspect scopes.detached depth v.detached = Value.inspect scopes depth v := by
  induction depth generalizing v with
  | zero => exact v.inspectWith_detached _
  | succ depth ih =>
    rw [Value.inspect, Value.inspect, inspectModule_detached scopes ih, v.inspectWith_detached]

/-- The text of a value does not show any source. -/
@[simp]
theorem Scopes.inspect_detached (scopes : Scopes) (v : Value) :
    scopes.detached.inspect v.detached = scopes.inspect v := by
  rw [Scopes.inspect, Scopes.inspect, Scopes.size_detached, Value.inspect_detached]

end Rill
