import Rill.Table
import Rill.Value

/-!
# Scopes

Scopes form a forest. A scope owns the names that were bound in it, and its store holds beside them
a copy of every value that was assigned through it to a name further out. Reading a name looks only
at the stores, from the scope outwards.

* `Scopes.get?` reads a name, `Scopes.create` binds one, `Scopes.assign` writes one.
* `Scopes.path` lists a scope and the ones around it.
-/

namespace Rill

/-- A scope. -/
structure Scope where
  /-- The values that reading a name in this scope finds here. -/
  store : Table Bytes Value := []
  /-- The names that are bound here, with their values. -/
  owned : Table Bytes Value := []
  /-- The scope around this one. -/
  outer : Option ScopeId := none
  deriving Inhabited

/-- The scopes of a run by number. The scope around another one always has the smaller number. -/
abbrev Scopes := Array Scope

namespace Scopes

/-- Makes a scope. -/
def fresh (outer : Option ScopeId) (scopes : Scopes) : ScopeId × Scopes :=
  (scopes.size, scopes.push { outer })

/-- The scope around a scope. -/
def outer? (scopes : Scopes) (scope : ScopeId) : Option ScopeId := scopes[scope]?.bind (·.outer)

/-- A scope and the ones around it, at most `bound` of them. -/
def chain (scopes : Scopes) : Nat → ScopeId → List ScopeId
  | 0, _ => []
  | bound + 1, scope =>
    match scopes.outer? scope with
    | none => [scope]
    | some outer => scope :: chain scopes bound outer

/-- A scope and the ones around it, from the inside to the outside. -/
def path (scopes : Scopes) (scope : ScopeId) : List ScopeId := scopes.chain (scope + 1) scope

/-- The value in the store of a scope itself. -/
def stored? (scopes : Scopes) (name : Bytes) (scope : ScopeId) : Option Value :=
  scopes[scope]?.bind fun s => s.store.get? name

/-- The value that a scope owns under a name. -/
def owned? (scopes : Scopes) (name : Bytes) (scope : ScopeId) : Option Value :=
  scopes[scope]?.bind fun s => s.owned.get? name

/-- Whether a scope owns a name. -/
def owns (scopes : Scopes) (scope : ScopeId) (name : Bytes) : Bool :=
  (scopes.owned? name scope).isSome

/-- The value of a name: the one in the store of the nearest scope that has one. -/
def get? (scopes : Scopes) (scope : ScopeId) (name : Bytes) : Option Value :=
  (scopes.path scope).findSome? (scopes.stored? name)

/-- The names that a scope owns, in ascending order. -/
def names (scopes : Scopes) (scope : ScopeId) : List Bytes :=
  Bytes.sort (Table.keys ((scopes[scope]?.map (·.owned)).getD []))

/-- Binds a name in a scope. -/
def create (scope : ScopeId) (name : Bytes) (value : Value) (scopes : Scopes) : Scopes :=
  scopes.modify scope fun s =>
    { s with store := s.store.put name value, owned := s.owned.put name value }

/-- Writes a value into the store of a scope only. -/
def write (scope : ScopeId) (name : Bytes) (value : Value) (scopes : Scopes) : Scopes :=
  scopes.modify scope fun s => { s with store := s.store.put name value }

/-- Writes a name along a path up to its owner. The last scope of the path becomes the owner if
there is none; whether that happened is the first result. -/
def assignAlong (name : Bytes) (value : Value) : List ScopeId → Scopes → Bool × Scopes
  | [], scopes => (false, scopes)
  | scope :: rest, scopes =>
    if scopes.owns scope name then (false, scopes.create scope name value)
    else if rest.isEmpty then (true, scopes.create scope name value)
    -- A scope on the way keeps a copy, which is what reading the name there finds from now on.
    else assignAlong name value rest (scopes.write scope name value)

/-- Writes a name, seen from a scope; whether the outermost scope had to take it is the first
result. -/
def assign (scope : ScopeId) (name : Bytes) (value : Value) (scopes : Scopes) : Bool × Scopes :=
  assignAlong name value (scopes.path scope) scopes

end Scopes

end Rill
