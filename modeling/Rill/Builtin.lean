import Rill.Outline
import Rill.World

/-!
# Builtins

A builtin is a named function of the interpreter. A registry holds builtins by name; names are
looked up in it before any scope.
-/

namespace Rill

/-- What a builtin can ask of the interpreter that calls it. -/
structure Host where
  /-- The directory in which imports of the main program start. -/
  root : Bytes := text "."
  /-- The directory of the library; empty if there is none. -/
  home : Bytes := []
  /-- The format in which the trees of files are written beside them; empty if they are not. -/
  dump : Bytes := []
  /-- Writes an outline as YAML. -/
  toYaml : Outline → Bytes
  /-- Evaluates a program in a scope. -/
  evaluate : Program → ScopeId → Run Value

/-- A function of the interpreter. -/
structure Builtin where
  /-- Its name. -/
  name : Bytes
  /-- What it does; without a result it gives null. -/
  run : Host → List Value → Run (Option Value)

/-- Builtins by name. -/
abbrev Registry := Table Bytes Builtin

namespace Registry

/-- The builtin of a name. -/
def lookup (r : Registry) (name : Bytes) : Option Builtin := r.get? name

/-- Takes builtins into a registry; later ones win. -/
def extend (r : Registry) (builtins : List Builtin) : Registry :=
  builtins.foldl (fun r b => r.put b.name b) r

/-- A registry of builtins; of several with one name the last wins. -/
def ofList (builtins : List Builtin) : Registry := extend [] builtins

/-- Both registries; where both have a name, the second wins. -/
def merge (r other : Registry) : Registry := r.extend (other.map Prod.snd)

/-- The names in ascending order. -/
def names (r : Registry) : List Bytes := Bytes.sort r.keys

end Registry

namespace Builtin

/-- A builtin that only looks at its arguments. -/
def plain (name : String) (f : List Value → Value) : Builtin :=
  ⟨text name, fun _ args => return some (f args)⟩

/-- A builtin that works on the world. -/
def effect (name : String) (f : List Value → Run Value) : Builtin :=
  ⟨text name, fun _ args => do return some (← f args)⟩

/-- The fault of a wrong number of arguments. -/
def wrongCount (want : Arity) (args : List Value) : Value :=
  .error (.argumentCount args.length want)

/-- The fault of an argument of another kind. -/
def wrongKind (name : String) (want : Kind) (got : Value) : Value :=
  .error (.argumentKind (text name) want got.kind)

end Builtin

end Rill
