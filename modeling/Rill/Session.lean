import Rill.Eval

/-!
# Sessions

A session evaluates texts and files one after the other in one world, so that bindings, modules and
database handles last from one to the next.
-/

namespace Rill

/-- Why a script cannot be run. -/
inductive ScriptFault where
  /-- The file cannot be read. -/
  | unreadable (path : Bytes) (fault : FileFault)
  /-- The file cannot be parsed. -/
  | malformed (file : Malformed)
  deriving Inhabited

/-- The wording of a fault. -/
def ScriptFault.message : ScriptFault → Bytes
  | unreadable path fault => text "failed to read " ++ path ++ text ": " ++ fault.message
  | malformed file => file.message

namespace World

/-- A world with files and a journal, and one empty scope. -/
def start (files : Files) (journal : Journal) : World :=
  { scopes := #[{}], files, journal }

/-- The scope that a world starts with. -/
def globalScope : ScopeId := 0

end World

namespace Interpreter

/-- How deep evaluations may nest and how often loops may go around in a session. -/
def limit : Nat := 1000000000000

/-- Evaluates a program. -/
def evalProgramIn (it : Interpreter) (scope : ScopeId) (p : Program) : Run Value :=
  it.eval limit (.program p) scope

/-- Evaluates a text; a text that cannot be parsed is not evaluated. -/
def evalText (it : Interpreter) (scope : ScopeId) (src : Bytes) :
    Run (Except (List Diagnostic) Value) := do
  let parsed := parse src
  if parsed.diagnostics.isEmpty then return .ok (← it.evalProgramIn scope parsed.program)
  else return .error parsed.diagnostics

/-- Evaluates a file in a scope. Imports in it start in its directory. -/
def evalFile (it : Interpreter) (scope : ScopeId) (path : Bytes) :
    Run (Except ScriptFault Value) := do
  let files := (← get).files
  let file := Path.absolute files.cwd path
  match files.read file with
  | .error fault => return .error (.unreadable path fault)
  | .ok src =>
    match ← Import.parseFile (it.host (it.eval limit)) file src with
    | .error file => return .error (.malformed file)
    | .ok program => return .ok (← Import.within file (it.evalProgramIn scope program))

/-- Calls a builtin by name; there is no result if no builtin has that name. -/
def call (it : Interpreter) (name : Bytes) (args : List Value) : Run (Option Value) := do
  match it.registry.lookup name with
  | none => return none
  | some b => return some ((← b.run (it.host (it.eval limit)) args).getD .null)

/-- Gives up the databases of a session. -/
def release : Run (List Database.ReleaseFault) := Run.onDatabase Database.release

end Interpreter

end Rill
