import Rill.Builtin
import Rill.Outline.Dump
import Rill.Tree.Parser

/-!
# Modules

Importing a file evaluates it in a scope of its own and gives the bindings of that scope as a
module. A file is looked for beside the file that imports it, then in the library. A file that did
not change since its last successful load is not evaluated again, and a file that is marked as being
loaded cannot be imported.

* `resolve` finds the file of an import, `load` loads it.
* `within` evaluates a file on top of the stack of files, and takes it off again.
-/

namespace Rill.Import

/-- What the names of source files end with. -/
def extension : Bytes := text ".aqua"

/-- The name of the module of a file. -/
def moduleName (path : Bytes) : Bytes := Path.trimSuffix extension (Path.base path)

/-- The file of an import. -/
def resolve (host : Host) (fs : Files) (stack : List Bytes) (name : Bytes) :
    Except LoadFault Bytes :=
  let file := if Bytes.endsWith name extension then name else name ++ extension
  if Path.isAbsolute file then .ok file
  else
    let base := stack.head?.elim host.root Path.parent
    let beside := Path.join [base, file]
    match fs.stat beside with
    | .ok _ => .ok (Path.absolute fs.cwd beside)
    | .error fault =>
      if fault.reason ≠ .notFound then .error (.stat beside fault)
      else if host.home = [] then .error (.notFound file beside none)
      else
        let library := Path.join [host.home, text "lib", file]
        match fs.stat library with
        | .ok _ => .ok (Path.absolute fs.cwd library)
        -- Whatever the library refuses, the file counts as not found.
        | .error _ => .error (.notFound file beside (some library))

/-- The names around a cycle: from the first file of the stack that is `path` to the innermost one,
and then the first one again. -/
def cycle (stack : List Bytes) (path : Bytes) : List Bytes :=
  (stack.reverse.dropWhile (· != path)).map moduleName ++ [moduleName path]

/-- Parses a file, and writes its dump file if that is asked for. -/
def parseFile (host : Host) (path src : Bytes) : Run (Except Malformed Program) := do
  let parsed := parse src
  if host.dump ≠ [] then
    match parsed.program.dump host.toYaml path host.dump (← get).files with
    | .ok (target, files) =>
      modify fun w => { w with files }
      Run.log .debug "wrote AST" [("path", .word target)]
    -- A dump that cannot be written does not stop the import.
    | .error fault => Run.log .error "failed to write AST" [("error", .word fault.message)]
  if parsed.diagnostics.isEmpty then return .ok parsed.program
  else return .error ⟨path, src, parsed.diagnostics⟩

/-- Evaluates a file on top of the stack, marked as being loaded. -/
def within (path : Bytes) (evaluate : Run Value) : Run Value := do
  modify fun w => { w with loader := w.loader.enter path }
  let result ← evaluate
  modify fun w => { w with loader := w.loader.leave path }
  return result

/-- Evaluates a file that is read and parsed, and remembers its module if that succeeds. -/
def evaluateModule (host : Host) (path src : Bytes) (program : Program) : Run Value := do
  let scope ← Run.scope none
  let result ← within path (host.evaluate program scope)
  -- A load that failed is not remembered, so the next import tries again.
  if result.isError then return result
  let module := Value.module (moduleName path) path scope
  modify fun w => { w with loader := w.loader.remember path ⟨src, module⟩ }
  return module

/-- Loads the file of a path that is not being loaded. -/
def loadPath (host : Host) (path : Bytes) : Run Value := do
  let w ← get
  match w.files.read path with
  | .error fault => return .error (.load (.unreadable path fault))
  | .ok src =>
    match (w.loader.cache.get? path).filter (·.src = src) with
    | some loaded =>
      Run.log .debug "module cache hit" [("path", .word path)]
      return loaded.module
    | none =>
      Run.log .debug "loading module" [("path", .word path),
        ("depth", .count w.loader.stack.length)]
      match ← parseFile host path src with
      | .error file => return .error (.load (.malformed file))
      | .ok program => evaluateModule host path src program

/-- Loads a module. -/
def load (host : Host) (name : Bytes) : Run Value := do
  let w ← get
  match resolve host w.files w.loader.stack name with
  | .error fault => return .error (.load fault)
  | .ok path =>
    if w.loader.loading.elem path then return .error (.load (.cycle (cycle w.loader.stack path)))
    else loadPath host path

/-- The builtin that imports modules. -/
def builtin : Builtin where
  name := text "import"
  run host args :=
    match args with
    | [.string name] => some <$> load host name
    | [v] => return some (Builtin.wrongKind "import" .string v)
    | args => return some (Builtin.wrongCount (.exactly 1) args)

end Rill.Import
