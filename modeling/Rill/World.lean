import Rill.Database
import Rill.Journal
import Rill.Value.Inspect
import Rill.Value.Key

/-!
# The state of a run

`World` is all that a run changes: scopes, files, loaded modules, databases, what was printed and
what was logged. `Run` is a computation on it. A run without a result (`none`) is one that did not
end within the bound that it was given, or that was asked for the text of a module that holds
itself.
-/

namespace Rill

/-- A source of random bytes. -/
structure Entropy where
  /-- The bytes in the order in which they come. -/
  byte : Nat → UInt8
  /-- How many of them were taken. -/
  taken : Nat := 0

namespace Entropy

/-- A word whose bits all depend on each other. -/
def mix (word : UInt64) : UInt64 :=
  let z := (word ^^^ (word >>> 30)) * 0xBF58476D1CE4E5B9
  let z := (z ^^^ (z >>> 27)) * 0x94D049BB133111EB
  z ^^^ (z >>> 31)

/-- A source that is stretched from a seed: its bytes are those of mixed counts. -/
def ofSeed (seed : UInt64) : Entropy where
  byte i :=
    let word := mix (seed + (i / 8 + 1).toUInt64 * 0x9E3779B97F4A7C15)
    (word >>> (56 - 8 * (i % 8)).toUInt64).toUInt8

instance : Inhabited Entropy := ⟨ofSeed 0⟩

/-- The bytes that come next. -/
def next (e : Entropy) (count : Nat) : Bytes := (List.range count).map fun i => e.byte (e.taken + i)

/-- The word of bytes, the highest byte first. -/
def word (bytes : Bytes) : UInt64 := bytes.foldl (fun w b => w <<< 8 ||| b.toUInt64) 0

/-- Draws eight bytes as one word. -/
def draw (e : Entropy) : UInt64 × Entropy := (word (e.next 8), { e with taken := e.taken + 8 })

end Entropy

/-- A module that was loaded before. -/
structure LoadedModule where
  /-- The source that it was loaded from. -/
  src : Bytes
  /-- The module. -/
  module : Value
  deriving Inhabited

/-- The state of the module loader. -/
structure Loader where
  /-- The files that are being evaluated, the innermost first. -/
  stack : List Bytes := []
  /-- The files that are marked as being loaded. -/
  loading : List Bytes := []
  /-- The modules that were loaded, by path. -/
  cache : Table Bytes LoadedModule := []
  /-- The loads that succeeded, the last first. -/
  loads : List (Bytes × LoadedModule) := []
  deriving Inhabited

namespace Loader

/-- Marks a file as being loaded and puts it on top of the stack. -/
def enter (path : Bytes) (l : Loader) : Loader :=
  { l with stack := path :: l.stack, loading := l.loading.insert path }

/-- Takes the top off the stack and the mark off a file. -/
def leave (path : Bytes) (l : Loader) : Loader :=
  { l with stack := l.stack.tail, loading := l.loading.erase path }

/-- Notes a load that succeeded. -/
def remember (path : Bytes) (loaded : LoadedModule) (l : Loader) : Loader :=
  { l with cache := l.cache.put path loaded, loads := (path, loaded) :: l.loads }

end Loader

/-- All that a run changes. -/
structure World where
  /-- The scopes. -/
  scopes : Scopes := #[]
  /-- The identity of the next value that is made. -/
  nextStamp : Stamp := 0
  /-- What was printed, the last piece first. -/
  printed : List Bytes := []
  /-- The files. -/
  files : Files
  /-- The log. -/
  journal : Journal := {}
  /-- The modules. -/
  loader : Loader := {}
  /-- The databases. -/
  database : Database := {}
  /-- The random bytes. -/
  entropy : Entropy := .ofSeed 0

/-- All that was printed. -/
def World.output (w : World) : Bytes := w.printed.reverse.flatten

/-- A computation that reads and changes the world. -/
abbrev Run := StateT World Option

namespace Run

/-- Takes a log record. -/
def log (level : Level) (message : String) (attributes : List (String × Attribute)) : Run Unit :=
  modify fun w =>
    if w.journal.keeps level then
      let (journal, files) := w.journal.record ⟨level, text message, attributes⟩ w.files
      { w with journal, files }
    else w

/-- The identity of a value that is about to be made. -/
def stamp : Run Stamp :=
  modifyGet fun w => (w.nextStamp, { w with nextStamp := w.nextStamp + 1 })

/-- Makes an array. -/
def array (elements : List Value) : Run Value := do return .array (← stamp) elements

/-- Makes a hash. -/
def hash (entries : Entries) : Run Value := do return .hash (← stamp) entries

/-- Makes a scope. -/
def scope (outer : Option ScopeId) : Run ScopeId :=
  modifyGet fun w =>
    let (id, scopes) := w.scopes.fresh outer
    (id, { w with scopes })

/-- The value of a name. -/
def get? (scope : ScopeId) (name : Bytes) : Run (Option Value) := do
  return (← get).scopes.get? scope name

/-- Binds a name. -/
def create (scope : ScopeId) (name : Bytes) (value : Value) : Run Unit := do
  modify fun w => { w with scopes := w.scopes.create scope name value }
  log .debug "created binding" [("name", .word name), ("type", .word value.kind.name)]

/-- Writes a name. -/
def assign (scope : ScopeId) (name : Bytes) (value : Value) : Run Unit := do
  let implicit ← modifyGet fun w =>
    let (implicit, scopes) := w.scopes.assign scope name value
    (implicit, { w with scopes })
  if implicit then log .debug "implicit binding at outermost scope" [("name", .word name)]
  log .debug "assigned binding" [("name", .word name), ("type", .word value.kind.name)]

/-- The text of a value. -/
def inspect (value : Value) : Run Bytes := fun w => (w.scopes.inspect value).map (·, w)

/-- Prints. -/
def print (piece : Bytes) : Run Unit := modify fun w => { w with printed := piece :: w.printed }

/-- Draws 64 random bits. -/
def draw : Run UInt64 :=
  modifyGet fun w =>
    let (bits, entropy) := w.entropy.draw
    (bits, { w with entropy })

/-- Works on the databases. -/
def onDatabase {α : Type} (f : Database → α × Database) : Run α :=
  modifyGet fun w =>
    let (a, database) := f w.database
    (a, { w with database })

end Run

end Rill
