import Rill.Files
import Rill.Journal.Level
import Rill.Text.Json

/-!
# The journal

Log records as JSON lines. They go to a file, or to a fallback when no file is named; a journal
without a threshold keeps nothing.

A log file is written through the handle that was opened last. `LogFile.reopen` opens the path anew,
so that a file that was renamed in between keeps what it has and the path gets a fresh one.
`LogFile.close` gives the handle up.
-/

namespace Rill

/-- The value of an attribute of a record. -/
inductive Attribute where
  /-- A text. -/
  | word (value : Bytes)
  /-- A number. -/
  | count (value : Nat)
  deriving DecidableEq, Repr, Inhabited

/-- The JSON form of an attribute. -/
def Attribute.json : Attribute → Bytes
  | word value => Json.string Json.logged value
  | count value => Bytes.ofNat value

/-- A log record. -/
structure Record where
  /-- How much it matters. -/
  level : Level
  /-- What happened. -/
  message : Bytes
  /-- The circumstances in order. -/
  attributes : List (String × Attribute) := []
  deriving Repr, Inhabited

namespace Record

/-- A member of a JSON object, after a comma. -/
def member (name : String) (value : Bytes) : Bytes :=
  text "," ++ Json.string Json.logged (text name) ++ text ":" ++ value

/-- The line of a record that is written at a time. -/
def line (time : Bytes) (r : Record) : Bytes :=
  text "\x7b\"time\":" ++ Json.string Json.logged time ++
    member "level" (Json.string Json.logged (text r.level.label)) ++
    member "msg" (Json.string Json.logged r.message) ++
    r.attributes.flatMap (fun (name, value) => member name value.json) ++ text "\x7d\n"

end Record

/-- Why a log file cannot be used. -/
inductive LogFault where
  /-- The directory of the file cannot be made. -/
  | directory (path : Bytes) (fault : FileFault)
  /-- The file cannot be opened. -/
  | file (path : Bytes) (fault : FileFault)
  deriving DecidableEq, Repr, Inhabited

/-- The wording of a fault. -/
def LogFault.message : LogFault → Bytes
  | directory path fault => text "creating log directory for " ++ path ++ text ": " ++ fault.message
  | file path fault => text "opening log file " ++ path ++ text ": " ++ fault.message

/-- A log file that is written through a handle. -/
structure LogFile where
  /-- The path of the log. -/
  path : Bytes
  /-- The number of the file that is open. -/
  handle : Option Nat
  /-- Whether the file was closed before; it can be closed only once. -/
  released : Bool := false
  deriving DecidableEq, Repr, Inhabited

namespace LogFile

/-- Opens the file of a path at its end, made if need be. -/
def openPath (fs : Files) (path : Bytes) : Except LogFault (Nat × Files) :=
  (fs.openWrite path).mapError (.file path)

/-- Opens a log file, with the directories above it. -/
def create (fs : Files) (path : Bytes) : Except LogFault (LogFile × Files) := do
  let fs ← (fs.makeDirectories (Path.parent path)).mapError (.directory path)
  let (number, fs) ← openPath fs path
  return (⟨path, some number, false⟩, fs)

/-- Writes at the end of the open file; whether a file was open is the first result. -/
def write (f : LogFile) (piece : Bytes) (fs : Files) : Bool × Files :=
  match f.handle with
  | some number => (true, fs.append number piece)
  | none => (false, fs)

/-- Opens the path anew. A path that cannot be opened leaves the handle as it is. -/
def reopen (f : LogFile) (fs : Files) : Except LogFault (LogFile × Files) := do
  let (number, fs) ← openPath fs f.path
  return ({ f with handle := some number }, fs)

/-- Gives the handle up. Closing twice does nothing, but a file that was opened anew after it was
closed cannot be closed any more. -/
def close (f : LogFile) : Option LogFile :=
  match f.handle with
  | none => some f
  | some _ => if f.released then none else some { f with handle := none, released := true }

end LogFile

/-- Where records go. -/
structure Journal where
  /-- The lowest level that is kept; without one nothing is. -/
  threshold : Option Level := none
  /-- The time that records are written at. -/
  clock : Bytes := []
  /-- The log file, if records go to one. -/
  file : Option LogFile := none
  /-- The lines that went to the fallback, the last one first. -/
  fallback : List Bytes := []
  deriving Inhabited

namespace Journal

/-- Opens a journal for the level and the path that were asked for. A level that is not known turns
the journal off, and then no file is made. -/
def create (clock level path : Bytes) (fs : Files) : Except LogFault (Journal × Files) :=
  match Level.ofName? level with
  | none => .ok ({ clock }, fs)
  | some threshold =>
    if path = [] then .ok ({ threshold := some threshold, clock }, fs)
    else do
      let (file, fs) ← LogFile.create fs path
      return ({ threshold := some threshold, clock, file := some file }, fs)

/-- Whether records of a level are kept. -/
def keeps (j : Journal) (level : Level) : Bool :=
  match j.threshold with
  | none => false
  | some threshold => threshold.rank ≤ level.rank

/-- Takes a record. -/
def record (j : Journal) (r : Record) (fs : Files) : Journal × Files :=
  if j.keeps r.level then
    let line := r.line j.clock
    match j.file with
    | some file => (j, (file.write line fs).2)
    | none => ({ j with fallback := line :: j.fallback }, fs)
  else (j, fs)

/-- Opens the log file anew, if there is one, and says why that could not be done. A path that
cannot be opened leaves the handle in use as it is. -/
def reopen (j : Journal) (fs : Files) : Option LogFault × Journal × Files :=
  match j.file with
  | none => (none, j, fs)
  | some file =>
    match file.reopen fs with
    | .ok (file, fs) => (none, { j with file := some file }, fs)
    | .error fault => (some fault, j, fs)

/-- Gives the log file up, if there is one. There is no result if the file cannot be closed any
more. -/
def close (j : Journal) : Option Journal :=
  match j.file with
  | none => some j
  | some file => file.close.map fun file => { j with file := some file }

/-- All that went to the fallback. -/
def shown (j : Journal) : Bytes := j.fallback.reverse.flatten

end Journal

end Rill
