import Rill.Command
import Rill.Database.Script
import Rill.Outline.Yaml
import Rill.Toml
import Std.Time

/-!
# The command line

The outer layer of the command: it takes a picture of the files, carries the command out on that
picture, and writes back the files that the command made or changed. A console is fed line by line,
so that each answer is shown before the next line is read.
-/

namespace Rill.Shell

/-- The bytes of a string. -/
def bytes (s : String) : Bytes := s.toUTF8.toList

/-- The string of bytes; bytes that are no UTF-8 make it empty. -/
def string (s : Bytes) : String := (String.fromUTF8? ⟨s.toArray⟩).getD ""

/-- How deep a picture follows directories. -/
def depthLimit : Nat := 16

/-- Adds what stands under an absolute path to a picture of the files. Of the files in a directory
only sources are taken, since no others can be imported. What cannot be read is left out. -/
def addPath (path : String) (fs : Files) : Nat → IO Files
  | 0 => return fs
  | depth + 1 => do
    try
      let spot := (← IO.currentDir) / path
      if ← spot.isDir then
        let mut fs := (fs.makeDirectories (bytes path)).toOption.getD fs
        for entry in ← spot.readDir do
          if entry.fileName.endsWith ".aqua" || (← entry.path.isDir) then
            fs ← addPath (path ++ "/" ++ entry.fileName) fs depth
        return fs
      else
        let content := (← IO.FS.readBinFile spot).toList
        let made := (fs.makeDirectories (Path.parent (bytes path))).toOption.getD fs
        return (made.write (bytes path) content).toOption.getD made
    catch _ => return fs

/-- Adds what stands under some paths to a picture of the files. -/
def addPaths (paths : List Bytes) (fs : Files) : IO Files :=
  (paths.filter (! List.isEmpty ·)).foldlM
    (fun fs path => addPath (string (Path.absolute fs.cwd path)) fs depthLimit) fs

/-- A picture of the files that a command can read or change. The settings tell which log file is
one of them. -/
def picture (o : Options) (home : Bytes) (arguments : List Bytes) : IO Files := do
  let cwd := bytes (← IO.currentDir).toString
  let root := if o.root = [] then text "." else o.root
  let scripts := arguments.take 1
  let fs ← addPaths ([cwd, root, Path.join [root, Settings.fileName], o.settings, home] ++
    scripts.map Path.parent ++ scripts) (.empty cwd)
  match Command.settings Toml.format o fs with
  | .ok found => addPaths [found.root, found.logFile] fs
  | .error _ => return fs

/-- All regular files of a picture by absolute path. -/
def regularFiles (fs : Files) : List (Bytes × Bytes) :=
  fs.nodes.filterMap fun (place, node) =>
    match node with
    | .file number => some (place.flatMap (Path.slash :: ·), fs.content number)
    | .directory => none

/-- Writes back the files that differ from an earlier picture. -/
def writeBack (before after : Files) : IO Unit := do
  let known := regularFiles before
  for (path, content) in regularFiles after do
    if ! known.elem (path, content) then
      IO.FS.createDirAll (string (Path.parent path))
      IO.FS.writeBinFile (string path) ⟨content.toArray⟩

/-- Writes bytes to a stream. -/
def put (stream : IO.FS.Stream) (s : Bytes) : IO Unit := do
  stream.write ⟨s.toArray⟩
  stream.flush

/-- Shows what was printed and logged, writes files back, and gives a world in which that is
done. -/
def settle (before : Files) (w : World) : IO World := do
  put (← IO.getStdout) w.output
  put (← IO.getStderr) w.journal.shown
  writeBack before w.files
  return { w with printed := [], journal := { w.journal with fallback := [] } }

/-- Carries out a step of a run, and shows what it did. -/
def advance {α : Type} (step : Run α) (w : World) : IO (α × World) := do
  match step.run w with
  | some (a, after) => return (a, ← settle w.files after)
  | none => throw (IO.userError "the program did not end within its bound")

/-- Feeds a console until the input ends or a line is too long. -/
partial def converse (c : Console) (w : World) : IO World := do
  let (_, w) ← advance c.ask w
  let input ← (← IO.getStdin).getLine
  match Console.lines (bytes input) with
  | [] => return w
  | line :: _ =>
    let (_, w) ← advance (c.answer line) w
    converse c w

/-- The time in the form of log records. -/
def clock : IO Bytes := do
  return bytes (Std.Time.DateTime.ofTimestamp (← Std.Time.Timestamp.now) .UTC).toISO8601String

/-- What the command finds around it. -/
def surroundings : IO Surroundings := do
  let home := (← IO.getEnv "AQUA_HOME").getD ""
  return {
    clock := ← clock
    home := bytes home
    colored := ← (← IO.getStdout).isTty
    settings := Toml.format
    toYaml := Outline.yaml
    server := Script.server }

/-- Carries out a run that is ready to start, and gives the exit code. -/
def perform (p : Command.Prepared) (before : Files) (arguments : List Bytes) : IO Nat := do
  let noise := (← IO.getRandomBytes 8).toList.foldl (fun n b => 256 * n + b.toNat) 0
  let w ← settle before { p.world with entropy := .ofSeed noise.toUInt64 }
  let (code, w) ←
    match arguments with
    | path :: _ => advance (Command.runScript p.console path) w
    | [] => do
      let (_, w) ← advance (Run.print Command.banner) w
      pure (0, ← converse p.console w)
  let _ ← advance Command.conclude w
  return code

/-- Carries out a command line, and gives the exit code. -/
def command (arguments : List Bytes) : IO Nat := do
  match Options.read arguments with
  | .error fault =>
    put (← IO.getStderr) (fault.message ++ text "\n" ++ Command.usage)
    return 2
  | .ok (o, rest) =>
    let s ← surroundings
    if o.version then
      put (← IO.getStdout) Command.version
      return 0
    else if o.help then
      put (← IO.getStdout) Command.usage
      return 0
    else
      let before ← picture o s.home rest
      match Command.prepare s o before with
      | .error message =>
        put (← IO.getStderr) message
        return 2
      | .ok p => perform p before rest

end Rill.Shell

/-- The command. -/
def main (arguments : List String) : IO UInt32 := do
  return (← Rill.Shell.command (arguments.map Rill.Shell.bytes)).toUInt32
