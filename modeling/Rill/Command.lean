import Rill.Command.Options
import Rill.Console
import Rill.Settings

/-!
# The command

What the command does with its options and arguments: it tells its version or how it is used, runs a
script, or starts a console. `Command.prepare` finds the settings and opens the journal,
`Command.runScript` and `Console.converse` do the work, and `Command.conclude` gives up the
databases. `Command.execute` is all of it on an input that is known in advance.

The journal's fallback is the error stream, so messages of the command and log records stand in it
in the order in which they were written.
-/

namespace Rill

/-- What a command is given beside its arguments. -/
structure Surroundings where
  /-- The time that log records are written at. -/
  clock : Bytes
  /-- The directory of the library; empty if there is none. -/
  home : Bytes := []
  /-- Whether messages are coloured. -/
  colored : Bool := false
  /-- How settings files are written. -/
  settings : Toml.Format
  /-- Writes an outline as YAML. -/
  toYaml : Outline → Bytes
  /-- The databases that can be reached. -/
  server : Server

/-- What became of a command. -/
structure Outcome where
  /-- The exit code. -/
  code : Nat
  /-- What went to the output. -/
  output : Bytes := []
  /-- What went to the error stream. -/
  errors : Bytes := []
  /-- The files afterwards. -/
  files : Files
  /-- The databases afterwards. -/
  database : Database := {}

namespace Command

/-- The line that tells the version. -/
def version : Bytes := text "aqua version 'vdev' unknown unknown\n"

/-- The line that a console starts with. -/
def banner : Bytes := text "aqua dev\n"

/-- How the command is used. -/
def usage : Bytes :=
  ["Usage: aqua [options] [filename]",
    "",
    "Options:",
    "  -root <path>         Set the root context for the program (used for imports). " ++
      "Default is '.'",
    "  -config <path>       Load settings from a TOML file. " ++
      "Default is '<root>/aqua.toml' when present.",
    "  -debug-ast <format>  Write the AST of every parsed file as json or yaml.",
    "  -help                Display this help information and exit.",
    "  -version             Display version information and exit.",
    "  -log-level <level>   Set the log level: trace, debug, info, warn, error, none. " ++
      "Default is 'none'.",
    "  -log-file <path>     Specify a log file to write logs. Default is stderr.",
    "",
    "Details:",
    "With no filename aqua starts an interactive session. Imports are resolved",
    "relative to the importing file, then under $AQUA_HOME/lib.",
    "",
    "Examples:",
    "  aqua                         Start the REPL",
    "  aqua -log-level=debug        Start the REPL with debug logging enabled",
    "  aqua script.aqua             Execute the provided Aqua file",
    "",
    "Version Information:",
    "  Version:    dev",
    "  Build Date: unknown",
    "  Commit:     unknown"].flatMap fun line => text line ++ text "\n"

/-- The settings of the file that the options name, or of the one in the root directory, which can
be missing. -/
def loadSettings (format : Toml.Format) (o : Options) (fs : Files) :
    Except SettingsFault Settings :=
  if o.settings ≠ [] then Settings.load format fs o.settings
  else
    let root := if o.root = [] then text "." else o.root
    match Settings.load format fs (Path.join [root, Settings.fileName]) with
    | .error (.unreadable path fault) =>
      if fault.reason = .notFound then .ok {} else .error (.unreadable path fault)
    | loaded => loaded

/-- The settings of a run: options that are given go before the settings file. -/
def settings (format : Toml.Format) (o : Options) (fs : Files) : Except SettingsFault Settings := do
  let s ← loadSettings format o fs
  if o.dump ≠ [] ∧ ! Settings.isFormat o.dump then .error (.unsupportedFormat o.dump)
  let choose (given kept : Bytes) : Bytes := if given = [] then kept else given
  return { s with
    root := choose o.root s.root
    dump := choose o.dump s.dump
    logLevel := choose o.logLevel s.logLevel
    logFile := choose o.logFile s.logFile }

/-- A run that is about to start. -/
structure Prepared where
  /-- The console, with the interpreter of the run. -/
  console : Console
  /-- The world. -/
  world : World

/-- Finds the settings and opens the journal; otherwise there is a message for the error stream. -/
def prepare (s : Surroundings) (o : Options) (fs : Files) : Except Bytes Prepared := do
  let found ← (settings s.settings o fs).mapError fun fault =>
    text "config error: " ++ fault.message ++ text "\n"
  let (journal, fs) ← (Journal.create s.clock found.logLevel found.logFile fs).mapError fun fault =>
    text "log error: " ++ fault.message ++ text "\n"
  let interpreter : Interpreter :=
    { registry := Interpreter.standard, root := found.root, home := s.home, dump := found.dump,
      toYaml := s.toYaml }
  let world : World := { World.start fs journal with database := { server := s.server } }
  return { console := ⟨interpreter, found.prompt, s.colored⟩, world }

/-- Writes to the error stream. -/
def complain (piece : Bytes) : Run Unit :=
  modify fun w => { w with journal := { w.journal with fallback := piece :: w.journal.fallback } }

/-- What is wrong with a source file, each fault with the lines around it. -/
def report (colored : Bool) (m : Malformed) : Bytes :=
  Paint.heading colored (text "parser errors in " ++ m.path ++ text ":\n") ++
    m.diagnostics.flatMap fun d =>
      Paint.alarm colored (d.render m.src ++ text "\n") ++
        Place.excerpt m.src (d.place m.src) ++ text "\n"

/-- Runs a script and gives the exit code. -/
def runScript (c : Console) (path : Bytes) : Run Nat := do
  Run.log .info "running script" [("path", .word path)]
  match ← c.interpreter.evalFile World.globalScope path with
  | .error (.malformed m) =>
    complain (report c.colored m)
    return 1
  | .error fault =>
    complain (Paint.alarm c.colored (fault.message ++ text "\n"))
    return 1
  | .ok (.error fault) =>
    complain (Paint.alarm c.colored (text "runtime error: " ++ fault.message ++ text "\n"))
    return 1
  | .ok _ => return 0

/-- Gives up the databases at the end of a run. -/
def conclude : Run Unit := do
  let faults ← Interpreter.release
  if ! faults.isEmpty then
    Run.log .error "failed to release builtin resources"
      [("error", .word (Bytes.join (text "\n") (faults.map (·.message))))]

/-- Runs the script that the arguments name, or a console on an input without one. -/
def perform (c : Console) (arguments : List Bytes) (input : Bytes) : Run Nat := do
  let code ←
    match arguments with
    | path :: _ => runScript c path
    | [] => do
      Run.print banner
      c.converse input
      pure 0
  conclude
  return code

/-- Carries out a command on an input. There is no outcome if the program does not end within its
bound. -/
def execute (s : Surroundings) (o : Options) (arguments : List Bytes) (input : Bytes) (fs : Files) :
    Option Outcome :=
  if o.version then some { code := 0, output := version, files := fs }
  else if o.help then some { code := 0, output := usage, files := fs }
  else
    match prepare s o fs with
    | .error message => some { code := 2, errors := message, files := fs }
    | .ok p =>
      ((perform p.console arguments input).run p.world).map fun (code, w) =>
        { code, output := w.output, errors := w.journal.shown, files := w.files,
          database := w.database }

end Command

end Rill
