import Rill.Files
import Rill.Text.Quoted
import Rill.Toml.Document

/-!
# Settings

What a settings file can say about a run. A file changes the defaults: keys that it does not have
keep theirs. Every setting is a text, and a key that is no setting is refused.
-/

namespace Rill

/-- The settings of a run. -/
structure Settings where
  /-- The directory in which imports start. -/
  root : Bytes := text "."
  /-- The name of the log level. -/
  logLevel : Bytes := text "none"
  /-- The path of the log file; empty if there is none. -/
  logFile : Bytes := []
  /-- The format of dump files; empty if none are written. -/
  dump : Bytes := []
  /-- What a console shows before it reads a line. -/
  prompt : Bytes := text ">> "
  deriving DecidableEq, Repr, Inhabited

/-- Why settings cannot be used. -/
inductive SettingsFault where
  /-- The file cannot be read. -/
  | unreadable (path : Bytes) (fault : FileFault)
  /-- The file is no document, or a setting is no text. -/
  | malformed (path : Bytes)
  /-- The file has a key that is no setting. -/
  | unknownKey (path key : Bytes)
  /-- The file asks for a dump format that is not known. -/
  | unknownFormat (path format : Bytes)
  /-- The command line asks for a dump format that is not known. -/
  | unsupportedFormat (format : Bytes)
  deriving DecidableEq, Repr, Inhabited

/-- The wording of a fault. -/
def SettingsFault.message : SettingsFault → Bytes
  | unreadable path fault => text "failed to load config " ++ path ++ text ": " ++ fault.message
  | malformed path => text "failed to load config " ++ path ++ text ": toml: invalid document"
  | unknownKey path key => text "unknown config key " ++ quote key ++ text " in " ++ path
  | unknownFormat path format =>
    text "invalid debug_ast " ++ quote format ++ text " in " ++ path ++ text ": want json or yaml"
  | unsupportedFormat format =>
    text "unsupported -debug-ast format " ++ quote format ++ text ", want json or yaml"

namespace Settings

/-- The name of the settings file that is looked for in the root directory. -/
def fileName : Bytes := text "aqua.toml"

/-- Whether dumps can be written in a format. -/
def isFormat (format : Bytes) : Bool := format = text "json" || format = text "yaml"

/-- A character without its case, as far as the names of settings need it. -/
def foldGlyph (g : Glyph) : Bytes :=
  match g with
  | .rune c =>
    if 0x41 ≤ c ∧ c ≤ 0x5A then encodeRune (c + 0x20)
    else if c = 0x17F then text "s"
    else if c = 0x212A then text "k"
    else g.bytes
  | .stray _ => g.bytes

/-- Changes the setting of a name, in any case; there is no result if no setting has that name. -/
def set? (name value : Bytes) (s : Settings) : Option Settings :=
  let word := (glyphs name).flatMap foldGlyph
  if word = text "root_path" then some { s with root := value }
  else if word = text "log_level" then some { s with logLevel := value }
  else if word = text "log_file" then some { s with logFile := value }
  else if word = text "debug_ast" then some { s with dump := value }
  else if word = text "prompt" then some { s with prompt := value }
  else none

/-- Whether a key is a setting. -/
def isSetting (key : Toml.Key) : Bool :=
  match key with
  | [name] => (set? name [] {}).isSome
  | _ => false

/-- Takes over a top-level entry of a document; a setting that is no text has no result. -/
def take (s : Settings) (entry : Bytes × Toml.Item) : Option Settings :=
  match entry with
  | (name, .string value) => some ((set? name value s).getD s)
  | (name, _) => if isSetting [name] then none else some s

/-- The settings that the contents of a file stand for. -/
def ofText (format : Toml.Format) (path src : Bytes) : Except SettingsFault Settings :=
  match (do
    let document ← format.read? src
    return (document, ← List.foldlM take {} document.entries) :
      Option (Toml.Document × Settings)) with
  | none => .error (.malformed path)
  | some (document, s) =>
    match document.keys.reverse.find? (! isSetting ·) with
    | some key => .error (.unknownKey path (format.spell key))
    | none => if s.dump = [] || isFormat s.dump then .ok s else .error (.unknownFormat path s.dump)

/-- Loads a settings file. -/
def load (format : Toml.Format) (fs : Files) (path : Bytes) : Except SettingsFault Settings := do
  ofText format path (← (fs.read path).mapError (.unreadable path))

end Settings

end Rill
