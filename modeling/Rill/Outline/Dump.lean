import Rill.Files
import Rill.Outline.Json
import Rill.Text.Quoted

/-!
# Dump files

The outline of a program is written beside its source, into a file that is named after the source
and the format.
-/

namespace Rill

/-- The formats of dump files. -/
inductive DumpFormat where
  /-- JSON. -/
  | json
  /-- YAML. -/
  | yaml
  deriving DecidableEq, Repr, Inhabited

namespace DumpFormat

/-- The name of a format, which is also the last part of the file name. -/
def name : DumpFormat → Bytes
  | json => text "json"
  | yaml => text "yaml"

/-- The format of a name. -/
def ofName? (s : Bytes) : Option DumpFormat :=
  if s = text "json" then some json else if s = text "yaml" then some yaml else none

/-- An outline in a format. How YAML is written is up to the writer `toYaml`. -/
def render (toYaml : Outline → Bytes) : DumpFormat → Outline → Bytes
  | json, o => o.json
  | yaml, o => toYaml o

end DumpFormat

/-- Why a dump file cannot be written. -/
inductive DumpFault where
  /-- No format has that name. -/
  | format (name : Bytes)
  /-- The file cannot be written. -/
  | file (path : Bytes) (fault : FileFault)
  deriving DecidableEq, Repr, Inhabited

/-- The wording of a fault. -/
def DumpFault.message : DumpFault → Bytes
  | format name => text "unknown AST format " ++ quote name
  | file path fault => text "failed to write AST to " ++ path ++ text ": " ++ fault.message

/-- Writes the dump file of a program and gives its path. -/
def Program.dump (p : Program) (toYaml : Outline → Bytes) (path format : Bytes) (fs : Files) :
    Except DumpFault (Bytes × Files) :=
  match DumpFormat.ofName? format with
  | none => .error (.format format)
  | some f =>
    let target := path ++ text ".ast." ++ f.name
    match fs.write target (f.render toYaml p.outline) with
    | .ok fs => .ok (target, fs)
    | .error fault => .error (.file target fault)

end Rill
