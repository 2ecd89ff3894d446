import Rill.Text.Bytes

/-!
# Coloured text

Messages for a terminal. Without colours a message is its plain text.
-/

namespace Rill.Paint

/-- The escape sequence with some parameters. -/
def escape (parameters : String) : Bytes := 0x1B :: text "[" ++ text parameters ++ text "m"

/-- A message in red. -/
def alarm (colored : Bool) (s : Bytes) : Bytes :=
  if colored then escape "31" ++ s ++ escape "0" else s

/-- A message in bold yellow. -/
def heading (colored : Bool) (s : Bytes) : Bytes :=
  if colored then escape "33;1" ++ s ++ escape "0" else s

/-- A line in bold yellow. The colour ends before the line does, and so does the weight. -/
def headingLine (colored : Bool) (s : Bytes) : Bytes :=
  (if colored then escape "33;1" ++ s ++ escape "0;22" else s) ++ text "\n"

end Rill.Paint
