import Rill.Decimal.Layout
import Rill.Outline
import Rill.Text.Json

/-!
# Outlines as JSON

One field or element a line, two blanks of indentation a level, and a newline at the end.
-/

namespace Rill.Outline

/-- A line break and the indentation of a level. -/
def jsonBreak (depth : Nat) : Bytes := 0x0A :: List.replicate (2 * depth) 0x20

/-- Pieces on lines of their own between brackets; nothing between them leaves no line. -/
def jsonEnclose (left right : Bytes) (depth : Nat) : List Bytes → Bytes
  | [] => left ++ right
  | pieces =>
    left ++ jsonBreak (depth + 1) ++ Bytes.join (text "," ++ jsonBreak (depth + 1)) pieces ++
      jsonBreak depth ++ right

mutual

/-- An outline at a level. -/
def jsonAt (depth : Nat) : Outline → Bytes
  | null => text "null"
  | boolean b => if b then text "true" else text "false"
  | integer n => Bytes.ofInt n.toInt
  | float x => Layout.json.float32 x
  | double x => Layout.json.float x
  | string s => Json.string Json.document s
  | list elements => jsonEnclose (text "[") (text "]") depth (jsonElements (depth + 1) elements)
  | record fields => jsonEnclose (text "\x7b") (text "\x7d") depth (jsonFields (depth + 1) fields)

/-- The elements of a list. -/
def jsonElements (depth : Nat) : List Outline → List Bytes
  | [] => []
  | o :: os => jsonAt depth o :: jsonElements depth os

/-- The fields of a record. -/
def jsonFields (depth : Nat) : List (String × Outline) → List Bytes
  | [] => []
  | (name, o) :: fields =>
    (Json.string Json.document (text name) ++ text ": " ++ jsonAt depth o) ::
      jsonFields depth fields

end

/-- An outline as a JSON document. -/
def json (o : Outline) : Bytes := jsonAt 0 o ++ text "\n"

end Rill.Outline
