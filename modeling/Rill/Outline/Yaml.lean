import Rill.Decimal.Layout
import Rill.Outline
import Rill.Outline.Scalar
import Rill.Text.Base64

/-!
# Outlines as YAML

Records and lists in block style, two blanks of indentation a level. A text is written in the first
of these styles that carries it: as a literal block if it has several lines, plain, in single
quotes, in double quotes. A text that a reader would take for something else is put in double quotes
at once, and bytes that are no UTF-8 are written in base64.
-/

namespace Rill.Yaml

/-- Whether a character ends a line. -/
def isBreak (c : Nat) : Bool := c == 0x0A || c == 0x0D || c == 0x85 || c == 0x2028 || c == 0x2029

/-- Whether a character can be written as it is. Nothing beyond the basic plane can. -/
def isPrintable (c : Nat) : Bool :=
  c == 0x0A || (0x20 ≤ c && c ≤ 0x7E) || (0xA0 ≤ c && c ≤ 0xD7FF) ||
    (0xE000 ≤ c && c ≤ 0xFFFD && c != 0xFEFF)

/-- Whether a character is a blank or a tab. -/
def isBlank (c : Nat) : Bool := c == 0x20 || c == 0x09

/-- Whether two neighbours have a property. -/
def anyPair (p : Nat → Nat → Bool) : List Nat → Bool
  | a :: b :: rest => p a b || anyPair p (b :: rest)
  | _ => false

/-- The characters that start something else than a text. -/
def openers : List Nat := (text "#,[]\x7b\x7d&*!|>'\"%@`").map UInt8.toNat

/-- Whether the first character starts something else than a text. -/
def startsStructure : List Nat → Bool
  | [] => false
  | c :: rest =>
    openers.elem c ||
      ((c == 0x3F || c == 0x3A || c == 0x2D) && (rest.isEmpty || rest.head?.any isBlank)) ||
      (text "---").map UInt8.toNat == (c :: rest).take 3 ||
      (text "...").map UInt8.toNat == (c :: rest).take 3

/-- Whether a colon ends a key or a hash starts a comment. -/
def holdsStructure (s : List Nat) : Bool :=
  anyPair (fun a b => a == 0x3A && isBlank b) s || s.getLast? == some 0x3A ||
    anyPair (fun a b => b == 0x23 && (isBlank a || isBreak a || a == 0)) s

/-- Whether a character needs an escape. -/
def isSpecial (c : Nat) : Bool := c != 0x09 && ! isPrintable c

/-- Whether a blank stands before the end of a line. -/
def hasSpaceBreak (s : List Nat) : Bool := anyPair (fun a b => a == 0x20 && isBreak b) s

/-- Whether a blank stands at the start of a further line. -/
def hasBreakSpace (s : List Nat) : Bool := anyPair (fun a b => isBreak a && b == 0x20) s

/-- Whether a text can be written plain. -/
def allowsPlain (s : List Nat) : Bool :=
  ! (s.head? == some 0x20 || s.getLast? == some 0x20 || s.any isBreak || s.any (· == 0x09) ||
    s.any isSpecial || startsStructure s || holdsStructure s)

/-- Whether a text can be written in single quotes. -/
def allowsSingle (s : List Nat) : Bool :=
  ! (hasBreakSpace s || hasSpaceBreak s || s.any (· == 0x09) || s.any isSpecial)

/-- Whether a text can be written as a literal block. -/
def allowsLiteral (s : List Nat) : Bool :=
  ! (s.getLast? == some 0x20 || hasSpaceBreak s || s.any isSpecial)

/-- A number in hexadecimal with capital letters. -/
def hex (width n : Nat) : Bytes :=
  (Bytes.ofHex width n).map fun b => if 0x61 ≤ b && b ≤ 0x66 then b - 0x20 else b

/-- A character inside double quotes. -/
def escape (c : Nat) : Bytes :=
  if isPrintable c && ! isBreak c && c != 0x22 && c != 0x5C then encodeRune c
  else if c = 0 then text "\\0"
  else if c = 0x07 then text "\\a"
  else if c = 0x08 then text "\\b"
  else if c = 0x09 then text "\\t"
  else if c = 0x0A then text "\\n"
  else if c = 0x0B then text "\\v"
  else if c = 0x0C then text "\\f"
  else if c = 0x0D then text "\\r"
  else if c = 0x1B then text "\\e"
  else if c = 0x22 then text "\\\""
  else if c = 0x5C then text "\\\\"
  else if c = 0x85 then text "\\N"
  else if c = 0x2028 then text "\\L"
  else if c = 0x2029 then text "\\P"
  else if c ≤ 0xFF then text "\\x" ++ hex 2 c
  else if c ≤ 0xFFFF then text "\\u" ++ hex 4 c
  else text "\\U" ++ hex 8 c

/-- A text in double quotes. -/
def double (s : List Nat) : Bytes := text "\"" ++ s.flatMap escape ++ text "\""

/-- The indentation of a further line. -/
def margin (indent : Nat) : Bytes := List.replicate indent 0x20

/-- Characters with the indentation at the start of every further line that is not empty; `fresh`
says that a line starts here. -/
def indented (indent : Nat) (write : Nat → Bytes) (fresh : Bool) : List Nat → Bytes
  | [] => []
  | c :: rest =>
    if isBreak c then encodeRune c ++ indented indent write true rest
    else (if fresh then margin indent else []) ++ write c ++ indented indent write false rest

/-- A text in single quotes; a quote inside is doubled. -/
def single (indent : Nat) (s : List Nat) : Bytes :=
  text "'" ++ indented indent (fun c => if c = 0x27 then text "''" else encodeRune c)
    false s ++ text "'"

/-- How a literal block is announced: the indentation if the text starts with a blank or an empty
line, and whether it ends with no line break or with several. -/
def header (s : List Nat) : Bytes :=
  let start := if s.head?.any (fun c => c == 0x20 || isBreak c) then text "2" else []
  let finish :=
    match s.reverse with
    | [] => text "-"
    | [c] => if isBreak c then text "+" else text "-"
    | c :: d :: _ => if ! isBreak c then text "-" else if isBreak d then text "+" else []
  text "|" ++ start ++ finish

/-- A text as a literal block, up to the end of its last line. A line break at the start of the text
is the one that ends the header. -/
def literal (indent : Nat) (s : List Nat) : Bytes :=
  header s ++ (if s.head?.any isBreak then [] else text "\n") ++
    indented indent encodeRune true s ++
    (if s.getLast?.any isBreak then [] else text "\n")

/-- A valid text with the end of its line, at an indentation; `plain` says that it can be written
without quotes and is still read as intended. -/
def string (indent : Nat) (plain : Bool) (s : List Nat) : Bytes :=
  if s.any (· == 0x0A) then
    if allowsLiteral s then literal indent s else double s ++ text "\n"
  else
    (if ! plain then double s
      else if allowsPlain s then s.flatMap encodeRune
      else if allowsSingle s then single indent s
      else double s) ++ text "\n"

/-- A text with the end of its line. -/
def stringBytes (indent : Nat) (s : Bytes) : Bytes :=
  if isUtf8 s then string indent (Scalar.isText s) ((glyphs s).map Glyph.code)
  else text "!!binary " ++ string indent true ((Base64.lines s).map UInt8.toNat)

end Rill.Yaml

namespace Rill.Outline

mutual

/-- What follows the colon of a field, in a record at an indentation. -/
def yamlField (indent : Nat) : Outline → Bytes
  | list (o :: os) => text "\n" ++ yamlElements (indent + 2) (o :: os)
  | record fields => text "\n" ++ Yaml.margin (indent + 2) ++ yamlRecord (indent + 2) fields
  | list [] => text " []\n"
  | null => text " null\n"
  | boolean b => if b then text " true\n" else text " false\n"
  | integer n => text " " ++ Bytes.ofInt n.toInt ++ text "\n"
  | float x => text " " ++ Layout.plain.float32 x ++ text "\n"
  | double x => text " " ++ Layout.plain.float x ++ text "\n"
  | string s => text " " ++ Yaml.stringBytes (indent + 2) s

/-- The elements of a list at an indentation. -/
def yamlElements (indent : Nat) : List Outline → Bytes
  | [] => []
  | o :: os =>
    Yaml.margin indent ++ text "-" ++
      (match o with
        | record fields => text " " ++ yamlRecord (indent + 2) fields
        | list elements => yamlField indent (list elements)
        | o => yamlField indent o) ++
      yamlElements indent os

/-- The fields of a record at an indentation, after the indentation of the first one. -/
def yamlRecord (indent : Nat) : List (String × Outline) → Bytes
  | [] => text "\x7b\x7d\n"
  | [(name, o)] => text name ++ text ":" ++ yamlField indent o
  | (name, o) :: field :: fields =>
    text name ++ text ":" ++ yamlField indent o ++ Yaml.margin indent ++
      yamlRecord indent (field :: fields)

end

/-- An outline as a YAML document. -/
def yaml : Outline → Bytes
  | record fields => yamlRecord 0 fields
  | o => (yamlField 0 o).drop 1

end Rill.Outline
