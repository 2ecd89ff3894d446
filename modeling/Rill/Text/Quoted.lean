import Rill.Text.Glyph
import Rill.Text.Printable

/-!
# Quoted text

`quote` writes a byte string between double quotes so that it can be shown in a message: printable
characters stand for themselves, a quote and a backslash get a backslash, some control characters
have a letter of their own, and everything else is written in hexadecimal. The text of a quoted
string is always valid UTF-8 and never contains a line break.
-/

namespace Rill

/-- How a glyph is written between quotes. -/
def Glyph.quoted : Glyph → Bytes
  | .stray b => text "\\x" ++ Bytes.ofHex 2 b.toNat
  | .rune c =>
    if c = 0x22 then text "\\\""
    else if c = 0x5C then text "\\\\"
    else if 0x20 ≤ c ∧ c < 0x7F then encodeRune c
    else if c = 0x07 then text "\\a"
    else if c = 0x08 then text "\\b"
    else if c = 0x0C then text "\\f"
    else if c = 0x0A then text "\\n"
    else if c = 0x0D then text "\\r"
    else if c = 0x09 then text "\\t"
    else if c = 0x0B then text "\\v"
    else if c < 0x20 ∨ c = 0x7F then text "\\x" ++ Bytes.ofHex 2 c
    else if isPrintable c then encodeRune c
    else if c < 0x10000 then text "\\u" ++ Bytes.ofHex 4 c
    else text "\\U" ++ Bytes.ofHex 8 c

/-- A string between double quotes. -/
def quote (s : Bytes) : Bytes :=
  text "\"" ++ (glyphs s).flatMap Glyph.quoted ++ text "\""

end Rill
