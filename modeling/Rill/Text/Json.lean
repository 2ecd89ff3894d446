import Rill.Text.Glyph

/-!
# JSON strings

A text as a JSON string. Characters of HTML stay as they are, and the two line separators of Unicode
are escaped. Writers differ in whether backspace and form feed have their short escapes, and in how
they write the replacement character that stands for a byte that is no UTF-8.
-/

namespace Rill.Json

/-- The decisions of a writer of JSON strings. -/
structure Style where
  /-- Whether backspace and form feed have short escapes. -/
  short : Bool
  /-- What is written for a byte that is no UTF-8. -/
  replacement : Bytes
  deriving DecidableEq, Repr

/-- How log records write strings. -/
def logged : Style := ⟨false, text "\\ufffd"⟩

/-- How documents write strings. -/
def document : Style := ⟨true, encodeRune 0xFFFD⟩

/-- How a glyph is written in a JSON string. -/
def escape (style : Style) : Glyph → Bytes
  | .stray _ => style.replacement
  | .rune c =>
    if c = 0x22 then text "\\\""
    else if c = 0x5C then text "\\\\"
    else if c = 0x0A then text "\\n"
    else if c = 0x0D then text "\\r"
    else if c = 0x09 then text "\\t"
    else if style.short && c = 0x08 then text "\\b"
    else if style.short && c = 0x0C then text "\\f"
    else if c < 0x20 ∨ c = 0x2028 ∨ c = 0x2029 then text "\\u" ++ Bytes.ofHex 4 c
    else encodeRune c

/-- A text as a JSON string. -/
def string (style : Style) (s : Bytes) : Bytes :=
  text "\"" ++ (glyphs s).flatMap (escape style) ++ text "\""

end Rill.Json
