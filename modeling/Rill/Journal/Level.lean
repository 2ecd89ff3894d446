import Rill.Text.Glyph

/-!
# Levels of log records

The levels in ascending order. A journal with a threshold keeps the records at that level or above.
-/

namespace Rill

/-- How much a log record matters. -/
inductive Level where
  /-- Every step of an evaluation. -/
  | trace
  /-- What helps to find a mistake. -/
  | debug
  /-- What happens in normal operation. -/
  | info
  /-- What may need attention. -/
  | warn
  /-- What went wrong. -/
  | error
  deriving DecidableEq, Repr, Inhabited

namespace Level

/-- The rank of a level; the distance between the common levels is four. -/
def rank : Level → Int
  | trace => -8
  | debug => -4
  | info => 0
  | warn => 4
  | error => 8

/-- The name of a level in a record. Trace is written by its distance from debug. -/
def label : Level → String
  | trace => "DEBUG-4"
  | debug => "DEBUG"
  | info => "INFO"
  | warn => "WARN"
  | error => "ERROR"

/-- The lower-case form of a glyph, as far as that is an ASCII character. -/
def lowerGlyph (g : Glyph) : Bytes :=
  match g with
  | .rune c =>
    if 0x41 ≤ c ∧ c ≤ 0x5A then encodeRune (c + 0x20)
    else if c = 0x130 then text "i"
    else if c = 0x212A then text "k"
    else g.bytes
  | .stray _ => g.bytes

/-- The level of a name in any case, with blanks around it. Any other name has none. -/
def ofName? (name : Bytes) : Option Level :=
  let word := (glyphs (trimSpace name)).flatMap lowerGlyph
  if word = text "trace" then some trace
  else if word = text "debug" then some debug
  else if word = text "info" then some info
  else if word = text "warn" then some warn
  else if word = text "error" then some error
  else none

end Level

end Rill
