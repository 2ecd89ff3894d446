import Rill.Text.Bytes

/-!
# Characters of a byte string

A byte string is read as a sequence of glyphs. A glyph is a character in well-formed UTF-8, or a
single byte that belongs to no such character. Reading never fails, so every byte string has exactly
one sequence of glyphs, and the bytes of its glyphs put together give the string back.

* `Glyph.decode` reads the glyph at the front of a non-empty string.
* `glyphs` reads a whole string.
* `trimSpace` removes white space from both ends.
-/

namespace Rill

/-- One character of a byte string. -/
inductive Glyph where
  /-- A character, by its code point. -/
  | rune (code : Nat)
  /-- A byte outside every well-formed character. -/
  | stray (byte : UInt8)
  deriving DecidableEq, Repr, Inhabited

namespace Glyph

/-- The code point shown for a glyph: a stray byte counts as `U+FFFD`. -/
def code : Glyph → Nat
  | rune c => c
  | stray _ => 0xFFFD

/-- The bytes that a glyph was read from. -/
def bytes : Glyph → Bytes
  | rune c => encodeRune c
  | stray b => [b]

/-- The payload of a continuation byte. -/
def tail (b : UInt8) : Nat := b.toNat - 0x80

/-- Whether a byte continues a character. -/
def isTail (b : UInt8) : Bool := 0x80 ≤ b && b ≤ 0xBF

/-- The bytes that may come second after the first byte `a` of a character of three or four bytes:
the ranges leave out overlong forms, surrogates and numbers above `0x10FFFF`. -/
def secondOk (a b : UInt8) : Bool :=
  if a = 0xE0 then 0xA0 ≤ b && b ≤ 0xBF
  else if a = 0xED then 0x80 ≤ b && b ≤ 0x9F
  else if a = 0xF0 then 0x90 ≤ b && b ≤ 0xBF
  else if a = 0xF4 then 0x80 ≤ b && b ≤ 0x8F
  else isTail b

/-- The glyph that starts with byte `a` when `rest` follows, and how many bytes of `rest` it
takes. -/
def decode (a : UInt8) (rest : Bytes) : Glyph × Nat :=
  if a < 0x80 then (rune a.toNat, 0)
  else if 0xC2 ≤ a && a ≤ 0xDF then
    match rest with
    | b :: _ => if isTail b then (rune ((a.toNat - 0xC0) * 0x40 + tail b), 1) else (stray a, 0)
    | _ => (stray a, 0)
  else if 0xE0 ≤ a && a ≤ 0xEF then
    match rest with
    | b :: c :: _ =>
      if secondOk a b && isTail c then
        (rune ((a.toNat - 0xE0) * 0x1000 + tail b * 0x40 + tail c), 2)
      else (stray a, 0)
    | _ => (stray a, 0)
  else if 0xF0 ≤ a && a ≤ 0xF4 then
    match rest with
    | b :: c :: d :: _ =>
      if secondOk a b && isTail c && isTail d then
        (rune ((a.toNat - 0xF0) * 0x40000 + tail b * 0x1000 + tail c * 0x40 + tail d), 3)
      else (stray a, 0)
    | _ => (stray a, 0)
  else (stray a, 0)

/-- White space. -/
def isSpace (g : Glyph) : Bool :=
  match g with
  | rune c =>
    (0x09 ≤ c && c ≤ 0x0D) || c == 0x20 || c == 0x85 || c == 0xA0 || c == 0x1680 ||
      (0x2000 ≤ c && c ≤ 0x200A) || c == 0x2028 || c == 0x2029 || c == 0x202F || c == 0x205F ||
      c == 0x3000
  | stray _ => false

end Glyph

/-- The glyphs of a string from which the next `skip` bytes belong to a glyph already read. -/
def glyphsFrom : (skip : Nat) → Bytes → List Glyph
  | _, [] => []
  | skip + 1, _ :: s => glyphsFrom skip s
  | 0, b :: s =>
    let (g, taken) := Glyph.decode b s
    g :: glyphsFrom taken s

/-- The glyphs of a string. -/
def glyphs (s : Bytes) : List Glyph := glyphsFrom 0 s

/-- Whether every glyph is a character, that is, the string is UTF-8. -/
def isUtf8 (s : Bytes) : Bool :=
  (glyphs s).all fun
    | .rune _ => true
    | .stray _ => false

/-- `s` without the white space at its two ends. -/
def trimSpace (s : Bytes) : Bytes :=
  let kept := (glyphs s).dropWhile Glyph.isSpace
  ((kept.reverse.dropWhile Glyph.isSpace).reverse).flatMap Glyph.bytes

end Rill
