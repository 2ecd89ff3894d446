/-!
# Byte strings

Script sources, string values and everything that is printed are byte strings: they need not be
valid UTF-8, and lengths and offsets count bytes. `Bytes` is the plain list of bytes, so that the
list lemmas of core apply to it directly.

* `text` turns a Lean literal into its bytes.
* `Bytes.ofNat`, `Bytes.ofInt` write decimal numbers, `Bytes.padLeft` aligns them to the right.
* `Bytes.find?` gives the offset of the first occurrence of a pattern.
* `Bytes.splitOn` cuts at a separator byte, `Bytes.join` puts pieces together.
-/

namespace Rill

/-- A string of bytes. -/
abbrev Bytes := List UInt8

/-- The UTF-8 encoding of a code point. A number that is no code point (a surrogate, or above
`0x10FFFF`) is written as the replacement character `U+FFFD`. -/
def encodeRune (c : Nat) : Bytes :=
  if c < 0x80 then [c.toUInt8]
  else if c < 0x800 then [(0xC0 + c / 0x40).toUInt8, (0x80 + c % 0x40).toUInt8]
  else if 0xD800 ≤ c ∧ c < 0xE000 then [0xEF, 0xBF, 0xBD]
  else if c < 0x10000 then
    [(0xE0 + c / 0x1000).toUInt8, (0x80 + c / 0x40 % 0x40).toUInt8, (0x80 + c % 0x40).toUInt8]
  else if c < 0x110000 then
    [(0xF0 + c / 0x40000).toUInt8, (0x80 + c / 0x1000 % 0x40).toUInt8,
      (0x80 + c / 0x40 % 0x40).toUInt8, (0x80 + c % 0x40).toUInt8]
  else [0xEF, 0xBF, 0xBD]

/-- The bytes of a literal. -/
def text (s : String) : Bytes :=
  s.toList.flatMap fun c => encodeRune c.toNat

namespace Bytes

/-- The byte of an ASCII character. -/
def ascii (c : Char) : UInt8 := c.toNat.toUInt8

/-- A number in decimal. -/
def ofNat (n : Nat) : Bytes :=
  (Nat.toDigits 10 n).map ascii

/-- An integer in decimal, with a minus sign when it is negative. -/
def ofInt : Int → Bytes
  | .ofNat n => ofNat n
  | .negSucc n => ascii '-' :: ofNat (n + 1)

/-- `s`, preceded by as many `pad` bytes as it needs to be `width` long. -/
def padLeft (pad : UInt8) (width : Nat) (s : Bytes) : Bytes :=
  List.replicate (width - s.length) pad ++ s

/-- A number in hexadecimal with at least `width` lower-case digits. -/
def ofHex (width : Nat) (n : Nat) : Bytes :=
  padLeft (ascii '0') width ((Nat.toDigits 16 n).map ascii)

/-- A decimal digit. -/
def isDigit (b : UInt8) : Bool := 0x30 ≤ b && b ≤ 0x39

/-- An ASCII letter. -/
def isLetter (b : UInt8) : Bool := (0x61 ≤ b && b ≤ 0x7A) || (0x41 ≤ b && b ≤ 0x5A)

/-- The value of a hexadecimal digit. -/
def hexValue? (b : UInt8) : Option UInt8 :=
  if 0x30 ≤ b && b ≤ 0x39 then some (b - 0x30)
  else if 0x61 ≤ b && b ≤ 0x66 then some (b - 0x57)
  else if 0x41 ≤ b && b ≤ 0x46 then some (b - 0x37)
  else none

/-- The number that a run of decimal digits stands for. -/
def toNat (s : Bytes) : Nat :=
  s.foldl (fun n b => 10 * n + (b.toNat - 0x30)) 0

/-- The offset of the first occurrence of `pattern`. -/
def find? (pattern : Bytes) : Bytes → Option Nat
  | [] => if pattern.isEmpty then some 0 else none
  | b :: s => if pattern.isPrefixOf (b :: s) then some 0 else (find? pattern s).map (· + 1)

/-- Whether `pattern` occurs. -/
def contains (s pattern : Bytes) : Bool :=
  (find? pattern s).isSome

/-- The pieces between the occurrences of a separator; there is always at least one. -/
def splitOn (sep : UInt8) : Bytes → List Bytes
  | [] => [[]]
  | b :: s =>
    if b = sep then [] :: splitOn sep s
    else
      match splitOn sep s with
      | [] => [[b]]
      | p :: ps => (b :: p) :: ps

/-- The part before and the part after the first separator, if there is one. -/
def cut (sep : UInt8) (s : Bytes) : Option (Bytes × Bytes) :=
  match s.dropWhile (· != sep) with
  | [] => none
  | _ :: after => some (s.takeWhile (· != sep), after)

/-- Pieces joined by a separator. -/
def join (sep : Bytes) : List Bytes → Bytes
  | [] => []
  | [p] => p
  | p :: ps => p ++ sep ++ join sep ps

/-- The order of byte strings that compares the first byte that differs. -/
def le : Bytes → Bytes → Bool
  | [], _ => true
  | _ :: _, [] => false
  | a :: s, b :: t => if a < b then true else if b < a then false else le s t

/-- The names in ascending order. -/
def sort (names : List Bytes) : List Bytes :=
  names.mergeSort le

/-- `s` without the bytes `b` at its end. -/
def dropRight (b : UInt8) (s : Bytes) : Bytes :=
  (s.reverse.dropWhile (· == b)).reverse

/-- Whether `s` ends with `suffix`. -/
def endsWith (s suffix : Bytes) : Bool :=
  suffix.reverse.isPrefixOf s.reverse

/-- ASCII letters made lower-case; every other byte is kept. -/
def toLower (s : Bytes) : Bytes :=
  s.map fun b => if 0x41 ≤ b && b ≤ 0x5A then b + 0x20 else b

end Bytes

end Rill
