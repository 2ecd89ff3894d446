import Rill.Text.Glyph
import Rill.Token

/-!
# Reading tokens

A `Cursor` is an offset in a source together with the bytes from there on. `Cursor.scan` reads the
next token and moves behind it; `tokens` reads a whole source.

White space and comments stand between tokens. A comment runs from `#` to the end of the line, or
from `##` to the next `##`. A byte of value zero ends the source wherever it stands outside a
string; inside a string it closes the string. Every token but the end token takes at least one byte,
so a source of `n` bytes has at most `n` tokens before its end.
-/

namespace Rill

/-- A position in a source. -/
structure Cursor where
  /-- The byte offset of the position. -/
  pos : Nat
  /-- The bytes from the position on. -/
  rest : Bytes
  deriving DecidableEq, Repr

namespace Cursor

/-- Where a stretch between two tokens stands. -/
inductive Gap where
  /-- Between comments. -/
  | blank
  /-- Behind the first `#` of a comment. -/
  | opened
  /-- In a comment that ends with the line. -/
  | line
  /-- In a comment that ends with `##`. -/
  | block
  /-- In such a comment, behind a `#` that may be the first half of its end. -/
  | closing
  deriving DecidableEq, Repr

/-- A byte that only separates tokens. -/
def isBlank (b : UInt8) : Bool :=
  b == 0x20 || b == 0x09 || b == 0x0D || b == 0x0A

/-- Moves over white space and comments. -/
def skipGap : Gap → (pos : Nat) → Bytes → Cursor
  | _, pos, [] => ⟨pos, []⟩
  | .blank, pos, b :: s =>
    if isBlank b then skipGap .blank (pos + 1) s
    else if b = 0x23 then skipGap .opened (pos + 1) s
    else ⟨pos, b :: s⟩
  | .opened, pos, b :: s =>
    if b = 0 then ⟨pos, b :: s⟩
    else if b = 0x23 then skipGap .block (pos + 1) s
    else if b = 0x0A then skipGap .blank (pos + 1) s
    else skipGap .line (pos + 1) s
  | .line, pos, b :: s =>
    if b = 0 then ⟨pos, b :: s⟩
    else if b = 0x0A then skipGap .blank (pos + 1) s
    else skipGap .line (pos + 1) s
  | .block, pos, b :: s =>
    if b = 0 then ⟨pos, b :: s⟩
    else if b = 0x23 then skipGap .closing (pos + 1) s
    else skipGap .block (pos + 1) s
  | .closing, pos, b :: s =>
    if b = 0 then ⟨pos, b :: s⟩
    else if b = 0x23 then skipGap .blank (pos + 1) s
    else skipGap .block (pos + 1) s

/-- A byte of a name. -/
def isWordByte (b : UInt8) : Bool :=
  Bytes.isLetter b || b == 0x5F

/-- A byte inside a string. -/
def isQuotedByte (b : UInt8) : Bool :=
  b != 0x22 && b != 0

/-- The number at the front of `s`, which starts with a digit: its kind, its literal and what
follows. A point belongs to the number only if a digit or one of the endings `f` and `d` comes
next. -/
def number (s : Bytes) : TokenKind × Bytes × Bytes :=
  let whole := s.takeWhile Bytes.isDigit
  let after := s.dropWhile Bytes.isDigit
  match after with
  | 0x2E :: n :: s' =>
    if Bytes.isDigit n || n == 0x66 || n == 0x64 then
      let fraction := (n :: s').takeWhile Bytes.isDigit
      let body := whole ++ 0x2E :: fraction
      match (n :: s').dropWhile Bytes.isDigit with
      | e :: s'' =>
        if e = 0x66 then (.float, body ++ [e], s'')
        else if e = 0x64 then (.double, body ++ [e], s'')
        else (.double, body, e :: s'')
      | [] => (.double, body, [])
    else (.int, whole, after)
  | _ => (.int, whole, after)

/-- For a byte that can stand alone or with a second byte: its kind alone, the second byte, and the
kind of the two together. -/
def pair? (b : UInt8) : Option (TokenKind × UInt8 × TokenKind) :=
  if b = 0x3D then some (.assign, 0x3D, .eq)
  else if b = 0x2B then some (.plus, 0x3D, .plusEq)
  else if b = 0x2D then some (.minus, 0x3D, .minusEq)
  else if b = 0x2A then some (.asterisk, 0x3D, .asteriskEq)
  else if b = 0x2F then some (.slash, 0x3D, .slashEq)
  else if b = 0x21 then some (.bang, 0x3D, .notEq)
  else if b = 0x3C then some (.lt, 0x3D, .ltEq)
  else if b = 0x3E then some (.gt, 0x3D, .gtEq)
  else if b = 0x26 then some (.illegal, 0x26, .and)
  else if b = 0x7C then some (.illegal, 0x7C, .or)
  else none

/-- The kind of a mark of one byte. -/
def mark? (b : UInt8) : Option TokenKind :=
  if b = 0x3B then some .semicolon
  else if b = 0x3A then some .colon
  else if b = 0x2C then some .comma
  else if b = 0x2E then some .period
  else if b = 0x28 then some .lparen
  else if b = 0x29 then some .rparen
  else if b = 0x7B then some .lbrace
  else if b = 0x7D then some .rbrace
  else if b = 0x5B then some .lbracket
  else if b = 0x5D then some .rbracket
  else none

/-- The token that starts with byte `b` at offset `pos`, where `s` follows. -/
def scanAt (pos : Nat) (b : UInt8) (s : Bytes) : Token × Cursor :=
  if b = 0x22 then
    let body := s.takeWhile isQuotedByte
    match s.dropWhile isQuotedByte with
    -- The byte that ends the string is taken with it, be it a quote or of value zero.
    | _ :: s' => (⟨.string, body, pos⟩, ⟨pos + body.length + 2, s'⟩)
    | [] => (⟨.string, body, pos⟩, ⟨pos + body.length + 1, []⟩)
  else if isWordByte b then
    let word := b :: s.takeWhile isWordByte
    (⟨TokenKind.ofWord word, word, pos⟩, ⟨pos + word.length, s.dropWhile isWordByte⟩)
  else if Bytes.isDigit b then
    let (kind, literal, s') := number (b :: s)
    (⟨kind, literal, pos⟩, ⟨pos + literal.length, s'⟩)
  else
    match pair? b, mark? b with
    | some (alone, second, together), _ =>
      match s with
      | c :: s' =>
        if c = second then (⟨together, [b, c], pos⟩, ⟨pos + 2, s'⟩)
        else (⟨alone, [b], pos⟩, ⟨pos + 1, s⟩)
      | [] => (⟨alone, [b], pos⟩, ⟨pos + 1, []⟩)
    | none, some kind => (⟨kind, [b], pos⟩, ⟨pos + 1, s⟩)
    | none, none =>
      -- The literal is that of the character that is shown, and not the bytes that were taken.
      let (g, taken) := Glyph.decode b s
      (⟨.illegal, encodeRune g.code, pos⟩, ⟨pos + 1 + taken, s.drop taken⟩)

/-- The next token and the position behind it. At the end the position stays. -/
def scan (c : Cursor) : Token × Cursor :=
  match skipGap .blank c.pos c.rest with
  | ⟨pos, []⟩ => (⟨.eof, [], pos⟩, ⟨pos, []⟩)
  | ⟨pos, b :: s⟩ =>
    if b = 0 then (⟨.eof, [], pos⟩, ⟨pos, b :: s⟩)
    else scanAt pos b s

/-- At most `n` tokens from a position on, ending with the first end token. -/
def tokens : (n : Nat) → Cursor → List Token
  | 0, _ => []
  | n + 1, c =>
    let (t, c') := c.scan
    if t.kind = .eof then [t] else t :: tokens n c'

end Cursor

/-- The tokens of a source, the last of which is its end. -/
def tokens (src : Bytes) : List Token :=
  Cursor.tokens (src.length + 1) ⟨0, src⟩

end Rill
