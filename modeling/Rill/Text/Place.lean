import Rill.Text.Glyph

/-!
# Places in a source

A place is a line and a column, both counted from one. Lines end at a newline byte, columns count
glyphs. `Place.ofOffset` finds the place of a byte offset, and `Place.excerpt` shows the lines
around a place with a caret below it.
-/

namespace Rill

/-- A line and a column, both counted from one. -/
structure Place where
  /-- The number of the line. -/
  line : Int
  /-- The number of the glyph in the line. -/
  column : Int
  deriving DecidableEq, Repr

namespace Place

/-- The place of the glyph that starts at offset `target`, walking on from offset `pos`, which is at
place `here`; `skip` more bytes belong to a glyph that was already passed. An offset at which no
glyph starts gives the place at the end of the source. -/
def walk (target : Int) : (skip pos : Nat) → (here : Place) → Bytes → Place
  | _, _, here, [] => here
  | skip + 1, pos, here, _ :: s => walk target skip (pos + 1) here s
  | 0, pos, here, b :: s =>
    if (pos : Int) = target then here
    else
      let next : Place := if b = 0x0A then ⟨here.line + 1, 1⟩ else ⟨here.line, here.column + 1⟩
      walk target (Glyph.decode b s).2 (pos + 1) next s

/-- The place of a byte offset. -/
def ofOffset (src : Bytes) (offset : Int) : Place :=
  walk offset 0 0 ⟨1, 1⟩ src

/-- The margin left of a source line. -/
def margin (mark : String) (line : Nat) : Bytes :=
  text mark ++ Bytes.padLeft 0x20 3 (Bytes.ofNat line) ++ text " | "

/-- A blank of the same width as a glyph: tabs stay, anything else becomes a space. -/
def blankOf (g : Glyph) : UInt8 :=
  if g = .rune 0x09 then 0x09 else 0x20

/-- The line of the place itself, and below it a caret under the column. A column past the end of
the line puts the caret just behind the line. -/
def pointedLine (number : Nat) (column : Int) (line : Bytes) : Bytes :=
  let shown := glyphs line
  let before := shown.take (if column - 1 < shown.length then (column - 1).toNat else shown.length)
  let edge := margin "  >  " number
  edge ++ line ++ text "\n" ++ edge.map (fun _ => 0x20) ++ before.map blankOf ++
    text "^ unexpected here"

/-- Up to two lines before the place, the line of the place and a caret line. Carriage returns at
the end of a line are left out. A place on no line of the source shows nothing. -/
def excerpt (src : Bytes) (place : Place) : Bytes :=
  let lines := Bytes.splitOn 0x0A src
  if place.line < 1 ∨ place.line > lines.length then []
  else
    let last := place.line.toNat
    let first := max 1 (last - 2)
    let numbered := (List.range' first (last + 1 - first)).map fun n =>
      (n, Bytes.dropRight 0x0D (lines.getD (n - 1) []))
    numbered.flatMap fun (n, line) =>
      if n = last then pointedLine n place.column line
      else margin "     " n ++ line ++ text "\n"

end Place

end Rill
