import Rill.Token
import Rill.Text.Place
import Rill.Text.Quoted

/-!
# Diagnostics

What can be wrong with a source, and how it is reported. A diagnostic keeps the cause and the byte
offset of the token at fault; its message and its place are computed from them.
-/

namespace Rill

/-- What is wrong at some place of a source. -/
inductive SyntaxFault where
  /-- Another token had to come next. -/
  | expected (wanted found : TokenKind)
  /-- No expression starts with this token. -/
  | noOperand (kind : TokenKind) (literal : Bytes)
  /-- A whole number that does not fit in 64 bits. -/
  | badInteger (literal : Bytes)
  /-- A number too large for 32 bits. -/
  | badFloat (literal : Bytes)
  /-- A number too large for 64 bits. -/
  | badDouble (literal : Bytes)
  /-- A loop that does not start with a binding. -/
  | noCounter (found : TokenKind)
  /-- A block that the source leaves open. -/
  | openBlock
  deriving DecidableEq, Repr

/-- The message for a fault. -/
def SyntaxFault.message : SyntaxFault → Bytes
  | expected wanted found =>
    text "expected next token to be " ++ text wanted.name ++ text ", got " ++ text found.name ++
      text " instead"
  | noOperand kind literal =>
    text "No prefix parse function for " ++ text kind.name ++ text "(" ++ literal ++ text ") found"
  | badInteger literal => text "could not parse " ++ quote literal ++ text " as integer"
  | badFloat literal => text "could not parse " ++ quote literal ++ text " as float"
  | badDouble literal => text "could not parse " ++ quote literal ++ text " as double"
  | noCounter found =>
    text "for loop initializer must be a let statement, got " ++ text found.name
  | openBlock =>
    text "expected " ++ text TokenKind.rbrace.name ++ text " to close block, got " ++
      text TokenKind.eof.name ++ text " instead"

/-- A fault of a source and where it was found. -/
structure Diagnostic where
  /-- The byte offset of the token at fault. -/
  offset : Nat
  /-- What is wrong there. -/
  fault : SyntaxFault
  deriving DecidableEq, Repr

namespace Diagnostic

/-- The message of a diagnostic. -/
def message (d : Diagnostic) : Bytes := d.fault.message

/-- The place of a diagnostic in its source. -/
def place (src : Bytes) (d : Diagnostic) : Place := .ofOffset src d.offset

/-- A message behind a place, as `[line:column] message`. -/
def atPlace (p : Place) (message : Bytes) : Bytes :=
  text "[" ++ Bytes.padLeft 0x20 3 (Bytes.ofInt p.line) ++ text ":" ++
    Bytes.padLeft 0x20 2 (Bytes.ofInt p.column) ++ text "] " ++ message

/-- A diagnostic with its place. -/
def render (src : Bytes) (d : Diagnostic) : Bytes := atPlace (d.place src) d.message

end Diagnostic

end Rill
