import Rill.Text.Bytes

/-!
# Kinds of values

Every value of the language has one kind, and messages name it.
-/

namespace Rill

/-- The kinds of values. -/
inductive Kind where
  /-- Whole numbers of 64 bits. -/
  | integer
  /-- Numbers of 32 bits. -/
  | float
  /-- Numbers of 64 bits. -/
  | double
  /-- Truth values. -/
  | boolean
  /-- Texts. -/
  | string
  /-- The absence of a value. -/
  | null
  /-- Lists of values. -/
  | array
  /-- Values under keys. -/
  | hash
  /-- The bindings of an imported file. -/
  | module
  /-- Functions of the program. -/
  | function
  /-- Functions of the interpreter. -/
  | builtin
  /-- Runtime errors. -/
  | error
  /-- The value with which a function ends. -/
  | returned
  /-- The end of a loop. -/
  | broken
  deriving DecidableEq, Repr, Inhabited

namespace Kind

/-- The name of a kind in messages. -/
def label : Kind → String
  | integer => "INTEGER"
  | float => "FLOAT"
  | double => "DOUBLE"
  | boolean => "BOOLEAN"
  | string => "STRING"
  | null => "NULL"
  | array => "ARRAY"
  | hash => "HASH"
  | module => "MODULE"
  | function => "FUNCTION"
  | builtin => "BUILTIN"
  | error => "ERROR"
  | returned => "RETURN_VALUE"
  | broken => "BREAK"

/-- The name of a kind in messages, as bytes. -/
def name (k : Kind) : Bytes := text k.label

/-- The numeric kinds from the narrowest to the widest; no other kind has a width. -/
def width? : Kind → Option Nat
  | integer => some 0
  | float => some 1
  | double => some 2
  | _ => none

/-- Whether a kind is numeric. -/
def isNumeric (k : Kind) : Bool := k.width?.isSome

/-- The wider of two kinds; the first one where neither is wider. -/
def widest (a b : Kind) : Kind := if b.width?.getD 0 ≤ a.width?.getD 0 then a else b

end Kind

end Rill
