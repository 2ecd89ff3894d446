import Rill.Text.Bytes

/-!
# Durations

The text form of a span of time, such as `1h30m` or `-1.5s`, as far as it decides whether a text is
one.
-/

namespace Rill

/-- Why a text is no duration. -/
inductive DurationFault where
  /-- The text has another form, or the span is too long. -/
  | malformed (whole : Bytes)
  /-- A number has no unit. -/
  | missingUnit (whole : Bytes)
  /-- A unit is not known. -/
  | unknownUnit (unit whole : Bytes)
  deriving DecidableEq, Repr, Inhabited

namespace DurationFault

/-- A text between quotes, with every byte outside printable ASCII in hexadecimal. -/
def quoted (s : Bytes) : Bytes :=
  text "\"" ++ s.flatMap (fun b =>
    if 0x80 ≤ b || b < 0x20 then text "\\x" ++ Bytes.ofHex 2 b.toNat
    else if b = 0x22 || b = 0x5C then [0x5C, b]
    else [b]) ++ text "\""

/-- The wording of a fault. -/
def message : DurationFault → Bytes
  | malformed whole => text "time: invalid duration " ++ quoted whole
  | missingUnit whole => text "time: missing unit in duration " ++ quoted whole
  | unknownUnit unit whole =>
    text "time: unknown unit " ++ quoted unit ++ text " in duration " ++ quoted whole

end DurationFault

namespace Duration

/-- The nanoseconds of a unit. -/
def unit? (name : Bytes) : Option Nat :=
  if name = text "ns" then some 1
  else if name = text "us" || name = text "µs" || name = text "μs" then some 1000
  else if name = text "ms" then some 1000000
  else if name = text "s" then some 1000000000
  else if name = text "m" then some 60000000000
  else if name = text "h" then some 3600000000000
  else none

/-- The longest span that can be counted, one nanosecond more for a span into the past. -/
def limit : Nat := 0x8000000000000000

/-- Sums the parts of a duration; `bound` is at least the number of bytes left. -/
def sum (whole : Bytes) : Nat → Nat → Bytes → Except DurationFault Nat
  | 0, total, _ => .ok total
  | _ + 1, total, [] => .ok total
  | bound + 1, total, s => do
    let digits := s.takeWhile Bytes.isDigit
    let after := s.dropWhile Bytes.isDigit
    let pointed := after.head? = some 0x2E
    let fraction := if pointed then (after.drop 1).takeWhile Bytes.isDigit else []
    let rest := if pointed then (after.drop 1).dropWhile Bytes.isDigit else after
    if digits.isEmpty && fraction.isEmpty then .error (.malformed whole)
    if limit < Bytes.toNat digits then .error (.malformed whole)
    let inUnit := fun b => ! (b == 0x2E || Bytes.isDigit b)
    let name := rest.takeWhile inUnit
    if name.isEmpty then .error (.missingUnit whole)
    match unit? name with
    | none => .error (.unknownUnit name whole)
    | some scale =>
      let part := Bytes.toNat digits * scale + Bytes.toNat fraction *
        scale / Nat.pow 10 fraction.length
      if limit < part || limit < total + part then .error (.malformed whole)
      sum whole bound (total + part) (rest.dropWhile inUnit)

/-- Whether a text is a duration. -/
def check (whole : Bytes) : Except DurationFault Unit := do
  let signed := whole.head? = some 0x2D || whole.head? = some 0x2B
  let s := if signed then whole.drop 1 else whole
  if s = text "0" then .ok ()
  else if s.isEmpty then .error (.malformed whole)
  else
    let total ← sum whole (s.length + 1) 0 s
    if whole.head? ≠ some 0x2D ∧ limit ≤ total then .error (.malformed whole)

end Duration

end Rill
