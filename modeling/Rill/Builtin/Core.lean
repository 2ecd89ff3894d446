import Rill.Builtin
import Rill.Text.Glyph

/-!
# Core builtins

Length, kind and text of values, printing, and the builtins for arrays, hashes and texts. None of
them changes a value: arrays and hashes are copied.
-/

namespace Rill.Builtin

/-- The number of elements, entries or bytes. -/
def len : List Value → Value
  | [.array _ elements] => .integer (Int64.ofNat elements.length)
  | [.hash _ entries] => .integer (Int64.ofNat (Entries.size entries))
  | [.string s] => .integer (Int64.ofNat s.length)
  | [v] => .error (.noLength v.kind)
  | args => wrongCount (.exactly 1) args

/-- The name of the kind of a value. -/
def type : List Value → Value
  | [v] => .string v.kind.name
  | args => wrongCount (.exactly 1) args

/-- The text of a value. -/
def str : List Value → Run Value
  | [v] => return .string (← Run.inspect v)
  | args => return wrongCount (.exactly 1) args

/-- The texts of values. -/
def texts : List Value → Run (List Bytes)
  | [] => return []
  | v :: vs => do
    let shown ← Run.inspect v
    return shown :: (← texts vs)

/-- Prints values on one line. -/
def print (args : List Value) : Run Value := do
  Run.print (Bytes.join (text " ") (← texts args) ++ text "\n")
  return .null

/-- Prints values on a line each. -/
def puts : List Value → Run Value
  | [] => return .null
  | v :: vs => do
    Run.print ((← Run.inspect v) ++ text "\n")
    puts vs

/-- The first element, or null. -/
def first : List Value → Value
  | [.array _ elements] => elements.head?.getD .null
  | [v] => wrongKind "first" .array v
  | args => wrongCount (.exactly 1) args

/-- The last element, or null. -/
def last : List Value → Value
  | [.array _ elements] => elements.getLast?.getD .null
  | [v] => wrongKind "last" .array v
  | args => wrongCount (.exactly 1) args

/-- The elements after the first one; null if there is no first one. -/
def rest : List Value → Run Value
  | [.array _ []] => return .null
  | [.array _ (_ :: elements)] => Run.array elements
  | [v] => return wrongKind "rest" .array v
  | args => return wrongCount (.exactly 1) args

/-- The elements with others behind them. -/
def push : List Value → Run Value
  | .array _ elements :: v :: vs => Run.array (elements ++ v :: vs)
  | v :: _ :: _ => return wrongKind "push" .array v
  | args => return wrongCount (.atLeast 2) args

/-- The keys of a hash in order. -/
def keys : List Value → Run Value
  | [.hash _ entries] => Run.array (Entries.keyValues entries)
  | [v] => return wrongKind "keys" .hash v
  | args => return wrongCount (.exactly 1) args

/-- The values of a hash in the order of the keys. -/
def values : List Value → Run Value
  | [.hash _ entries] => Run.array (Entries.values entries)
  | [v] => return wrongKind "values" .hash v
  | args => return wrongCount (.exactly 1) args

/-- Goes on with a copy of the entries of a hash, without those of a key. -/
def onCopy (skip : Option Key) (entries : Entries) (f : Entries → Run Value) : Run Value :=
  match Entries.copy skip entries with
  | .ok copy => f copy
  | .error k => return .error (.breach (.key k.kind))

/-- A hash with a value under a key. -/
def put : List Value → Run Value
  | [.hash _ entries, k, v] =>
    match k.key? with
    | some key => onCopy none entries fun copy => Run.hash (Entries.insert key k v copy)
    | none => return .error (.unusableKey k.kind)
  | [v, _, _] => return wrongKind "put" .hash v
  | args => return wrongCount (.exactly 3) args

/-- A hash without a key. -/
def remove : List Value → Run Value
  | [.hash _ entries, k] =>
    match k.key? with
    | some key => onCopy (some key) entries Run.hash
    | none => return .error (.unusableKey k.kind)
  | [v, _] => return wrongKind "remove" .hash v
  | args => return wrongCount (.exactly 2) args

/-- A text without the white space around it. -/
def trim : List Value → Value
  | [.string s] => .string (trimSpace s)
  | [v] => wrongKind "trim" .string v
  | args => wrongCount (.exactly 1) args

/-- A builtin on two texts. -/
def onTexts (name : String) (f : Bytes → Bytes → Value) : List Value → Value
  | [.string s, .string t] => f s t
  | [.string _, v] => wrongKind name .string v
  | [v, _] => wrongKind name .string v
  | args => wrongCount (.exactly 2) args

/-- Whether a text occurs in another one. -/
def contains : List Value → Value := onTexts "contains" fun s t => .boolean (Bytes.contains s t)

/-- Whether a text starts with another one. -/
def startsWith : List Value → Value := onTexts "startsWith" fun s t => .boolean (t.isPrefixOf s)

/-- Whether a text ends with another one. -/
def endsWith : List Value → Value := onTexts "endsWith" fun s t => .boolean (Bytes.endsWith s t)

/-- The offset of the first occurrence of a text in another one, or -1. -/
def indexOf : List Value → Value :=
  onTexts "indexOf" fun s t => .integer ((Bytes.find? t s).elim (-1) Int64.ofNat)

/-- The core builtins. -/
def core : List Builtin :=
  [plain "len" len, plain "type" type, effect "str" str, effect "print" print, effect "puts" puts,
    plain "first" first, plain "last" last, effect "rest" rest, effect "push" push,
      effect "keys" keys,
    effect "values" values, effect "put" put, effect "remove" remove, plain "trim" trim,
    plain "contains" contains, plain "startsWith" startsWith, plain "endsWith" endsWith,
    plain "indexOf" indexOf]

end Rill.Builtin
