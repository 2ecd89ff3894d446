import Rill.Decimal.Layout
import Rill.Scope
import Rill.Text.Quoted
import Rill.Tree.Printer

/-!
# The text of values

`inspect` is how a value is shown. A text stands as it is, and between quotes inside another value.
A module shows the values that its scope owns.

A module can come to hold itself, and then it has no finite text. `inspect` follows modules to a
given depth, and `Scopes.inspect` to the number of scopes, which no module without such a cycle
exceeds.
-/

namespace Rill

/-- How a hash, an array or a module shows the text of an element. -/
def Value.element (v : Value) (shown : Option Bytes) : Option Bytes :=
  match v with
  | .string s => some (quote s)
  | _ => shown

mutual

/-- The text of a value, given the text of the modules in it. -/
def Value.inspectWith (module : Bytes → ScopeId → Option Bytes) : Value → Option Bytes
  | .integer n => some (Bytes.ofInt n.toInt)
  | .float x => some (Layout.shown.float32 x)
  | .double x => some (Layout.shown.float x)
  | .boolean b => some (if b then text "true" else text "false")
  | .string s => some s
  | .null => some (text "null")
  | .array _ elements =>
    (inspectElements module elements).map fun shown =>
      text "[" ++ Bytes.join (text ", ") shown ++ text "]"
  | .hash _ ⟨order, pairs⟩ =>
    (inspectPairs module pairs).map fun shown =>
      text "\x7b" ++ Bytes.join (text ", ")
        (order.filterMap fun key => Table.get? key shown) ++ text "\x7d"
  | .module name _ scope => module name scope
  | .function _ parameters body _ =>
    some (text "fn(" ++ Bytes.join (text ", ")
      (parameters.map (·.text)) ++ text ") " ++ body.render)
  | .builtin name => some (text "builtin " ++ name)
  | .error fault => some fault.message
  | .returned _ v => v.inspectWith module
  | .broken => some (text "break")

/-- The texts of the elements of an array. -/
def inspectElements (module : Bytes → ScopeId → Option Bytes) : List Value → Option (List Bytes)
  | [] => some []
  | v :: vs => do
    let shown ← v.element (v.inspectWith module)
    return shown :: (← inspectElements module vs)

/-- The texts of the pairs of a hash, by key. -/
def inspectPairs (module : Bytes → ScopeId → Option Bytes) :
    Table Key (Value × Value) → Option (Table Key Bytes)
  | [] => some []
  | (filed, k, v) :: pairs => do
    let key ← k.element (k.inspectWith module)
    let value ← v.element (v.inspectWith module)
    return (filed, key ++ text ": " ++ value) :: (← inspectPairs module pairs)

end

/-- The text of a module, given the text of a value. -/
def inspectModule (scopes : Scopes) (inspect : Value → Option Bytes) (name : Bytes)
    (scope : ScopeId) :
    Option Bytes := do
  let lines ← (scopes.names scope).mapM fun n => do
    let v := (scopes.get? scope n).getD .null
    return text "\n  " ++ n ++ text ": " ++ (← v.element (inspect v)) ++ text ","
  return text "module " ++ name ++ text " \x7b" ++ lines.flatten ++ text "\n\x7d"

/-- The text of a value whose modules are nested less than `depth` deep. -/
def Value.inspect (scopes : Scopes) : Nat → Value → Option Bytes
  | 0, v => v.inspectWith fun _ _ => none
  | depth + 1, v => v.inspectWith (inspectModule scopes (inspect scopes depth))

/-- The text of a value; `none` if it is or holds a module that holds itself. -/
def Scopes.inspect (scopes : Scopes) (v : Value) : Option Bytes :=
  Value.inspect scopes (scopes.size + 1) v

end Rill
