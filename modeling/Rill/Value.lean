import Rill.Decimal.Binary
import Rill.Fault
import Rill.Tree

/-!
# Values

The values of the language. Data is immutable: a builtin that changes an array or a hash makes a new
one.

Arrays, hashes, functions and ended functions are compared by identity, so each carries the `Stamp`
that it got when it was made. A module is identified by its scope and a builtin by its name.
Numbers, truth values, null and the end of a loop are identified by what they are.
-/

namespace Rill

/-- The identity of a value that was made by the program. -/
abbrev Stamp := Nat

/-- The number of a scope. -/
abbrev ScopeId := Nat

/-- What a key of a hash is filed under. -/
structure Key where
  /-- The kind of the key. -/
  kind : Kind
  /-- Its digest. -/
  digest : UInt64
  deriving DecidableEq, Repr, Inhabited

/-- Pairs of a hash: the keys that they are filed under, in the order in which they were first put,
and the pair of each key. -/
structure Filing (α : Type) where
  /-- The keys in order. -/
  order : List Key := []
  /-- The pairs by key. -/
  pairs : List (Key × α × α) := []
  deriving Inhabited

/-- A value of the language. -/
inductive Value where
  /-- A whole number of 64 bits. -/
  | integer (value : Int64)
  /-- A number of 32 bits. -/
  | float (value : Float32)
  /-- A number of 64 bits. -/
  | double (value : Float)
  /-- A truth value. -/
  | boolean (value : Bool)
  /-- A text. -/
  | string (value : Bytes)
  /-- The absence of a value. -/
  | null
  /-- A list of values. -/
  | array (stamp : Stamp) (elements : List Value)
  /-- Pairs of a key and a value, filed under the key's `Key`. -/
  | hash (stamp : Stamp) (entries : Filing Value)
  /-- The bindings of an imported file. -/
  | module (name path : Bytes) (scope : ScopeId)
  /-- A function of the program with the scope it was made in. -/
  | function (stamp : Stamp) (parameters : List Name) (body : Block) (scope : ScopeId)
  /-- A function of the interpreter. -/
  | builtin (name : Bytes)
  /-- A runtime error. -/
  | error (fault : Fault)
  /-- The value with which a function ends. -/
  | returned (stamp : Stamp) (value : Value)
  /-- The end of a loop. -/
  | broken
  deriving Inhabited

namespace Value

/-- The kind of a value. -/
def kind : Value → Kind
  | integer _ => .integer
  | float _ => .float
  | double _ => .double
  | boolean _ => .boolean
  | string _ => .string
  | null => .null
  | array .. => .array
  | hash .. => .hash
  | module .. => .module
  | function .. => .function
  | builtin _ => .builtin
  | error _ => .error
  | returned .. => .returned
  | broken => .broken

/-- Whether a value is a runtime error. -/
def isError : Value → Bool
  | error _ => true
  | _ => false

/-- Everything holds in a condition but null and false. -/
def isTruthy : Value → Bool
  | null | boolean false => false
  | _ => true

/-- Whether two values are the same one. Texts and numbers never are: where both operands are
numbers or both are texts, the operators compare them in other ways. -/
def same : Value → Value → Bool
  | boolean a, boolean b => a == b
  | null, null => true
  | broken, broken => true
  | array a _, array b _ => a == b
  | hash a _, hash b _ => a == b
  | function a _ _ _, function b _ _ _ => a == b
  | returned a _, returned b _ => a == b
  | module _ _ a, module _ _ b => a == b
  | builtin a, builtin b => a == b
  | _, _ => false

/-- The value of a number in 64 bits. -/
def number? : Value → Option Float
  | integer n => some (Float.ofInt n.toInt)
  | float x => some (Binary.widen x)
  | double x => some x
  | _ => none

end Value

end Rill
