import Rill.Table
import Rill.Value

/-!
# Hash keys

Numbers, truth values and texts can be keys of a hash. A key is filed under its kind and a digest of
64 bits: the number itself, the bits of a binary fraction with both zeros taken as one, or the
FNV-1a digest of a text. Two texts with one digest share an entry. Binary fractions have one
pattern that is not a number, so all that is not a number is filed as one key.
-/

namespace Rill

/-- The 64-bit FNV-1a digest of a text. -/
def digest (s : Bytes) : UInt64 :=
  s.foldl (fun h b => (h ^^^ b.toUInt64) * 1099511628211) 14695981039346656037

namespace Value

/-- What a value is filed under as a key; only numbers, truth values and texts are. -/
def key? : Value → Option Key
  | integer n => some ⟨.integer, n.toUInt64⟩
  | float x => some ⟨.float, if x == 0 then 0 else x.toBits.toUInt64⟩
  | double x => some ⟨.double, if x == 0 then 0 else x.toBits⟩
  | boolean b => some ⟨.boolean, if b then 1 else 0⟩
  | string s => some ⟨.string, digest s⟩
  | _ => none

end Value

/-- The entries of a hash. -/
abbrev Entries := Filing Value

namespace Entries

/-- No entries. -/
def empty : Entries := {}

/-- Puts a value under a key. A new key goes to the end; an entry that is there keeps its place and
takes the new key as well. -/
def insert (key : Key) (k v : Value) (entries : Entries) : Entries where
  order := if Table.has key entries.pairs then entries.order else entries.order ++ [key]
  pairs := Table.put key (k, v) entries.pairs

/-- The value under a key. -/
def lookup (key : Key) (entries : Entries) : Option Value :=
  (Table.get? key entries.pairs).map Prod.snd

/-- The number of entries. -/
def size (entries : Entries) : Nat := entries.order.length

/-- The pairs in the order of their keys. -/
def ordered (entries : Entries) : List (Value × Value) :=
  entries.order.filterMap fun key => Table.get? key entries.pairs

/-- Files pairs anew, behind those that are filed already and without those of a key. A stored key
that cannot be one is in the way. -/
def refile (skip : Option Key) (filed : Entries) : List (Value × Value) → Except Value Entries
  | [] => .ok filed
  | (k, v) :: rest =>
    match k.key? with
    | none => .error k
    | some key =>
      if skip = some key then refile skip filed rest
      else refile skip (insert key k v filed) rest

/-- The entries filed anew, without those of a key. -/
def copy (skip : Option Key) (entries : Entries) : Except Value Entries :=
  refile skip empty entries.ordered

/-- The keys as they were put last. -/
def keyValues (entries : Entries) : List Value := entries.ordered.map Prod.fst

/-- The values in the order of their keys. -/
def values (entries : Entries) : List Value := entries.ordered.map Prod.snd

end Entries

end Rill
