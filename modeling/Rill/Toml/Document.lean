import Rill.Table
import Rill.Text.Bytes

/-!
# Documents of settings

A document has the texts under its top-level keys, and the keys in the order in which they stand in
a file; values that are no texts are told apart only from texts. `Toml.Format` is how documents are
read and their keys are spelled.

Tables can be opened once, and a table that only stands above others can be opened later. An inline
table or an array takes the place of what its elements built up while they were read.
-/

namespace Rill.Toml

/-- A dotted key. -/
abbrev Key := List Bytes

/-- What stands under a key. -/
inductive Item where
  /-- A text. -/
  | string (value : Bytes)
  /-- A value that is no text. -/
  | other
  /-- A table. -/
  | table (entries : List (Bytes × Item))
  /-- An array of tables, the last one first. -/
  | tables (elements : List (List (Bytes × Item)))
  deriving Inhabited

/-- A document that is being read. -/
structure Document where
  /-- What stands under the top-level keys. -/
  entries : Table Bytes Item := []
  /-- Tables that only stand above others so far. -/
  implicit : List Key := []
  /-- Keys whose value is an array. -/
  arrays : List Key := []
  /-- The keys of the file in reverse order. -/
  keys : List Key := []
  deriving Inhabited

namespace Document

/-- Changes the table under a key; in an array of tables that is the last one. -/
def change (f : Table Bytes Item → Option (Table Bytes Item)) :
    Key → Table Bytes Item → Option (Table Bytes Item)
  | [], entries => f entries
  | k :: path, entries =>
    match entries.get? k with
    | some (.table inner) => do return entries.put k (.table (← change f path inner))
    | some (.tables (inner :: before)) => do
      return entries.put k (.tables ((← change f path inner) :: before))
    | _ => none

/-- Whether something stands under a key of the table at a place. -/
def holds (d : Document) (place : Key) (k : Bytes) : Bool :=
  (change (fun entries => if entries.has k then some entries else none) place d.entries).isSome

/-- Notes whether the value of a key is an array. -/
def markArray (key : Key) (isArray : Bool) (d : Document) : Document :=
  let others := d.arrays.filter (· != key)
  { d with arrays := if isArray then key :: others else others }

/-- Marks a table as one that only stands above others. -/
def markImplicit (key : Key) (d : Document) : Document := { d with implicit := key :: d.implicit }

/-- Puts an item under a key of the table at a place. A key that is there can be put again if its
value is an array, or if it is a table that only stood above others, which is then kept. -/
def put (place : Key) (k : Bytes) (item : Item) (d : Document) : Option Document :=
  let key := place ++ [k]
  let insert (entries : Table Bytes Item) := some (entries.put k item)
  if d.holds place k then
    let settled := { d with implicit := d.implicit.filter (· != key) }
    if d.arrays.elem key then do return { settled with entries := ← change insert place d.entries }
    else if d.implicit.elem key then some settled
    else none
  else do return { d with entries := ← change insert place d.entries }

/-- Makes the tables of a key that are missing, after those of `before`. -/
def makeParents (before : Key) : Key → Document → Option Document
  | [], d => some d
  | k :: path, d => do
    let key := before ++ [k]
    let d ←
      if d.holds before k then some d
      else (d.put before k (.table [])).map (markImplicit key)
    let _ ← change some key d.entries
    makeParents key path d

/-- Adds a table to the array of tables under a key. -/
def addTable (place : Key) (k : Bytes) (d : Document) : Option Document := do
  let add (entries : Table Bytes Item) : Option (Table Bytes Item) :=
    match entries.get? k with
    | none => some (entries.put k (.tables [[]]))
    | some (.tables elements) => some (entries.put k (.tables ([] :: elements)))
    | some _ => none
  return { d with entries := ← change add place d.entries }

/-- Opens the table of a key, or with `array` a new one in the array of tables of the key. -/
def openTable (key : Key) (array : Bool) (d : Document) : Option Document := do
  let place := key.dropLast
  let k := key.getLastD []
  let d ← makeParents [] place d
  if array then d.addTable place k else d.put place k (.table [])

/-- Opens the tables of the first parts of a dotted key. -/
def openParts (place : Key) : Key → Document → Option Document
  | [], d => some d
  | k :: path, d => do
    let key := place ++ [k]
    openParts key path (← (d.markImplicit key).openTable key false)

end Document

/-- How documents are written. -/
structure Format where
  /-- The document that is written in a text, unless that is malformed. -/
  read? : Bytes → Option Document
  /-- The spelling of a key. -/
  spell : Key → Bytes

end Rill.Toml
