import Rill.Builtin

/-!
# Database builtins

Programs see databases through handles, which are whole numbers. The arguments are checked from left
to right, the handle of a statement against the open handles as soon as it is known to be a number.
-/

namespace Rill.Builtin

/-- The result of a database operation. -/
def answer {α : Type} (f : α → Value) : Except DatabaseFault α → Value
  | .ok a => f a
  | .error fault => .error (.database fault)

/-- Opens a connection and gives its handle. -/
def sqlOpen : List Value → Run Value
  | [.string driver, .string database] => do
    return answer .integer (← Run.onDatabase (Database.connect driver database))
  | [.string _, v] => return wrongKind "sqlOpen" .string v
  | [v, _] => return wrongKind "sqlOpen" .string v
  | args => return wrongCount (.exactly 2) args

/-- A value as a parameter of a statement. -/
def param? : Value → Option Param
  | .integer n => some (.integer n)
  | .float x => some (.double (Binary.widen x))
  | .double x => some (.double x)
  | .string s => some (.string s)
  | .boolean b => some (.boolean b)
  | .null => some .null
  | _ => none

/-- Values as parameters of a statement. -/
def params (name : String) : List Value → Except Fault (List Param)
  | [] => .ok []
  | v :: vs => do
    match param? v with
    | none => .error (.database (.parameter (text name) v.kind))
    | some p => return p :: (← params name vs)

/-- A statement with where it goes. -/
structure Statement where
  /-- Where it goes. -/
  target : Target
  /-- The text of the statement. -/
  sql : Bytes
  /-- Its parameters. -/
  params : List Param

/-- Reads the arguments of a statement. -/
def statement (name : String) (d : Database) : List Value → Except Fault Statement
  | .integer handle :: query :: args => do
    -- The handle comes before the kind of the query, which is not looked at if the handle is not
    -- open.
    let target ← (d.target handle).mapError .database
    match query with
    | .string sql => return ⟨target, sql, ← params name args⟩
    | v => .error (.argumentKind (text name) .string v.kind)
  | v :: _ :: _ => .error (.argumentKind (text name) .integer v.kind)
  | args => .error (.argumentCount args.length (.atLeast 2))

/-- Puts values under the names of their columns. -/
def row (columns : List Bytes) (values : List Value) : Entries :=
  (columns.zip values).foldl
    (fun entries (c, v) => Entries.insert ⟨.string, digest c⟩ (.string c) v entries) .empty

/-- Runs a statement. -/
def sqlExec (args : List Value) : Run Value := do
  match statement "sqlExec" (← get).database args with
  | .error fault => return .error fault
  | .ok s =>
    match ← Run.onDatabase (Database.exec s.target s.sql s.params) with
    | .error fault => return .error (.database fault)
    | .ok (affected, last) =>
      Run.hash (row [text "rowsAffected", text "lastInsertId"] [.integer affected, .integer last])

/-- The value of a cell; the row of a failure cannot be read. -/
def cellValue : Cell → Except Bytes Value
  | .plain (.integer n) => .ok (.integer n)
  | .plain (.double x) => .ok (.double x)
  | .plain (.boolean b) => .ok (.boolean b)
  | .plain (.string s) => .ok (.string s)
  | .plain .null => .ok .null
  | .moment t => .ok (.string t.render)
  | .unsigned n => .ok (.string (Bytes.ofNat n))
  | .failure message => .error message

/-- The values of cells. -/
def cellValues : List Cell → Except Bytes (List Value)
  | [] => .ok []
  | c :: cs => do
    let v ← cellValue c
    return v :: (← cellValues cs)

/-- The values of rows. -/
def rowValues : List (List Cell) → Except Bytes (List (List Value))
  | [] => .ok []
  | r :: rs => do
    let v ← cellValues r
    return v :: (← rowValues rs)

/-- Makes a hash of every row. -/
def rowHashes (columns : List Bytes) : List (List Value) → Run (List Value)
  | [] => return []
  | r :: rs => do
    let hash ← Run.hash (row columns r)
    return hash :: (← rowHashes columns rs)

/-- Runs a query. -/
def sqlQuery (args : List Value) : Run Value := do
  match statement "sqlQuery" (← get).database args with
  | .error fault => return .error fault
  | .ok s =>
    match ← Run.onDatabase (Database.query s.target s.sql s.params) with
    | .error fault => return .error (.database fault)
    | .ok table =>
      match rowValues table.rows with
      | .error message => return .error (.database (.query message))
      | .ok rows => Run.array (← rowHashes table.columns rows)

/-- An operation on a handle. -/
def onHandle (name : String) (f : Int64 → Database → Except DatabaseFault Unit × Database) :
    List Value → Run Value
  | [.integer handle] => do return answer (fun _ => .null) (← Run.onDatabase (f handle))
  | [v] => return wrongKind name .integer v
  | args => return wrongCount (.exactly 1) args

/-- The database builtins. -/
def sql : List Builtin :=
  [effect "sqlOpen" sqlOpen, effect "sqlExec" sqlExec, effect "sqlQuery" sqlQuery,
    effect "sqlClose" (onHandle "sqlClose" Database.close),
    effect "sqlBegin" (onHandle "sqlBegin" Database.begin),
    effect "sqlCommit" (onHandle "sqlCommit" (Database.finish true)),
    effect "sqlRollback" (onHandle "sqlRollback" (Database.finish false))]

end Rill.Builtin
