import Rill.Database.Server
import Rill.Fault
import Rill.Table

/-!
# Database handles

Programs reach databases through handles. A handle names a connection, and at most one transaction
is open on it; while one is, the statements on the handle belong to it.

`Database` holds the open handles and the history of what was asked of the databases. Handles are
numbered from one and never used again. Connections are numbered apart from handles, because a
connection that does not answer gets no handle.
-/

namespace Rill

/-- The handles of a run. -/
structure Database where
  /-- How the databases answer. -/
  server : Server := .absent
  /-- How many connections were tried. -/
  tried : Nat := 0
  /-- How many transactions were tried. -/
  begun : Nat := 0
  /-- The handle that was given out last. -/
  lastHandle : Int64 := 0
  /-- The connections by handle. -/
  connections : Table Int64 Connection := []
  /-- The transactions by handle. -/
  transactions : Table Int64 Transaction := []
  /-- What was asked of the databases, the last first. -/
  history : List Event := []
  deriving Inhabited

namespace Database

/-- Adds an event. -/
def note (d : Database) (request : Request) (granted : Bool) : Database :=
  { d with history := ⟨request, granted⟩ :: d.history }

/-- Asks for something that is no statement. -/
def ask (d : Database) (request : Request) : Except Bytes Unit × Database :=
  let answer := d.server.serve d.history request
  (answer, d.note request answer.isOk)

/-- Gives a new connection that answers a handle. -/
def link (c : Connection) (d : Database) : Except DatabaseFault Int64 × Database :=
  match d.ask (.obtain c) with
  | (.error answer, d) => (.error (.obtain answer), d)
  | (.ok (), d) =>
    match d.ask (.ping c) with
    -- A connection that does not answer is closed, and what that gives is not looked at.
    | (.error answer, d) => (.error (.ping answer), (d.ask (.close c)).2)
    | (.ok (), d) =>
      let handle := d.lastHandle + 1
      (.ok handle, { d with lastHandle := handle, connections := d.connections.put handle c })

/-- Connects to a database. -/
def connect (driver database : Bytes) (d : Database) : Except DatabaseFault Int64 × Database :=
  match Driver.ofName? driver with
  | none => (.error (.driver driver), d)
  | some driver =>
    match d.server.refusal? driver database with
    | some answer => (.error (.address answer), d)
    | none => { d with tried := d.tried + 1 }.link ⟨d.tried, driver, database⟩

/-- Where the statements on a handle go: to its transaction, and else to its connection. -/
def target (d : Database) (handle : Int64) : Except DatabaseFault Target :=
  match d.transactions.get? handle with
  | some t => .ok (.transaction t)
  | none =>
    match d.connections.get? handle with
    | some c => .ok (.connection c)
    | none => .error (.handle handle)

/-- Runs a statement. -/
def exec (target : Target) (sql : Bytes) (params : List Param) (d : Database) :
    Except DatabaseFault (Int64 × Int64) × Database :=
  let answer := d.server.exec d.history target sql params
  (answer.mapError .exec, d.note (.statement .exec target sql params) answer.isOk)

/-- Runs a query. -/
def query (target : Target) (sql : Bytes) (params : List Param) (d : Database) :
    Except DatabaseFault Rows × Database :=
  let answer := d.server.query d.history target sql params
  (answer.mapError .query, d.note (.statement .query target sql params) answer.isOk)

/-- Begins a transaction on a handle. -/
def begin (handle : Int64) (d : Database) : Except DatabaseFault Unit × Database :=
  match d.connections.get? handle with
  | none => (.error (.handle handle), d)
  | some c =>
    if d.transactions.has handle then (.error (.transactionOpen handle), d)
    else
      let t : Transaction := ⟨d.begun, c⟩
      match { d with begun := d.begun + 1 }.ask (.begin t) with
      | (.error answer, d) => (.error (.begin answer), d)
      | (.ok (), d) => (.ok (), { d with transactions := d.transactions.put handle t })

/-- Ends the transaction of a handle. It is over even if the database refuses. -/
def finish (commit : Bool) (handle : Int64) (d : Database) : Except DatabaseFault Unit × Database :=
  match d.transactions.get? handle with
  | none => (.error (.noTransaction handle), d)
  | some t =>
    let (answer, d) := { d with transactions := d.transactions.erase handle }.ask (.finish commit t)
    (answer.mapError (if commit then .commit else .rollback), d)

/-- Rolls the transaction of a handle back, if there is one. -/
def abandon (handle : Int64) (d : Database) : Database :=
  match d.transactions.get? handle with
  | none => d
  | some t => ({ d with transactions := d.transactions.erase handle }.ask (.finish false t)).2

/-- Closes a handle, after its transaction was rolled back. -/
def close (handle : Int64) (d : Database) : Except DatabaseFault Unit × Database :=
  -- A rollback that is refused does not keep the handle open.
  let d := d.abandon handle
  match d.connections.get? handle with
  | none => (.error (.handle handle), d)
  | some c =>
    let (answer, d) := { d with connections := d.connections.erase handle }.ask (.close c)
    (answer.mapError .close, d)

/-- What went wrong when everything was given up. -/
structure ReleaseFault where
  /-- The operation that was refused. -/
  service : Service
  /-- The handle. -/
  handle : Int64
  /-- The database's answer. -/
  answer : Bytes
  deriving DecidableEq, Repr, Inhabited

/-- The wording of a refusal when everything was given up. -/
def ReleaseFault.message (f : ReleaseFault) : Bytes :=
  f.service.label ++ text " handle " ++ Bytes.ofInt f.handle.toInt ++ text ": " ++ f.answer

/-- Makes requests for several handles, and collects the refusals. -/
def askAll (service : Service) : List (Int64 × Request) → Database → List ReleaseFault × Database
  | [], d => ([], d)
  | (handle, request) :: rest, d =>
    let (answer, d) := d.ask request
    let (faults, d) := askAll service rest d
    match answer with
    | .error answer => (⟨service, handle, answer⟩ :: faults, d)
    | .ok () => (faults, d)

/-- Gives everything up: rolls transactions back, then closes connections, each in a given order. -/
def releaseIn (transactions : Table Int64 Transaction) (connections : Table Int64 Connection)
    (d : Database) :
    List ReleaseFault × Database :=
  let (unrolled, d) := { d with transactions := [] }.askAll .rollback
    (transactions.map fun (handle, t) => (handle, .finish false t))
  let (unclosed, d) := { d with connections := [] }.askAll .close
    (connections.map fun (handle, c) => (handle, .close c))
  (unrolled ++ unclosed, d)

/-- Gives everything up, in the order of the tables. -/
def release (d : Database) : List ReleaseFault × Database :=
  d.releaseIn d.transactions d.connections

end Database

end Rill
