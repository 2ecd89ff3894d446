import Rill.Database.Moment

/-!
# Requests to databases

All that a program asks of databases is a `Request`, and a `Server` answers it. A server may look at
all requests before, so that it stands for databases of any behaviour.
-/

namespace Rill

/-! ## Statements and tables -/

/-- A value that goes into a statement. -/
inductive Param where
  /-- A whole number. -/
  | integer (value : Int64)
  /-- A binary fraction. -/
  | double (value : Float)
  /-- A truth value. -/
  | boolean (value : Bool)
  /-- A text. -/
  | string (value : Bytes)
  /-- No value. -/
  | null
  deriving Inhabited

/-- A value that comes out of a query. -/
inductive Cell where
  /-- A value that could be a parameter too. -/
  | plain (value : Param)
  /-- A moment. -/
  | moment (value : Moment)
  /-- A whole number without a sign. -/
  | unsigned (value : Nat)
  /-- A failure when the row is read. -/
  | failure (message : Bytes)
  deriving Inhabited

/-- The columns of a table and its rows. -/
structure Rows where
  /-- The names of the columns. -/
  columns : List Bytes
  /-- The rows; each has a cell for every column. -/
  rows : List (List Cell)
  deriving Inhabited

/-- The operations that a database can refuse. -/
inductive Service where
  /-- Making the connection. -/
  | link
  /-- Answering at all. -/
  | ping
  /-- Beginning a transaction. -/
  | begin
  /-- Committing a transaction. -/
  | commit
  /-- Rolling a transaction back. -/
  | rollback
  /-- Closing the connection. -/
  | close
  deriving DecidableEq, Repr, Inhabited

/-- The name of an operation. -/
def Service.label : Service → Bytes
  | link => text "open"
  | ping => text "ping"
  | begin => text "begin"
  | commit => text "commit"
  | rollback => text "rollback"
  | close => text "close"

/-! ## Drivers -/

/-- The drivers. -/
inductive Driver where
  /-- Databases in files. -/
  | sqlite
  /-- Servers whose addresses are not checked. -/
  | postgres
  /-- Servers whose addresses are checked. -/
  | mysql
  deriving DecidableEq, Repr, Inhabited

/-- The driver of a name. -/
def Driver.ofName? (name : Bytes) : Option Driver :=
  if name = text "sqlite3" then some sqlite
  else if name = text "postgres" then some postgres
  else if name = text "mysql" then some mysql
  else none

/-! ## Requests -/

/-- A connection to a database. -/
structure Connection where
  /-- Its number. -/
  number : Nat
  /-- The driver. -/
  driver : Driver
  /-- The name of the database. -/
  database : Bytes
  deriving DecidableEq, Repr, Inhabited

/-- A transaction. -/
structure Transaction where
  /-- Its number. -/
  number : Nat
  /-- The connection that it is open on. -/
  connection : Connection
  deriving DecidableEq, Repr, Inhabited

/-- Where a statement goes. -/
inductive Target where
  /-- To a connection, outside of any transaction. -/
  | connection (c : Connection)
  /-- To a transaction. -/
  | transaction (t : Transaction)
  deriving DecidableEq, Repr, Inhabited

/-- The connection that a statement uses. -/
def Target.origin : Target → Connection
  | connection c => c
  | transaction t => t.connection

/-- Whether a statement changes something or asks for something. -/
inductive StatementKind where
  /-- It changes something. -/
  | exec
  /-- It asks for something. -/
  | query
  deriving DecidableEq, Repr, Inhabited

/-- What is asked of a database. -/
inductive Request where
  /-- To be there, as a connection that is not used yet. -/
  | obtain (c : Connection)
  /-- To answer. -/
  | ping (c : Connection)
  /-- To close the connection. -/
  | close (c : Connection)
  /-- To begin a transaction. -/
  | begin (t : Transaction)
  /-- To end a transaction, with a commit or a rollback. -/
  | finish (commit : Bool) (t : Transaction)
  /-- To run a statement. -/
  | statement (kind : StatementKind) (target : Target) (sql : Bytes) (params : List Param)
  deriving Inhabited

/-- The connection that a request uses. -/
def Request.origin : Request → Connection
  | obtain c | ping c | close c => c
  | begin t | finish _ t => t.connection
  | statement _ target _ _ => target.origin

/-- A request and whether it was granted. -/
structure Event where
  /-- The request. -/
  request : Request
  /-- Whether it was granted. -/
  granted : Bool
  deriving Inhabited

/-! ## Answers -/

/-- The answers of all databases. They may depend on the events before, the last first. -/
structure Server where
  /-- Whether an address is one, and what is wrong with it otherwise. -/
  address : Bytes → Except Bytes Unit
  /-- The answer to a request that is no statement. -/
  serve : List Event → Request → Except Bytes Unit
  /-- The answer to a statement: the number of rows that it touched and the number of the last
  row. -/
  exec : List Event → Target → Bytes → List Param → Except Bytes (Int64 × Int64)
  /-- The answer to a query. -/
  query : List Event → Target → Bytes → List Param → Except Bytes Rows
  deriving Inhabited

namespace Server

/-- Databases of which none can be reached. -/
def absent : Server where
  address _ := .ok ()
  serve _ _ := .error []
  exec _ _ _ _ := .error []
  query _ _ _ _ := .error []

/-- What is wrong with the name of a database. One driver alone checks the addresses that it is
given. -/
def refusal? (server : Server) (driver : Driver) (database : Bytes) : Option Bytes :=
  match driver, server.address database with
  | .mysql, .error answer => some answer
  | _, _ => none

end Server

end Rill
