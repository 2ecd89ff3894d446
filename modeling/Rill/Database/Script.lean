import Rill.Database
import Rill.Database.Address
import Rill.Decimal.Layout

/-!
# The scripted database

A database that holds nothing: its statements say what it answers, and the words of its name say
which operations it refuses. It stands where a database server would, so that programs that use one
can be run and checked without it.

* `fail MSG` fails with a message, and `affect N M` reports the rows that it touched and the last
  row number.
* `rows c1,c2|v,v|v,v` gives a table, and `echo` gives the parameters back.

`Script.server` is the server that programs are run with: behind the driver `sqlite3` it has the
scripted database, and behind the other drivers nothing that can be reached.
-/

namespace Rill

/-- How a parameter is noted beside its statement. -/
def Param.note : Param → Bytes
  | integer n => text " i:" ++ Bytes.ofInt n.toInt
  | double x => text " f:" ++ Layout.plain.float x
  | boolean b => text " b:" ++ (if b then text "true" else text "false")
  | string s => text " s:" ++ s
  | null => text " n:"

namespace Script

/-- The answer to an operation of the database with a name: `fail…` among the words of the name
refuses it. -/
def serve (database : Bytes) (service : Service) : Except Bytes Unit :=
  if (Bytes.splitOn 0x20 database).elem (text "fail" ++ service.label) then
    .error (text "fake: " ++ service.label ++ text " refused")
  else .ok ()

/-- A whole number of 64 bits, the nearest one if it is too large, and zero if the text is none. -/
def integer (s : Bytes) : Int64 :=
  match readInt? s with
  | none => 0
  | some n => Int64.ofInt (max Int64.minValue.toInt (min n Int64.maxValue.toInt))

/-- A whole number of 64 bits without a sign, the nearest one if it is too large. -/
def natural (s : Bytes) : Nat :=
  if s.isEmpty || ! s.all Bytes.isDigit then 0 else min (Bytes.toNat s) (UInt64.size - 1)

/-- A binary fraction, zero if the text is none. -/
def double (s : Bytes) : Float := ((Numeral.read? s).map Numeral.toFloat).getD 0

/-- Reads a moment: the seconds, and after a colon the offset. -/
def moment (s : Bytes) : Moment :=
  match Bytes.cut 0x3A s with
  | none => ⟨(integer s).toInt, 0⟩
  | some (seconds, offset) => ⟨(integer seconds).toInt, (integer offset).toInt⟩

/-- Reads a cell: a letter for its kind, a colon, and its value. -/
def cell (s : Bytes) : Cell :=
  match s with
  | kind :: 0x3A :: value =>
    if kind = Bytes.ascii 'i' then .plain (.integer (integer value))
    else if kind = Bytes.ascii 'f' then .plain (.double (double value))
    else if kind = Bytes.ascii 's' || kind = Bytes.ascii 'y' then .plain (.string value)
    else if kind = Bytes.ascii 'b' then .plain (.boolean (value = text "true"))
    else if kind = Bytes.ascii 't' then .moment (moment value)
    else if kind = Bytes.ascii 'u' then .unsigned (natural value)
    else if kind = Bytes.ascii 'e' then .failure value
    else .plain .null
  | _ => .plain .null

/-- Reads the cells of a row, one for every column. -/
def row : Nat → List Bytes → List Cell
  | 0, _ => []
  | width + 1, [] => .plain .null :: row width []
  | width + 1, s :: rest => cell s :: row width rest

/-- Reads a table. -/
def table (s : Bytes) : Rows :=
  match Bytes.splitOn 0x7C s with
  | [] => ⟨[], []⟩
  | head :: rows =>
    let columns := Bytes.splitOn 0x2C head
    ⟨columns, rows.map fun r => row columns.length (Bytes.splitOn 0x2C r)⟩

/-- The message of a statement that fails on purpose. -/
def failure? (sql : Bytes) : Option Bytes :=
  if sql = text "fail" then some []
  else if (text "fail ").isPrefixOf sql then some (sql.drop 5)
  else none

/-- The answer to a statement that the database does not know. -/
def unknown (sql : Bytes) : Bytes := text "fake: bad statement " ++ sql

/-- A number that a statement reports; a database can decline to report one, and then it is zero. -/
def reported (s : Bytes) : Int64 :=
  match readInt? s with
  | none => 0
  | some n => if Int64.minValue.toInt ≤ n ∧ n ≤ Int64.maxValue.toInt then Int64.ofInt n else 0

/-- Runs a statement: the number of rows that it touched and the number of the last row. -/
def exec (sql : Bytes) (params : List Param) : Except Bytes (Int64 × Int64) :=
  match failure? sql with
  | some message => .error message
  | none =>
    if sql = text "echo" then .ok (Int64.ofNat params.length, 0)
    else
      match Bytes.splitOn 0x20 sql with
      | [verb, affected, last] =>
        if verb = text "affect" then .ok (reported affected, reported last)
          else .error (unknown sql)
      | _ => .error (unknown sql)

/-- Runs a query. -/
def query (sql : Bytes) (params : List Param) : Except Bytes Rows :=
  match failure? sql with
  | some message => .error message
  | none =>
    if sql = text "echo" then
      .ok ⟨(List.range params.length).map fun i => text "p" ++ Bytes.ofNat (i + 1),
        [params.map .plain]⟩
    else if (text "rows ").isPrefixOf sql then .ok (table (sql.drop 5))
    else .error (unknown sql)

/-- The answer of a server that cannot be reached. -/
def unreachable (network host : Bytes) : Except Bytes Unit :=
  .error (text "dial " ++ network ++ text " " ++ host ++ text ": connect: connection refused")

/-- The answer to a request. The first thing that a connection is asked is to answer, and it is made
then. -/
def answer : Request → Except Bytes Unit
  | .obtain _ | .statement .. => .ok ()
  | .ping c =>
    match c.driver, Address.read c.database with
    | .sqlite, _ => serve c.database .link *> serve c.database .ping
    | .mysql, .ok a => unreachable a.network a.host
    | _, _ => unreachable (text "tcp") (text "127.0.0.1:5432")
  | .close c => if (serve c.database .link).isOk then serve c.database .close else .ok ()
  | .begin t => serve t.connection.database .begin
  | .finish true t => serve t.connection.database .commit
  | .finish false t => serve t.connection.database .rollback

/-- The scripted databases. -/
def server : Server where
  address name := do let _ ← (Address.read name).mapError AddressFault.message
  serve _ request := answer request
  exec _ _ sql params := exec sql params
  query _ _ sql params := query sql params

/-- What a scripted database notes of a request. A connection that was not made leaves no trace when
it is closed. -/
def notes (request : Request) : List Bytes :=
  let made := (serve request.origin.database .link).isOk
  match request with
  | .obtain _ => []
  | .ping c => (text "open " ++ c.database) :: if made then [Service.ping.label] else []
  | .close _ => if made then [Service.close.label] else []
  | .begin _ => [Service.begin.label]
  | .finish true _ => [Service.commit.label]
  | .finish false _ => [Service.rollback.label]
  | .statement .exec _ sql params => [text "exec " ++ sql ++ params.flatMap Param.note]
  | .statement .query _ sql params => [text "query " ++ sql ++ params.flatMap Param.note]

/-- The notes that the scripted databases took since a point of the history, in order. -/
def notesSince (count : Nat) (d : Database) : List Bytes :=
  (d.history.take (d.history.length - count)).reverse.flatMap fun e =>
    if e.request.origin.driver = .sqlite then notes e.request else []

end Script

end Rill
