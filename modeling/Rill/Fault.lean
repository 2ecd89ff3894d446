import Rill.Diagnostic
import Rill.Files
import Rill.Kind
import Rill.Operator
import Rill.Text.Quoted

/-!
# Runtime faults

The causes for which an evaluation stops, and the wording of each. A cause holds what its message
names and nothing else; `Fault.message` is the only place that words them.
-/

namespace Rill

/-- How many arguments a builtin takes. -/
inductive Arity where
  /-- Exactly so many. -/
  | exactly (count : Nat)
  /-- So many or more. -/
  | atLeast (count : Nat)
  deriving DecidableEq, Repr, Inhabited

/-- The wording of an arity. -/
def Arity.message : Arity → Bytes
  | exactly count => Bytes.ofNat count
  | atLeast count => Bytes.ofNat count ++ text "+"

/-- A source file that cannot be parsed. -/
structure Malformed where
  /-- The path of the file. -/
  path : Bytes
  /-- The contents of the file. -/
  src : Bytes
  /-- What is wrong with it; never empty. -/
  diagnostics : List Diagnostic
  deriving Repr, Inhabited

/-- The wording of a source file that cannot be parsed. -/
def Malformed.message (m : Malformed) : Bytes :=
  text "Parser errors in " ++ m.path ++ text ":" ++
    m.diagnostics.flatMap fun d => text "\n\t" ++ d.render m.src

/-- Why a module cannot be loaded. -/
inductive LoadFault where
  /-- Neither the place beside the importer nor the library has the file. -/
  | notFound (file beside : Bytes) (library : Option Bytes)
  /-- The place beside the importer cannot be looked at. -/
  | stat (path : Bytes) (fault : FileFault)
  /-- The file is being loaded already; the names go around the cycle. -/
  | cycle (names : List Bytes)
  /-- The file cannot be read. -/
  | unreadable (path : Bytes) (fault : FileFault)
  /-- The file cannot be parsed. -/
  | malformed (file : Malformed)
  deriving Inhabited

/-- The wording of a failed load. -/
def LoadFault.message : LoadFault → Bytes
  | notFound file beside none =>
    text "Module not found: " ++ file ++ text " (looked in " ++ beside ++
      text ", AQUA_HOME is not set)"
  | notFound file beside (some library) =>
    text "Module not found: " ++ file ++ text " (looked in " ++ beside ++ text " and " ++
      library ++ text ")"
  | stat path fault => text "failed to stat " ++ path ++ text ": " ++ fault.message
  | cycle names => text "Import cycle detected: " ++ Bytes.join (text " -> ") names
  | unreadable path fault => text "failed to read module " ++ path ++ text ": " ++ fault.message
  | malformed file => file.message

/-- Why a database operation fails. `answer` is the database's own text. -/
inductive DatabaseFault where
  /-- No database goes by that name. -/
  | driver (name : Bytes)
  /-- The address of the server is malformed. -/
  | address (answer : Bytes)
  /-- The database cannot be obtained. -/
  | obtain (answer : Bytes)
  /-- The database does not answer. -/
  | ping (answer : Bytes)
  /-- No connection has that handle. -/
  | handle (handle : Int64)
  /-- A value of that kind cannot be a parameter. -/
  | parameter (builtin : Bytes) (kind : Kind)
  /-- A statement failed. -/
  | exec (answer : Bytes)
  /-- A query failed. -/
  | query (answer : Bytes)
  /-- A connection cannot be closed. -/
  | close (answer : Bytes)
  /-- The handle has a transaction already. -/
  | transactionOpen (handle : Int64)
  /-- A transaction cannot begin. -/
  | begin (answer : Bytes)
  /-- The handle has no transaction. -/
  | noTransaction (handle : Int64)
  /-- A transaction cannot be committed. -/
  | commit (answer : Bytes)
  /-- A transaction cannot be rolled back. -/
  | rollback (answer : Bytes)
  deriving Inhabited

/-- The wording of a failed database operation. -/
def DatabaseFault.message : DatabaseFault → Bytes
  | driver name => text "failed to open connection: unsupported driver " ++ quote name
  | address answer => text "failed to open connection: invalid mysql DSN: " ++ answer
  | obtain answer => text "failed to open connection: " ++ answer
  | ping answer => text "failed to ping database: " ++ answer
  | handle h => text "invalid connection handle: " ++ Bytes.ofInt h.toInt
  | parameter builtin kind => builtin ++ text ": unsupported parameter type " ++ kind.name
  | exec answer => text "exec failed: " ++ answer
  | query answer => text "query failed: " ++ answer
  | close answer => text "failed to close connection: " ++ answer
  | transactionOpen h => text "transaction already open on handle " ++ Bytes.ofInt h.toInt
  | begin answer => text "failed to begin transaction: " ++ answer
  | noTransaction h => text "no transaction open on handle " ++ Bytes.ofInt h.toInt
  | commit answer => text "failed to commit transaction: " ++ answer
  | rollback answer => text "failed to rollback transaction: " ++ answer

/-- A state that an evaluation takes for impossible. -/
inductive Breach where
  /-- The variable of a loop has no value at the end of a round. -/
  | counter (name : Bytes)
  /-- A parameter has no argument, though their number was checked. -/
  | argument (name : Bytes)
  /-- An array has no element at that index, though the index was checked. -/
  | bounds (index : Int) (length : Nat)
  /-- A whole number is divided by zero, though the divisor was checked. -/
  | division
  /-- A value is no number, though its kind was checked. -/
  | number (got : Kind)
  /-- A hash has a key of a kind that cannot be one. -/
  | key (got : Kind)
  deriving DecidableEq, Repr, Inhabited

/-- The wording of a breach. -/
def Breach.message : Breach → Bytes
  | counter name => text "loop variable without a value: " ++ name
  | argument name => text "parameter without an argument: " ++ name
  | bounds index length =>
    text "index out of range [" ++ Bytes.ofInt index ++ text "] with length " ++ Bytes.ofNat length
  | division => text "integer divide by zero"
  | number got => text "not a number: " ++ got.name
  | key got => text "not a hash key: " ++ got.name

/-- The cause of a runtime error. -/
inductive Fault where
  /-- A text that was given from outside. -/
  | given (message : Bytes)
  /-- A gap in the tree. -/
  | gap
  /-- A state that is taken for impossible. -/
  | breach (why : Breach)
  /-- A name without a value. -/
  | unbound (name : Bytes)
  /-- A loop condition that is no truth value. -/
  | loopCondition (got : Kind)
  /-- A key of a kind that cannot be one. -/
  | unusableKey (got : Kind)
  /-- A function called with the wrong number of arguments. -/
  | parameterCount (want got : Nat)
  /-- A call of something that is no function. -/
  | notFunction (got : Kind)
  /-- An assignment to something that is no name, as it is printed. -/
  | notAssignable (target : Bytes)
  /-- A kind that compound assignment does not know, or not with that operator. -/
  | compound (op : InfixOp) (current : Kind)
  /-- A compound assignment of something that is no number to a number. -/
  | compoundOperand (op : InfixOp) (got : Kind)
  /-- Operands of kinds that do not go together. -/
  | mismatch (left : Kind) (op : InfixOp) (right : Kind)
  /-- An infix operator that the kinds do not have. -/
  | unknownInfix (left : Kind) (op : InfixOp) (right : Kind)
  /-- A prefix operator that the kind does not have. -/
  | unknownPrefix (op : PrefixOp) (operand : Kind)
  /-- A whole number divided by zero. -/
  | divisionByZero
  /-- An element of something that has none, or not by that index. -/
  | notIndexable (got : Kind)
  /-- A member of something that is no module. -/
  | notModule (got : Kind)
  /-- A member that is neither a name nor a call of one, as it is printed. -/
  | memberForm (member : Bytes)
  /-- A builtin called with the wrong number of arguments. -/
  | argumentCount (got : Nat) (want : Arity)
  /-- An argument of another kind than the builtin takes. -/
  | argumentKind (builtin : Bytes) (want got : Kind)
  /-- An argument that is no number. -/
  | argumentNumber (builtin : Bytes) (got : Kind)
  /-- An argument that has no length. -/
  | noLength (got : Kind)
  /-- A rounded number that does not fit into 64 bits, as it is printed. -/
  | integerRange (builtin shown : Bytes)
  /-- The root of a negative number, as it is printed. -/
  | negativeRoot (shown : Bytes)
  /-- A range that ends before it starts. -/
  | emptyRange (low high : Int64)
  /-- A module that cannot be loaded. -/
  | load (fault : LoadFault)
  /-- A database operation that fails. -/
  | database (fault : DatabaseFault)
  deriving Inhabited

namespace Fault

/-- Two kinds with an operator between them. -/
def operands (left : Kind) (op : InfixOp) (right : Kind) : Bytes :=
  left.name ++ text " " ++ op.symbol ++ text " " ++ right.name

/-- The wording of a cause. -/
def message : Fault → Bytes
  | given message => message
  | gap => text "Unsupported node: <nil>"
  | breach why => text "runtime error: " ++ why.message
  | unbound name => text "Identifier not found: " ++ name
  | loopCondition got => text "For loop condition must be BOOLEAN, got " ++ got.name
  | unusableKey got => text "Unusable as hash key: " ++ got.name
  | parameterCount want got =>
    text "Wrong number of arguments: want=" ++ Bytes.ofNat want ++ text ", got=" ++ Bytes.ofNat got
  | notFunction got => text "Not a function: " ++ got.name
  | notAssignable target =>
    text "Cannot assign to " ++ target ++ text ": left side must be an identifier"
  | compound op current =>
    text "Compound assignment " ++ op.symbol ++ text " not supported for " ++ current.name
  | compoundOperand op got =>
    text "Compound assignment " ++ op.symbol ++
      text " requires a numeric right operand, got " ++ got.name
  | mismatch left op right => text "Type mismatch: " ++ operands left op right
  | unknownInfix left op right => text "Unknown operator: " ++ operands left op right
  | unknownPrefix op operand => text "Unknown operator: " ++ op.symbol ++ operand.name
  | divisionByZero => text "Division by zero"
  | notIndexable got => text "Index operator not supported: " ++ got.name
  | notModule got => text "Member access not supported: " ++ got.name
  | memberForm member => text "Module member must be an identifier or call, got " ++ member
  | argumentCount got want =>
    text "wrong number of arguments. got=" ++ Bytes.ofNat got ++ text ", want=" ++ want.message
  | argumentKind builtin want got =>
    text "argument to `" ++ builtin ++ text "` must be " ++ want.name ++ text ", got " ++ got.name
  | argumentNumber builtin got =>
    text "argument to `" ++ builtin ++ text "` must be a number, got " ++ got.name
  | noLength got => text "argument to `len` not supported, got " ++ got.name
  | integerRange builtin shown =>
    text "`" ++ builtin ++ text "` result out of INTEGER range: " ++ shown
  | negativeRoot shown => text "argument to `sqrt` must not be negative, got " ++ shown
  | emptyRange low high =>
    text "invalid range: min (" ++ Bytes.ofInt low.toInt ++ text ") cannot be greater than max (" ++
      Bytes.ofInt high.toInt ++ text ")"
  | load fault => fault.message
  | database fault => fault.message

end Fault

end Rill
