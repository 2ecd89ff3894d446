import Rill.Database.Duration
import Rill.Decimal.Reader
import Rill.Text.Quoted

/-!
# Database addresses

The address of a server, `[user[:password]@][net[(host)]]/name[?key=value&…]`, as the `mysql` driver
takes it. `Address.read` says what is wrong with a malformed one: the first fault from left to right
among the parts in the order place, settings, name, and then the combination of them.
-/

namespace Rill

/-- What is wrong with the address of a server. -/
inductive AddressFault where
  /-- No slash stands before the database name. -/
  | noSlash
  /-- The host has no closing bracket. -/
  | openHost
  /-- The host goes on after its closing bracket. -/
  | unescaped
  /-- A percent sign without two hexadecimal digits. -/
  | escape (excerpt : Bytes)
  /-- The database name has such a percent sign. -/
  | database (name excerpt : Bytes)
  /-- The name of a public key has such a percent sign. -/
  | keyEscape (excerpt : Bytes)
  /-- The name of a transport setting has such a percent sign. -/
  | transportEscape (excerpt : Bytes)
  /-- The connection attributes have such a percent sign. -/
  | attributesEscape (excerpt : Bytes)
  /-- A setting that should be true or false is neither. -/
  | notBoolean (value : Bytes)
  /-- A setting that should be a duration is none. -/
  | duration (fault : DurationFault)
  /-- The unit of time truncation is no duration. -/
  | truncation (value : Bytes) (fault : DurationFault)
  /-- A setting that should be a number is none. -/
  | notNumber (value : Bytes)
  /-- A number does not fit into 64 bits. -/
  | numberRange (value : Bytes)
  /-- The name of a time zone leaves the zone directory. -/
  | zoneName
  /-- A time zone is not known. -/
  | zone (name : Bytes)
  /-- Parameters cannot be put into a text of that collation. -/
  | collation
  /-- A network has no default host. -/
  | network (name : Bytes)
  /-- A transport setting is not known. -/
  | transport (name : Bytes)
  /-- A public key is not known. -/
  | key (name : Bytes)
  deriving DecidableEq, Repr, Inhabited

namespace AddressFault

/-- The wording of a bad percent sign. -/
def escapeMessage (excerpt : Bytes) : Bytes := text "invalid URL escape " ++ quote excerpt

/-- The wording of a fault. -/
def message : AddressFault → Bytes
  | noSlash => text "invalid DSN: missing the slash separating the database name"
  | openHost => text "invalid DSN: network address not terminated (missing closing brace)"
  | unescaped => text "invalid DSN: did you forget to escape a param value?"
  | escape excerpt => escapeMessage excerpt
  | database name excerpt =>
    text "invalid dbname " ++ quote name ++ text ": " ++ escapeMessage excerpt
  | keyEscape excerpt => text "invalid value for server pub key name: " ++ escapeMessage excerpt
  | transportEscape excerpt => text "invalid value for TLS config name: " ++ escapeMessage excerpt
  | attributesEscape excerpt => text "invalid connectionAttributes value: " ++ escapeMessage excerpt
  | notBoolean value => text "invalid bool value: " ++ value
  | duration fault => fault.message
  | truncation value fault =>
    text "invalid timeTruncate value: " ++ value ++ text ", error: " ++ fault.message
  | notNumber value => text "strconv.Atoi: parsing " ++ quote value ++ text ": invalid syntax"
  | numberRange value => text "strconv.Atoi: parsing " ++ quote value ++ text ": value out of range"
  | zoneName => text "time: invalid location name"
  | zone name => text "unknown time zone " ++ name
  | collation => text "invalid DSN: interpolateParams can not be used with unsafe collations"
  | network name => text "default addr for network '" ++ name ++ text "' unknown"
  | transport name => text "invalid value / unknown config name: " ++ name
  | key name => text "invalid value / unknown server pub key name: " ++ name

end AddressFault

/-- The parts of an address that decide whether it can be used. -/
structure Address where
  /-- The kind of network. -/
  network : Bytes := []
  /-- The host on that network. -/
  host : Bytes := []
  /-- Whether parameters are put into the statement text. -/
  interpolates : Bool := false
  /-- The order of texts that was asked for. -/
  collation : Bytes := []
  /-- The transport setting. -/
  transport : Bytes := []
  /-- The name of the public key. -/
  key : Bytes := []
  deriving DecidableEq, Repr, Inhabited

namespace Address

/-- Resolves percent signs, and plus signs where they stand for a blank. The failure is the excerpt
at a percent sign without two hexadecimal digits. -/
def unescape (plus : Bool) : Bytes → Except Bytes Bytes
  | [] => .ok []
  | 0x25 :: rest =>
    match rest with
    | a :: b :: rest' =>
      match Bytes.hexValue? a, Bytes.hexValue? b with
      | some x, some y => (unescape plus rest').map ((x * 16 + y) :: ·)
      | _, _ => .error [0x25, a, b]
    | _ => .error (0x25 :: rest)
  | b :: rest => (unescape plus rest).map ((if plus && b == 0x2B then 0x20 else b) :: ·)

/-- A truth value, in one of the spellings that settings allow. -/
def boolean? (s : Bytes) : Option Bool :=
  if [text "1", text "true", text "TRUE", text "True"].elem s then some true
  else if [text "0", text "false", text "FALSE", text "False"].elem s then some false
  else none

/-- The settings that are true or false and decide nothing here. -/
def switches : List Bytes :=
  ["allowAllFiles", "allowCleartextPasswords", "allowFallbackToPlaintext", "allowNativePasswords",
    "allowOldPasswords", "checkConnLiveness", "clientFoundRows", "columnsWithAlias", "compress",
    "multiStatements", "parseTime", "rejectReadOnly"].map text

/-- The collations in which a byte of a longer character can look like a quote. -/
def riskyOrders : List Bytes :=
  ["big5_chinese_ci", "sjis_japanese_ci", "gbk_chinese_ci", "big5_bin", "gb2312_bin", "gbk_bin",
    "sjis_bin", "cp932_japanese_ci", "cp932_bin", "gb18030_chinese_ci", "gb18030_bin",
    "gb18030_unicode_520_ci"].map text

/-- Whether a time zone name can be used. -/
def checkZone (name : Bytes) : Except AddressFault Unit :=
  if name = [] || name = text "UTC" || name = text "Local" then .ok ()
  else if name.contains (text "..") || name.head? = some 0x2F || name.head? = some 0x5C then
    .error .zoneName
  else .error (.zone name)

/-- Takes one setting into an address. -/
def setting (a : Address) (name value : Bytes) : Except AddressFault Address := do
  let boolean : Except AddressFault Bool := (boolean? value).elim (.error (.notBoolean value)) .ok
  if switches.elem name then
    let _ ← boolean
    return a
  else if name = text "interpolateParams" then
    return { a with interpolates := ← boolean }
  else if name = text "charset" then return a
  else if name = text "collation" then return { a with collation := value }
  else if name = text "loc" then
    checkZone (← (unescape true value).mapError .escape)
    return a
  else if name = text "timeTruncate" then
    (Duration.check value).mapError (.truncation value)
    return a
  else if [text "readTimeout", text "timeout", text "writeTimeout"].elem name then
    (Duration.check value).mapError .duration
    return a
  else if name = text "serverPubKey" then
    return { a with key := ← (unescape true value).mapError .keyEscape }
  else if name = text "tls" then
    match boolean? value with
    | some b => return { a with transport := if b then text "true" else text "false" }
    | none =>
      let lower := value.toLower
      if lower = text "skip-verify" || lower =
        text "preferred" then return { a with transport := lower }
      else return { a with transport := ← (unescape true value).mapError .transportEscape }
  else if name = text "maxAllowedPacket" then
    match readInt? value with
    | none => .error (.notNumber value)
    | some n =>
      if n < Int64.minValue.toInt || Int64.maxValue.toInt <
        n then .error (.numberRange value) else return a
  else if name = text "connectionAttributes" then
    let _ ← (unescape true value).mapError .attributesEscape
    return a
  else
    let _ ← (unescape true value).mapError .escape
    return a

/-- Takes settings into an address; those without an equals sign do not count. -/
def settings (a : Address) : List Bytes → Except AddressFault Address
  | [] => .ok a
  | s :: rest =>
    match Bytes.cut 0x3D s with
    | none => settings a rest
    | some (name, value) => do settings (← a.setting name value) rest

/-- Reads the network and the host. -/
def place (a : Address) (s : Bytes) : Except AddressFault Address :=
  match Bytes.cut 0x28 s with
  | none => .ok { a with network := s }
  | some (network, rest) =>
    if rest.getLast? = some 0x29 then .ok { a with network := network, host := rest.dropLast }
    else if rest.any (· == 0x29) then .error .unescaped
    else .error .openHost

/-- The part after the last occurrence of a byte, or everything. -/
def afterLast (sep : UInt8) (s : Bytes) : Bytes :=
  (s.reverse.takeWhile (· != sep)).reverse

/-- Checks the parts against each other and fills in the defaults. -/
def complete (a : Address) : Except AddressFault Address := do
  if a.interpolates && riskyOrders.elem a.collation then .error .collation
  let network := if a.network = [] then text "tcp" else a.network
  let host ←
    if a.host ≠ [] then .ok a.host
    else if network = text "tcp" then .ok (text "127.0.0.1:3306")
    else if network = text "unix" then .ok (text "/tmp/mysql.sock")
    else .error (.network network)
  let known := [[], text "false", text "true", text "skip-verify",
    text "preferred"].elem a.transport
  if ! known then .error (.transport a.transport)
  if a.key ≠ [] then .error (.key a.key)
  return { a with network := network, host := host }

/-- Reads an address. -/
def read (s : Bytes) : Except AddressFault Address := do
  if s = [] then complete {}
  else if ! s.any (· == 0x2F) then .error .noSlash
  else
    let tail := afterLast 0x2F s
    let head := s.take (s.length - tail.length - 1)
    let a ← if head = [] then .ok {} else ({} : Address).place (afterLast 0x40 head)
    let (name, query) := (Bytes.cut 0x3F tail).elim (tail, none) fun (n, q) => (n, some q)
    let a ← query.elim (.ok a) fun q => a.settings (Bytes.splitOn 0x26 q)
    let _ ← (unescape false name).mapError (.database name)
    a.complete

end Address

end Rill
