import Rill.Text.Quoted

/-!
# Options of the command line

Options stand before the other arguments and start with one or two dashes. A switch can be given a
truth value after an equals sign; every other option takes a text, after an equals sign or as the
next argument. The first argument that is no option, or two dashes alone, ends the options.
-/

namespace Rill

/-- The options of the command line. -/
structure Options where
  /-- Whether help is asked for. -/
  help : Bool := false
  /-- Whether the version is asked for. -/
  version : Bool := false
  /-- The directory in which imports start. -/
  root : Bytes := []
  /-- The path of the settings file. -/
  settings : Bytes := []
  /-- The format of dump files. -/
  dump : Bytes := []
  /-- The name of the log level. -/
  logLevel : Bytes := []
  /-- The path of the log file. -/
  logFile : Bytes := []
  deriving DecidableEq, Repr, Inhabited

/-- Why a command line cannot be understood. -/
inductive OptionFault where
  /-- There is no such option. -/
  | undefined (name : Bytes)
  /-- An option lacks its text. -/
  | noArgument (name : Bytes)
  /-- An argument has dashes but no name. -/
  | badForm (argument : Bytes)
  /-- A switch is given something that is no truth value. -/
  | notBoolean (value name : Bytes)
  deriving DecidableEq, Repr, Inhabited

/-- The wording of a fault. -/
def OptionFault.message : OptionFault → Bytes
  | undefined name => text "flag provided but not defined: -" ++ name
  | noArgument name => text "flag needs an argument: -" ++ name
  | badForm argument => text "bad flag syntax: " ++ argument
  | notBoolean value name =>
    text "invalid boolean value " ++ quote value ++ text " for -" ++ name ++ text ": parse error"

namespace Options

/-- How a switch is set. -/
def switch? (name : Bytes) : Option (Bool → Options → Options) :=
  if name = text "help" || name = text "h" then some fun value o => { o with help := value }
  else if name = text "version" || name = text "v" then some fun value o =>
    { o with version := value }
  else none

/-- How an option with a text is set. -/
def setter? (name : Bytes) : Option (Bytes → Options → Options) :=
  if name = text "root" then some fun value o => { o with root := value }
  else if name = text "config" then some fun value o => { o with settings := value }
  else if name = text "debug-ast" then some fun value o => { o with dump := value }
  else if name = text "log-level" then some fun value o => { o with logLevel := value }
  else if name = text "log-file" then some fun value o => { o with logFile := value }
  else none

/-- The truth value of a word. -/
def boolean? (word : Bytes) : Option Bool :=
  if (["1", "t", "T", "true", "TRUE", "True"].map text).elem word then some true
  else if (["0", "f", "F", "false", "FALSE", "False"].map text).elem word then some false
  else none

/-- The name of an option and the value after its first equals sign. A name has at least one
byte. -/
def divide (body : Bytes) : Bytes × Option Bytes :=
  match body with
  | [] => ([], none)
  | b :: rest =>
    match Bytes.cut 0x3D rest with
    | some (name, value) => (b :: name, some value)
    | none => (body, none)

/-- What stands after the dashes of an argument that is an option; two dashes alone leave
nothing. -/
def body? (argument : Bytes) : Option Bytes :=
  match argument with
  | 0x2D :: 0x2D :: body => some body
  | 0x2D :: b :: body => some (b :: body)
  | _ => none

/-- Reads options over others, and gives the arguments that follow them. -/
def readOver (o : Options) : List Bytes → Except OptionFault (Options × List Bytes)
  | [] => .ok (o, [])
  | argument :: rest =>
    if argument = text "--" then .ok (o, rest)
    else
      match body? argument with
      | none => .ok (o, argument :: rest)
      | some body =>
        if body = [] || body.head? = some 0x2D || body.head? =
          some 0x3D then .error (.badForm argument)
        else
          let (name, value) := divide body
          match switch? name, setter? name, value with
          | some set, _, none => readOver (set true o) rest
          | some set, _, some word =>
            match boolean? word with
            | some b => readOver (set b o) rest
            | none => .error (.notBoolean word name)
          | none, some set, some word => readOver (set word o) rest
          | none, some set, none =>
            match rest with
            | word :: rest => readOver (set word o) rest
            | [] => .error (.noArgument name)
          | none, none, _ => .error (.undefined name)

/-- Reads the options of a command line, and gives the arguments that follow them. -/
def read (arguments : List Bytes) : Except OptionFault (Options × List Bytes) :=
  readOver {} arguments

end Options

end Rill
