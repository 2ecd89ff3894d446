import Rill.Session
import Rill.Text.Paint

/-!
# The console

A console reads a line, evaluates it and prints what it comes to, over and over in one scope, so
that bindings last from line to line. `Console.lines` cuts an input into the lines that a console
reads, and `Console.answer` deals with one of them.
-/

namespace Rill

/-- A console. -/
structure Console where
  /-- What evaluates the lines. -/
  interpreter : Interpreter
  /-- What is shown before a line is read. -/
  prompt : Bytes
  /-- Whether messages are coloured. -/
  colored : Bool

namespace Console

/-- The prompt when none is asked for. -/
def defaultPrompt : Bytes := text ">> "

/-- The length from which a line is too long to be read. -/
def lineLimit : Nat := 65536

/-- A line without the carriage return at its end. -/
def dropReturn (line : Bytes) : Bytes :=
  if line.getLast? = some 0x0D then line.dropLast else line

/-- The lines of an input. The last one need not be ended, and a line that is too long ends the
input. -/
def lines (input : Bytes) : List Bytes :=
  let pieces := Bytes.splitOn 0x0A input
  let ended := if pieces.getLast? = some [] then pieces.dropLast else pieces
  (ended.takeWhile fun line => line.length < lineLimit).map dropReturn

/-- Shows the prompt. -/
def ask (c : Console) : Run Unit := Run.print (if c.prompt = [] then defaultPrompt else c.prompt)

/-- Evaluates a line and prints what it comes to; null is not shown. -/
def answer (c : Console) (line : Bytes) : Run Unit := do
  match ← c.interpreter.evalText World.globalScope line with
  | .error found =>
    Run.print (Paint.headingLine c.colored (text "parser errors:"))
    for d in found do
      Run.print (Paint.alarm c.colored (text "\t" ++ d.render line ++ text "\n"))
  | .ok (.error fault) =>
    Run.print (Paint.alarm c.colored (text "error: " ++ fault.message ++ text "\n"))
  | .ok .null => return
  | .ok value =>
    Run.print (← Run.inspect value)
    Run.print (text "\n")

/-- Answers all lines of an input. -/
def converse (c : Console) (input : Bytes) : Run Unit := do
  c.ask
  for line in lines input do
    c.answer line
    c.ask

end Console

end Rill
