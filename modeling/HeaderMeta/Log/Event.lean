import HeaderMeta.Log.Level
import HeaderMeta.Text.Affix

/-! What a run reports while it goes on.

Work returns its events in order. A line shows the module at work only when the filter would let an
event of weight `info` pass.
-/

set_option autoImplicit false

namespace HeaderMeta

structure Event where
  level : EventLevel
  message : String
  /-- Named values after the message. -/
  fields : List (String × String) := []
  /-- Kept from the console. -/
  hidden : Bool := false
  /-- The module at work. -/
  module? : Option String := none
  deriving DecidableEq, Repr

abbrev Log := List Event

namespace Event

def trace (message : String) : Event := { level := .trace, message }

def debug (message : String) : Event := { level := .debug, message }

def info (message : String) : Event := { level := .info, message }

def warn (message : String) : Event := { level := .warn, message }

def error (message : String) : Event := { level := .error, message }

def inModule (name : String) (e : Event) : Event :=
  { e with module? := some name }

def hex (n : Nat) : String :=
  String.ofList (Nat.toDigits 16 n)

/-- Characters that a terminal obeys are spelled out. -/
def shown (c : Char) : String :=
  if c = '\x1b' then "\\x1b"
  else if c = '\x07' then "\\x07"
  else if c = '\x08' then "\\x08"
  else if c = '\x0c' then "\\x0c"
  else if c = '\x7f' then "\\x7f"
  else if 0x80 ≤ c.toNat && c.toNat ≤ 0x9f then "\\u\x7b" ++ hex c.toNat ++ "\x7d"
  else c.toString

def text (s : String) : String :=
  String.join (s.toList.map shown)

def line (filter : EventFilter) (e : Event) : String :=
  let place :=
    match e.module? with
    | some name => if filter.passes .info then "module\x7bname=" ++ name ++ "\x7d: " else ""
    | none => ""
  let fields := e.fields.map fun f => " " ++ f.1 ++ "=" ++ f.2
  e.level.label ++ " " ++ place ++ text e.message ++ String.join fields ++ "\n"

end Event

namespace Log

def inModule (name : String) (log : Log) : Log :=
  log.map (Event.inModule name)

def lines (filter : EventFilter) (log : Log) : String :=
  String.join ((log.filter fun e => filter.passes e.level).map (Event.line filter))

def captured (verbosity : Verbosity) (log : Log) : String :=
  log.lines verbosity.capture

/-- What goes to standard output: all that the console shows, except errors. -/
def toStdout (verbosity : Verbosity) (log : Log) : String :=
  lines verbosity.console (log.filter fun e => !e.hidden && e.level != .error)

def toStderr (verbosity : Verbosity) (log : Log) : String :=
  lines verbosity.console (log.filter fun e => !e.hidden && e.level == .error)

end Log

end HeaderMeta
