/-! How much of a run is reported. -/

set_option autoImplicit false

namespace HeaderMeta

inductive EventLevel where
  | trace | debug | info | warn | error
  deriving DecidableEq, Repr, Inhabited

namespace EventLevel

def rank : EventLevel → Nat
  | trace => 0
  | debug => 1
  | info => 2
  | warn => 3
  | error => 4

def label : EventLevel → String
  | trace => "TRACE"
  | debug => "DEBUG"
  | info => " INFO"
  | warn => " WARN"
  | error => "ERROR"

end EventLevel

/-- The lightest events that pass; `none` lets nothing pass. -/
abbrev EventFilter := Option EventLevel

namespace EventFilter

def passes (f : EventFilter) (level : EventLevel) : Bool :=
  f.any fun least => least.rank ≤ level.rank

def name : EventFilter → String
  | some .trace => "trace"
  | some .debug => "debug"
  | some .info => "info"
  | some .warn => "warn"
  | some .error => "error"
  | none => "off"

end EventFilter

inductive Verbosity where
  | trace | debug | info | warn | error | fatal | silent
  deriving DecidableEq, Repr, Inhabited

namespace Verbosity

def ofNumber (n : Int) : Verbosity :=
  if n ≤ 0 then trace
  else if n = 1 then debug
  else if n = 2 then info
  else if n = 3 then warn
  else if n = 4 then error
  else fatal

def name : Verbosity → String
  | trace => "Trace"
  | debug => "Debug"
  | info => "Info"
  | warn => "Warn"
  | error => "Error"
  | fatal => "Fatal"
  | silent => "Silent"

def console : Verbosity → EventFilter
  | trace => some .trace
  | debug => some .debug
  | info => some .info
  | warn => some .warn
  | error | fatal => some .error
  | silent => none

/-- What reaches the captured log: a silent run still captures errors. -/
def capture : Verbosity → EventFilter
  | silent => some .error
  | v => v.console

end Verbosity

end HeaderMeta
