import HeaderMeta.Path
import HeaderMeta.Token

/-! Messages attached to a place in a header. -/

set_option autoImplicit false

namespace HeaderMeta

inductive Severity where
  | info | warning | error
  deriving DecidableEq, Repr, Inhabited

def Severity.name : Severity → String
  | info => "info"
  | warning => "warning"
  | error => "error"

structure Diagnostic where
  severity : Severity
  message : String
  path : Path
  span : Span
  notes : List String := []
  deriving DecidableEq, Repr

namespace Diagnostic

def isError (d : Diagnostic) : Bool :=
  d.severity == .error

def downgrade (d : Diagnostic) : Diagnostic :=
  match d.severity with
  | .error => { d with severity := .warning }
  | _ => d

theorem isError_downgrade (d : Diagnostic) : d.downgrade.isError = false := by
  cases h : d.severity <;> simp [downgrade, isError, h]

def line (d : Diagnostic) : String :=
  d.path.text ++ ":" ++ toString d.span.line ++ ":" ++ toString d.span.column ++ ": " ++
    d.severity.name ++ ": " ++ d.message

end Diagnostic

end HeaderMeta
