import HeaderMeta.Declaration
import HeaderMeta.Diagnostic
import HeaderMeta.Header.Tokens
import HeaderMeta.Text.Blank

/-! The state of reading one header: its text, the tokens left and the diagnostics so far.

Going back to an earlier place keeps the diagnostics.
-/

set_option autoImplicit false

namespace HeaderMeta

/-- A header text and the path it goes by. -/
structure Source where
  path : Path
  text : String
  deriving Repr

namespace Source

def dropBytes : (n : Nat) → List Char → List Char
  | 0, cs => cs
  | _, [] => []
  | n + 1, c :: cs => dropBytes (n + 1 - c.utf8Size) cs

def takeBytes : (n : Nat) → List Char → List Char
  | 0, _ => []
  | _, [] => []
  | n + 1, c :: cs => c :: takeBytes (n + 1 - c.utf8Size) cs

def slice (s : Source) (start stop : Nat) : List Char :=
  takeBytes (stop - start) (dropBytes start s.text.toList)

end Source

structure Cursor where
  source : Source
  rest : Tokens
  issues : List Diagnostic := []

namespace Cursor

def peek (c : Cursor) : Token :=
  c.rest.peek

def here (c : Cursor) : Span :=
  c.rest.here

def goto (c : Cursor) (rest : Tokens) : Cursor :=
  { c with rest }

def advance (c : Cursor) : Cursor :=
  c.goto c.rest.advance

def skipDeclaration (c : Cursor) : Cursor :=
  c.goto c.rest.skipDeclaration

def eat (c : Cursor) (m : Mark) : Bool × Cursor :=
  let (eaten, rest) := c.rest.eat m
  (eaten, c.goto rest)

def report (c : Cursor) (severity : Severity) (message : String) (span : Span) : Cursor :=
  { c with issues := c.issues ++ [{ severity, message, path := c.source.path, span }] }

def warn (c : Cursor) (message : String) (span : Span) : Cursor :=
  c.report .warning message span

def fail (c : Cursor) (message : String) (span : Span) : Cursor :=
  c.report .error message span

def finishDeclaration (c : Cursor) : Cursor :=
  match c.eat .semicolon with
  | (true, c) => c
  | (false, c) => c.skipDeclaration

@[simp] theorem rest_goto (c : Cursor) (rest : Tokens) : (c.goto rest).rest = rest := rfl

@[simp] theorem rest_report (c : Cursor) (severity : Severity) (message : String) (span : Span) :
    (c.report severity message span).rest = c.rest := rfl

end Cursor

end HeaderMeta
