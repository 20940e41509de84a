/-! Indented lines of generated code.

Code is a list of steps; writing them in order gives the text.
-/

set_option autoImplicit false

namespace HeaderMeta

inductive CodeStep where
  | line (text : String)
  | openBlock
  | closeBlock
  deriving DecidableEq, Repr

structure CodeWriter where
  text : String := ""
  depth : Nat := 0
  deriving Repr

namespace CodeWriter

def indentation (depth : Nat) : String :=
  String.ofList (List.replicate (4 * depth) ' ')

/-- An empty line is not indented. -/
def line (w : CodeWriter) (text : String) : CodeWriter :=
  let shown := if text = "" then "" else indentation w.depth ++ text
  { w with text := w.text ++ shown ++ "\n" }

def write (w : CodeWriter) : CodeStep → CodeWriter
  | .line text => w.line text
  | .openBlock => { w.line "\x7b" with depth := w.depth + 1 }
  | .closeBlock => { w with depth := w.depth - 1 }.line "\x7d"

end CodeWriter

abbrev Code := List CodeStep

namespace Code

def block (head : String) (body : Code) : Code :=
  .line head :: .openBlock :: body ++ [.closeBlock]

def braces (body : Code) : Code :=
  .openBlock :: body ++ [.closeBlock]

def text (code : Code) : String :=
  (code.foldl CodeWriter.write {}).text

end Code

end HeaderMeta
