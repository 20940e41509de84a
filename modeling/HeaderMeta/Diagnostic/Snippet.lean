import HeaderMeta.Diagnostic
import HeaderMeta.Header.Cursor
import HeaderMeta.Text.Blank
import HeaderMeta.Text.Width

/-! Diagnostics shown with the source lines they point at.

A span within one line is underlined with carets. A span over several lines is drawn as a bracket
left of its first, marked and last lines; long spans show only some lines next to the ends.
-/

set_option autoImplicit false

namespace HeaderMeta.Snippet

structure Line where
  start : Nat
  text : List Char
  deriving Repr

def byteLength (cs : List Char) : Nat :=
  cs.foldl (fun n c => n + c.utf8Size) 0

/-- Cut a text after each line feed. `current` is the open line, last character first. -/
def linesFrom (start : Nat) (current : List Char) : List Char → List Line
  | [] => [⟨start, current.reverse⟩]
  | c :: cs =>
    if c = '\n' then
      ⟨start, (c :: current).reverse⟩ :: linesFrom (start + byteLength (c :: current)) [] cs
    else linesFrom start (c :: current) cs

def lines (text : String) : List Line :=
  linesFrom 0 [] text.toList

def lineIndex (ls : List Line) (byte : Nat) : Nat :=
  ls.countP (·.start ≤ byte) - 1

def lineAt (ls : List Line) (index : Nat) : Line :=
  ls.getD index ⟨0, []⟩

/-- How many characters end at or before byte `limit`, the first one starting at `start`. -/
def charsUpTo (limit start : Nat) : List Char → Nat
  | [] => 0
  | c :: cs =>
    if start + c.utf8Size ≤ limit then 1 + charsUpTo limit (start + c.utf8Size) cs else 0

def columnOf (l : Line) (byte : Nat) : Nat :=
  charsUpTo byte l.start l.text + 1

def visible (l : Line) : List Char :=
  (l.text.reverse.dropWhile fun c => c == '\n' || c == '\r' || c == '\x00').reverse

/-- A character with the byte it starts at, within its line, and the columns it takes. -/
structure Cell where
  byte : Nat
  width : Nat
  char : Char

/-- Lay out characters from a byte and column on. A tab runs to the next multiple of four. -/
def cellsFrom (byte column : Nat) : List Char → List Cell
  | [] => []
  | c :: cs =>
    let width := if c = '\t' then 4 - column % 4 else Text.width c
    ⟨byte, width, c⟩ :: cellsFrom (byte + c.utf8Size) (column + width) cs

def cells (cs : List Char) : List Cell :=
  cellsFrom 0 0 cs

def times (n : Nat) (c : Char) : String :=
  String.ofList (List.replicate n c)

def shown (cs : List Char) : String :=
  String.join ((cells cs).map fun cell =>
    if cell.char = '\t' then times cell.width ' ' else String.singleton cell.char)

def gutter (padding : Nat) (number : String) : String :=
  times (padding - number.length) ' ' ++ number ++ " "

def overlaps (start stop byte size : Nat) : Bool :=
  max start byte < min stop (byte + size)

/-- Carets under the bytes `start` to `stop` of a line, with blanks before them. The place after the
last character counts as one column. -/
def underline (cs : List Char) (start stop : Nat) : String :=
  let all := cells cs ++ [⟨byteLength cs, 1, '\x00'⟩]
  String.join (all.map fun cell =>
    if overlaps start stop cell.byte cell.char.utf8Size then times cell.width '^'
    else if cell.byte < stop then times cell.width ' '
    else "")

/-- How a line takes part in a span over several lines. -/
inductive Bracket where
  | top (start : Nat)
  | left
  | bottom (stop : Nat)
  /-- Between the ends of a span that stops before it starts. -/
  | outside
  deriving DecidableEq, Repr

/-- Whether a bracket can start in front of the line, for want of text before it. -/
def startsInFront (cs : List Char) (start : Nat) : Bool :=
  start ≤ byteLength (cs.takeWhile Text.isBlank)

def columnsBefore (cs : List Char) (limit : Nat) : Nat :=
  ((cells cs).takeWhile (·.byte < limit)).foldl (fun n cell => n + cell.width) 0

/-- A line of a bracketed span, and the line that draws its end if it needs one. -/
def bracketLine (padding index : Nat) (l : Line) (b : Bracket) : String :=
  let cs := visible l
  let edge :=
    match b with
    | .top start => if startsInFront cs start then " ╭" else "  "
    | .left | .bottom _ => " │"
    | .outside => "  "
  let rule := gutter padding "" ++ "│"
  let foot :=
    match b with
    | .left | .outside => ""
    | .top start =>
      if startsInFront cs start then ""
      else rule ++ " ╭" ++ times (columnsBefore cs (start + 1)) '─' ++ "^\n"
    | .bottom stop => rule ++ " ╰" ++ times (columnsBefore cs stop) '─' ++ "^\n"
  gutter padding (toString (index + 1)) ++ "│" ++ edge ++ " " ++ shown cs ++ "\n" ++ foot

def bracketed (ls : List Line) (span : Span) (first last : Nat) : List (Nat × Bracket) :=
  let top := (first, Bracket.top (span.start - (lineAt ls first).start))
  let bottom := (last, Bracket.bottom (span.stop - (lineAt ls last).start))
  if first < last then
    top :: (List.range (last - first - 1)).map (fun i => (first + 1 + i, .left)) ++ [bottom]
  else [bottom, top]

def nearEnd (first last index : Nat) : Bool :=
  index - first ≤ 3 || last - index ≤ 1

def Bracket.after : Bracket → Bracket
  | top _ | left => left
  | bottom _ | outside => outside

/-- Draw lines in order. A single line left out between two others is drawn after all, several
become a break. -/
def drawBrackets (padding : Nat) (ls : List Line) : List (Nat × Bracket) → String
  | [] => ""
  | [(i, b)] => bracketLine padding i (lineAt ls i) b
  | (i, b) :: (j, b') :: rest =>
    let between :=
      if j = i + 1 then ""
      else if j = i + 2 then bracketLine padding (i + 1) (lineAt ls (i + 1)) b.after
      else
        let edge :=
          match b with
          | .top _ | .outside => "  "
          | .left | .bottom _ => " │"
        gutter padding "" ++ "·" ++ edge ++ "\n"
    bracketLine padding i (lineAt ls i) b ++ between ++ drawBrackets padding ls ((j, b') :: rest)

def noteLines (note : String) : List String :=
  let pieces := (Path.pieces '\n' note.toList)
  let pieces := if pieces.getLast? = some [] then pieces.dropLast else pieces
  let count := (note.toList.filter (· == '\n')).length
  pieces.zipIdx.map fun (cs, i) =>
    -- only a line that a line feed ends can lose its carriage return
    String.ofList (if i < count && cs.getLast? = some '\r' then cs.dropLast else cs)

def drawNote (padding : Nat) (note : String) : String :=
  String.join ((noteLines note).zipIdx.map fun (line, i) =>
    gutter padding "" ++ (if i = 0 then "=" else " ") ++ " " ++ line ++ "\n")

def severityName : Severity → String
  | .info => "note"
  | .warning => "warning"
  | .error => "error"

def draw (d : Diagnostic) (path : Path) (text : String) : String :=
  let ls := lines text
  let first := lineIndex ls d.span.start
  let last := lineIndex ls d.span.stop
  let padding := max (toString (first + 1)).length (toString (last + 1)).length
  let l := lineAt ls first
  let multi := first != last
  let rule := gutter padding "" ++ "│" ++ (if multi then "  " else "") ++ "\n"
  let body :=
    if multi then
      drawBrackets padding ls
        ((bracketed ls d.span first last).filter fun (i, b) => b != .left || nearEnd first last i)
    else
      let cs := visible l
      let start := d.span.start - l.start
      let stop := max (d.span.stop - l.start) (start + 1)
      gutter padding (toString (first + 1)) ++ "│ " ++ shown cs ++ "\n" ++
        gutter padding "" ++ "│ " ++ underline cs start stop ++ "\n"
  severityName d.severity ++ ": " ++ d.message ++ "\n" ++
    gutter padding "" ++ "┌─ " ++ path.text ++ ":" ++ toString (first + 1) ++ ":" ++
      toString (columnOf l d.span.start) ++ "\n" ++
    rule ++ body ++
    (if d.notes.isEmpty then "" else rule ++ String.join (d.notes.map (drawNote padding))) ++ "\n"

def sourceOf? (sources : List Source) (d : Diagnostic) : Option Source :=
  (sources.find? (·.path.same d.path)).filter fun s => d.span.stop ≤ byteLength s.text.toList

/-- How the file of `d` is shown: as the first of the drawn diagnostics in that file writes it. -/
def fileShown (drawn : List Diagnostic) (d : Diagnostic) : Path :=
  ((drawn.find? (·.path.same d.path)).map (·.path)).getD d.path

/-- Diagnostics with their source lines. One whose file is unknown, or whose span does not fit the
text, has its one-line form at the end instead. -/
def render (ds : List Diagnostic) (sources : List Source) : String :=
  let drawn := ds.filter fun d => (sourceOf? sources d).isSome
  let plain := ds.filter fun d => (sourceOf? sources d).isNone
  String.join (drawn.map fun d =>
      ((sourceOf? sources d).map fun s => draw d (fileShown drawn d) s.text).getD "") ++
    String.join (plain.map fun d => d.line ++ "\n")

end HeaderMeta.Snippet
