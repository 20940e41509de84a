import HeaderMeta.Token

/-! Header text cut into lexemes.

Every character of the text belongs to exactly one lexeme, blanks, comments and directives
included. `extent` decides the kind of the next lexeme and how many characters it takes beyond its
first; the cut itself loses nothing (`flatten_cut`).
-/

set_option autoImplicit false

namespace HeaderMeta

inductive LexemeKind where
  | blank
  | lineComment
  | blockComment (closed : Bool)
  | directive
  | word
  | number
  | stringLit (closed : Bool)
  | charLit
  | mark (m : Mark)
  | symbol
  /-- Text that starts no lexeme. -/
  | stray
  deriving DecidableEq, Repr

structure Lexeme where
  kind : LexemeKind
  text : List Char
  deriving DecidableEq, Repr

namespace Lexeme

def isSpace (c : Char) : Bool :=
  c == ' ' || c == '\t' || c == '\r' || c == '\n' || c == '\x0c' || c == '\x0b'

def isWordStart (c : Char) : Bool :=
  c.isAlpha || c == '_'

def isWordPart (c : Char) : Bool :=
  c.isAlphanum || c == '_'

def isNumberPart (c : Char) : Bool :=
  isWordPart c || c == '.' || c == '\''

def isSymbol (c : Char) : Bool :=
  ['+', '-', '/', '%', '^', '|', '!', '?', '@', '$', '\'', '\\'].contains c

def lengthWhile (p : Char → Bool) (cs : List Char) : Nat :=
  (cs.takeWhile p).length

/-- Length of a comment body up to and including its closing mark, or up to the end of the text. -/
def commentBody : List Char → Nat × Bool
  | [] => (0, false)
  | '*' :: '/' :: _ => (2, true)
  | _ :: cs => let (n, closed) := commentBody cs; (n + 1, closed)

/-- Length of a string body up to and including the closing quote. A line feed that no backslash
precedes ends the body unclosed and is not part of it. -/
def stringBody : List Char → Nat × Bool
  | [] => (0, false)
  | '"' :: _ => (1, true)
  | '\n' :: _ => (0, false)
  | '\\' :: _ :: cs => let (n, closed) := stringBody cs; (n + 2, closed)
  | _ :: cs => let (n, closed) := stringBody cs; (n + 1, closed)

/-- Length of a directive beyond its `#`. A backslash carries it over the end of a line; one that ends
the text belongs to it too. -/
def directiveBody : List Char → Nat
  | [] => 0
  | '\n' :: _ => 0
  | ['\\'] => 1
  | '\\' :: '\r' :: '\n' :: cs => directiveBody cs + 3
  | '\\' :: _ :: cs => directiveBody cs + 2
  | _ :: cs => directiveBody cs + 1

def charBody : List Char → Nat
  | [] => 0
  | '\\' :: c :: cs => if c = '\n' then 0 else charBody cs + 2
  | c :: cs => if c = '\'' || c = '\\' || c = '\n' then 0 else charBody cs + 1

/-- A string literal whose opening quote stands after `skipped` further characters of `cs`. -/
def stringExtent (skipped : Nat) (cs : List Char) : LexemeKind × Nat :=
  let (n, closed) := stringBody (cs.drop skipped)
  (.stringLit closed, skipped + n)

def charExtent (cs : List Char) : LexemeKind × Nat :=
  match charBody cs with
  | 0 => (.symbol, 0)
  | n + 1 => if (cs.drop (n + 1)).head? = some '\'' then (.charLit, n + 2) else (.stray, n + 1)

def punctuationExtent (c : Char) (cs : List Char) : LexemeKind × Nat :=
  match c, cs with
  | ':', ':' :: _ => (.mark .colonColon, 1)
  | ':', _ => (.mark .colon, 0)
  | ';', _ => (.mark .semicolon, 0)
  | ',', _ => (.mark .comma, 0)
  | '{', _ => (.mark .openBrace, 0)
  | '}', _ => (.mark .closeBrace, 0)
  | '(', _ => (.mark .openParen, 0)
  | ')', _ => (.mark .closeParen, 0)
  | '[', _ => (.mark .openBracket, 0)
  | ']', _ => (.mark .closeBracket, 0)
  | '<', _ => (.mark .less, 0)
  | '>', _ => (.mark .greater, 0)
  | '*', _ => (.mark .star, 0)
  | '&', '&' :: _ => (.mark .ampAmp, 1)
  | '&', _ => (.mark .amp, 0)
  | '=', _ => (.mark .equal, 0)
  | '~', _ => (.mark .tilde, 0)
  | '-', '>' :: _ => (.mark .arrow, 1)
  | '.', '.' :: '.' :: _ => (.mark .ellipsis, 2)
  | '.', _ => (.mark .dot, 0)
  | c, _ => if isSymbol c then (.symbol, 0) else (.stray, 0)

/-- The kind of the lexeme that starts with `c`, and how many characters of `cs` it takes. -/
def extent (c : Char) (cs : List Char) : LexemeKind × Nat :=
  if isSpace c then (.blank, lengthWhile isSpace cs)
  else
    match c, cs with
    | '/', '/' :: rest => (.lineComment, lengthWhile (· != '\n') rest + 1)
    | '/', '*' :: rest => let (n, closed) := commentBody rest; (.blockComment closed, n + 1)
    | '#', cs => (.directive, directiveBody cs)
    | '"', cs => stringExtent 0 cs
    | '\'', cs => charExtent cs
    | 'u', '8' :: '"' :: _ => stringExtent 2 cs
    | 'u', '"' :: _ => stringExtent 1 cs
    | 'U', '"' :: _ => stringExtent 1 cs
    | 'L', '"' :: _ => stringExtent 1 cs
    | c, cs =>
      if isWordStart c then (.word, lengthWhile isWordPart cs)
      else if c.isDigit then (.number, lengthWhile isNumberPart cs)
      else punctuationExtent c cs

def cut : List Char → List Lexeme
  | [] => []
  | c :: cs =>
    let (kind, n) := extent c cs
    ⟨kind, c :: cs.take n⟩ :: cut (cs.drop n)
termination_by cs => cs.length
decreasing_by
  simp only [List.length_drop, List.length_cons]
  omega

/-- No character is lost, added or moved. -/
theorem flatten_cut (cs : List Char) : (cut cs).flatMap Lexeme.text = cs := by
  fun_induction cut cs with
  | case1 => rfl
  | case2 c cs kind n h ih => simp [ih]

theorem text_ne_nil_of_mem_cut {cs : List Char} {x : Lexeme} (h : x ∈ cut cs) : x.text ≠ [] := by
  fun_induction cut cs with
  | case1 => simp at h
  | case2 c cs kind n _ ih =>
    rcases List.mem_cons.1 h with rfl | h
    · simp
    · exact ih h

end Lexeme

end HeaderMeta
