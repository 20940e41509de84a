/-! Tokens of a header and the places they stand at.

Keywords are ordinary words: declarations are recognised by comparing word text, so contextual
words and macros need no token of their own.
-/

set_option autoImplicit false

namespace HeaderMeta

/-- A byte range of a source text with the line and column of its first byte, both counted from
one in machine words, which start over when they are full. Columns count characters. The all-zero span
stands for no place at all. -/
structure Span where
  start : Nat := 0
  stop : Nat := 0
  line : UInt32 := 0
  column : UInt32 := 0
  deriving DecidableEq, Repr, Inhabited

/-- A place between two characters of a source text. -/
structure Position where
  offset : Nat
  line : UInt32
  column : UInt32
  deriving DecidableEq, Repr, Inhabited

namespace Position

def start : Position := ⟨0, 1, 1⟩

def next (p : Position) (c : Char) : Position :=
  if c = '\n' then ⟨p.offset + c.utf8Size, p.line + 1, 1⟩
  else ⟨p.offset + c.utf8Size, p.line, p.column + 1⟩

def after (p : Position) (cs : List Char) : Position :=
  cs.foldl next p

def spanOf (p : Position) (cs : List Char) : Span :=
  ⟨p.offset, (p.after cs).offset, p.line, p.column⟩

@[simp] theorem after_nil (p : Position) : p.after [] = p := rfl

@[simp] theorem after_append (p : Position) (cs ds : List Char) :
    p.after (cs ++ ds) = (p.after cs).after ds := by
  simp [after]

end Position

inductive Mark where
  | colonColon | colon | semicolon | comma
  | openBrace | closeBrace | openParen | closeParen | openBracket | closeBracket
  | less | greater | star | amp | ampAmp | equal | tilde | arrow | ellipsis | dot
  deriving DecidableEq, Repr, Inhabited

def Mark.spelling : Mark → String
  | colonColon => "::"
  | colon => ":"
  | semicolon => ";"
  | comma => ","
  | openBrace => "\x7b"
  | closeBrace => "\x7d"
  | openParen => "("
  | closeParen => ")"
  | openBracket => "["
  | closeBracket => "]"
  | less => "<"
  | greater => ">"
  | star => "*"
  | amp => "&"
  | ampAmp => "&&"
  | equal => "="
  | tilde => "~"
  | arrow => "->"
  | ellipsis => "..."
  | dot => "."

inductive Token where
  /-- An identifier or keyword. -/
  | word (text : String)
  /-- A numeric literal, verbatim. -/
  | number (text : String)
  /-- A string literal with its quotes and encoding mark. -/
  | stringLit (text : String)
  /-- A character literal with its quotes. -/
  | charLit (text : String)
  | mark (m : Mark)
  /-- Any other single punctuation character. -/
  | symbol (c : Char)
  /-- The end of the file. -/
  | eof
  deriving DecidableEq, Repr, Inhabited

namespace Token

def word? : Token → Option String
  | word text => some text
  | _ => none

def isWord (t : Token) : Bool :=
  t.word?.isSome

def spelling : Token → String
  | word text | number text | stringLit text | charLit text => text
  | mark m => m.spelling
  | symbol c => String.singleton c
  | eof => "end of file"

/-- Words and numbers run together when written side by side. -/
def isWordlike : Token → Bool
  | word _ | number _ => true
  | _ => false

def needsSpaceBefore (t next : Token) : Bool :=
  t.isWordlike && next.isWordlike

end Token

structure Placed where
  token : Token
  span : Span
  deriving DecidableEq, Repr, Inhabited

end HeaderMeta
