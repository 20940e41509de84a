import HeaderMeta.Text.Affix
import HeaderMeta.Text.Blank
import HeaderMeta.Token.Lexeme

/-! Tokens, include directives and lexical faults of a header text.

Each lexeme is placed by the text before it and then contributes to at most one of the three lists.
-/

set_option autoImplicit false

namespace HeaderMeta

/-- What is wrong with a stretch of header text. -/
inductive LexFault where
  | unexpected (found : Char)
  | unterminatedString
  | unterminatedComment
  deriving DecidableEq, Repr

namespace LexFault

def hexDigits (n : Nat) : String :=
  String.ofList (Nat.toDigits 16 n)

/-- A character as shown inside apostrophes: control characters, quotes, backslash and everything
outside ASCII are escaped. -/
def shown (c : Char) : String :=
  if c = '\t' then "\\t"
  else if c = '\r' then "\\r"
  else if c = '\n' then "\\n"
  else if c = '\'' then "\\'"
  else if c = '"' then "\\\""
  else if c = '\\' then "\\\\"
  else if 0x20 ≤ c.toNat ∧ c.toNat < 0x7f then String.singleton c
  else "\\u\x7b" ++ hexDigits c.toNat ++ "\x7d"

def message : LexFault → String
  | unexpected found => "Unexpected character '" ++ shown found ++ "'"
  | unterminatedString => "Unterminated string literal"
  | unterminatedComment => "Unterminated block comment"

def isFatal : LexFault → Bool
  | unexpected _ => false
  | unterminatedString | unterminatedComment => true

end LexFault

structure PlacedFault where
  fault : LexFault
  span : Span
  deriving DecidableEq, Repr

/-- An include directive: the text between its delimiters, and whether these were angle brackets. -/
structure Include where
  target : String
  angled : Bool
  span : Span
  deriving DecidableEq, Repr

namespace Include

def isDelimiter (c : Char) : Bool :=
  c == '>' || c == '"'

def ofDirective? (text : List Char) (span : Span) : Option Include := do
  let name ← Text.after? ['#'] text
  let rest ← Text.after? "include".toList (Text.trimStartChars name)
  match Text.trimStartChars rest with
  | [] => none
  | quote :: rest =>
    if quote != '<' && quote != '"' then none
    else
      let target := rest.takeWhile (! isDelimiter ·)
      if target.isEmpty || (rest.dropWhile (! isDelimiter ·)).isEmpty then none
      else some ⟨String.ofList (Text.trimChars target), quote == '<', span⟩

end Include

/-- Everything read off a header text before its declarations. The tokens end with the end of the
file. -/
structure Lexing where
  tokens : List Placed
  includes : List Include
  faults : List PlacedFault
  deriving Repr

namespace Lexing

def tokenOf (x : Lexeme) : Option Token :=
  let text := String.ofList x.text
  match x.kind with
  | .word => some (.word text)
  | .number => some (.number text)
  | .stringLit true => some (.stringLit text)
  | .charLit => some (.charLit text)
  | .mark m => some (.mark m)
  | .symbol => x.text.head?.map .symbol
  | _ => none

def faultOf (x : Lexeme) : Option LexFault :=
  match x.kind with
  | .blockComment false => some .unterminatedComment
  | .stringLit false => some .unterminatedString
  | .stray => x.text.head?.map .unexpected
  | _ => none

def includeOf (x : Lexeme) (span : Span) : Option Include :=
  match x.kind with
  | .directive => Include.ofDirective? x.text span
  | _ => none

def place (p : Position) : List Lexeme → Lexing
  | [] => ⟨[⟨.eof, p.spanOf []⟩], [], []⟩
  | x :: xs =>
    let span := p.spanOf x.text
    let rest := place (p.after x.text) xs
    { tokens := ((tokenOf x).map (⟨·, span⟩)).toList ++ rest.tokens
      includes := (includeOf x span).toList ++ rest.includes
      faults := ((faultOf x).map (⟨·, span⟩)).toList ++ rest.faults }

def ofChars (cs : List Char) : Lexing :=
  place .start (Lexeme.cut cs)

def ofText (source : String) : Lexing :=
  ofChars source.toList

end Lexing

end HeaderMeta
