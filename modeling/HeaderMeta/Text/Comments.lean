/-! Header text without its comments.

A block comment becomes one space, line feeds stay, and literals are left as they are. An apostrophe
after a letter or digit separates digits and opens no literal.
-/

set_option autoImplicit false

namespace HeaderMeta.Text

/-- Where in a text the next character stands. -/
inductive CommentState where
  | code
  | lineComment
  | blockComment
  | literal (quote : Char)
  deriving DecidableEq, Repr

/-- Strip from a state on; `previous` is the character read last. -/
def stripFrom : CommentState → (previous : Char) → List Char → List Char
  | _, _, [] => []
  | .code, _, '/' :: '/' :: cs => stripFrom .lineComment '/' cs
  | .code, _, '/' :: '*' :: cs => ' ' :: stripFrom .blockComment '/' cs
  | .code, previous, c :: cs =>
    if c = '"' || (c = '\'' && !previous.isAlphanum) then c :: stripFrom (.literal c) c cs
    else c :: stripFrom .code c cs
  | .lineComment, _, c :: cs =>
    if c = '\n' then c :: stripFrom .code c cs else stripFrom .lineComment c cs
  | .blockComment, _, '*' :: '/' :: cs => stripFrom .code '*' cs
  | .blockComment, _, c :: cs =>
    if c = '\n' then c :: stripFrom .blockComment c cs else stripFrom .blockComment c cs
  | .literal quote, _, '\\' :: c :: cs => '\\' :: c :: stripFrom (.literal quote) '\\' cs
  | .literal quote, _, c :: cs =>
    if c = quote || c = '\n' then c :: stripFrom .code c cs
    else c :: stripFrom (.literal quote) c cs

def stripComments (s : String) : String :=
  String.ofList (stripFrom .code '\x00' s.toList)

end HeaderMeta.Text
