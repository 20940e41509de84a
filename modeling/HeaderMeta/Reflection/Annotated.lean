import HeaderMeta.Declaration
import HeaderMeta.Pattern
import HeaderMeta.Text.Comments

/-! Annotations as they stand in the text of a header.

An attribute counts for a type when the comment-free text shows it between the record key and the
name of the type, with the body or base clause after the name.
-/

set_option autoImplicit false

namespace HeaderMeta

namespace Annotated

open Pattern

def inBrackets : Pattern :=
  star (set (.noneOf [']']))

/-- Nothing, or bracketed text that ends with a comma or blank. -/
def leadIn : Pattern :=
  optional (seq inBrackets (set (.union (.one ',') .blank)))

def scopePattern (scope : String) : Pattern :=
  let parts := (scope.splitOn "::").map fun part => text (Text.trim part)
  seqs (parts.intersperse (seqs [blanks, text "::", blanks]))

def listPattern (a : Attribute) : Pattern :=
  let name := seq (text a.name) boundary
  let named :=
    match a.scope with
    | none => seq leadIn name
    | some scope =>
      let scope := scopePattern scope
      alt (seqs [leadIn, scope, blanks, text "::", blanks, name])
        (seqs [blanks, text "using", plus (set .blank), scope, blanks, char ':', inBrackets,
          boundary, name])
  seqs [text "[[", named, inBrackets, text "]]"]

def anyList : Pattern :=
  seqs [text "[[", inBrackets, text "]]"]

def upperStart : CharSet :=
  .union (.range 'A' 'Z') (.one '_')

def letterStart : CharSet :=
  .union upperStart (.range 'a' 'z')

def macroName : Pattern :=
  seqs [set upperStart, star (set (.union upperStart (.range '0' '9'))), plus (set .blank)]

def wordName : Pattern :=
  seqs [set letterStart, star (set .word), plus (set .blank)]

def alignment : Pattern :=
  seqs [text "alignas", blanks, char '(', star (set (.noneOf [')'])), char ')', blanks]

/-- The head of a definition of `type` that carries the attribute, up to its opening brace. -/
def headPattern (key type : String) (a : Attribute) : Pattern :=
  seqs [boundary, text key, boundary, blanks, star macroName, star (seq anyList blanks),
    listPattern a, star (seq blanks anyList), blanks, optional alignment, star wordName, text type,
    boundary, blanks, optional (seqs [text "final", boundary, blanks]),
    optional (seq (char ':') (star (set (.noneOf ['\x7b', ';'])))), char '\x7b']

def shownIn (key type : String) (a : Attribute) (stripped : String) : Bool :=
  (headPattern key type a).search stripped.toList

end Annotated

end HeaderMeta
