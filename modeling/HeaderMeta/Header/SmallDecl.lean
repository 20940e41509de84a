import HeaderMeta.Header.AttributeList
import HeaderMeta.Header.Declarator

/-! Enumerations and alias declarations. -/

set_option autoImplicit false

namespace HeaderMeta

namespace Tokens

def skipUnderlying : Tokens → Tokens
  | [] => []
  | t :: ts =>
    match t.token with
    | .mark .openBrace | .mark .semicolon | .mark .closeBrace | .eof => t :: ts
    | _ => skipUnderlying ts

end Tokens

namespace Cursor

/-- Read an enumeration at its keyword. When the keyword only names a type in use, nothing is read
and the place does not change. -/
def enumeration (namespaces enclosing : List String) (c : Cursor) : Option EnumDecl × Cursor :=
  let start := c
  let span := c.here
  let c := c.advance
  let isScoped := c.peek == .word "class" || c.peek == .word "struct"
  let c := if isScoped then c.advance else c
  let (_, c) := c.attributeSpecifiers
  let (parts, rest) := c.rest.qualifiedName
  let name := parts.getLast?.getD ""
  let rest := if rest.atMark .colon then Tokens.skipUnderlying rest else rest
  let decl : EnumDecl := { name, namespaces, enclosing, isScoped, span }
  if rest.atMark .openBrace then (some decl, c.goto (Tokens.skipGroup rest))
  else if rest.atMark .semicolon && name != "" then (some decl, c.goto rest)
  else (none, c.goto start.rest)

/-- Read an alias declaration at the word `using`. Anything else that starts with it is skipped, and
so are function types. -/
def usingAlias (scope : List String) (c : Cursor) : Option AliasDecl × Cursor :=
  match c.rest.peekAt 1, c.rest.peekAt 2 with
  | .word name, .mark .equal =>
    let span := c.rest.advance.here
    match c.rest.advance.advance.advance.takeStatement with
    | .error rest => (none, c.goto rest)
    | .ok statement =>
      let (type, kind) := stripIndirection statement.body
      let target : TypeRef := { spelling := spell type, kind }
      if statement.body.any (·.token == .mark .openParen) || target.spelling = "" then
        (none, c.goto statement.rest)
      else (some { name, scope, target, span }, c.goto statement.rest)
  | _, _ => (none, c.skipDeclaration)

end Cursor

end HeaderMeta
