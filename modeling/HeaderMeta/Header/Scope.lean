import HeaderMeta.Declaration.Namespace
import HeaderMeta.Header.Members
import HeaderMeta.Token.Scan

/-! Declarations of namespaces and of a whole header.

`declarations` reads a scope up to the brace that closes it. Its first argument is how many more
bodies may be opened. A limit ends the file; what was declared before it stays.
-/

set_option autoImplicit false

namespace HeaderMeta

/-- A namespace while its declarations are read. -/
structure ScopeState where
  ns : Namespace
  cursor : Cursor

/-- How the declarations inside braces are read: the kind of body, its scope, what it holds so far. -/
abbrev ScopeReader := (body : String) → (scope : List String) → ScopeState → ScopeState × Option Limit

namespace ScopeState

def skip (s : ScopeState) : ScopeState :=
  { s with cursor := s.cursor.skipDeclaration }

def addTypes (s : ScopeState) (types : List TypeDecl) : ScopeState :=
  { s with ns := { s.ns with types := s.ns.types ++ types } }

def addAliases (s : ScopeState) (aliases : List AliasDecl) : ScopeState :=
  { s with ns := { s.ns with aliases := s.ns.aliases ++ aliases } }

def record (body : BodyReader) (scope : List String) (isTemplate : Bool) (s : ScopeState) :
    Round ScopeState :=
  match s.cursor.record body scope [] isTemplate with
  | (.error limit, cursor) => .refused { s with cursor } limit
  | (.ok (.definition decl), cursor) =>
    let s := s.addTypes (if decl.name = "" then [] else [decl])
    .again { s with cursor := cursor.finishDeclaration }
  | (.ok .forward, cursor) => .again { s with cursor }
  | (.ok .notDefinition, cursor) => .again { s with cursor := cursor.skipDeclaration }

def close (message : String) (start : Span) (s : ScopeState) : ScopeState :=
  match s.cursor.eat .closeBrace with
  | (true, cursor) => { s with cursor }
  | (false, cursor) => { s with cursor := cursor.fail message start }

/-- Read a namespace at its keyword. Namespace aliases are skipped. -/
def openNamespace (inner : ScopeReader) (scope : List String) (s : ScopeState) :
    Round ScopeState :=
  let start := s.cursor.here
  let (_, c) := s.cursor.advance.attributeSpecifiers
  let (names, rest) := c.rest.qualifiedName
  let (_, c) := (c.goto rest).attributeSpecifiers
  if c.rest.atMark .openBrace then
    let (child, limit) := inner "namespace" (scope ++ names) ⟨s.ns.descend names, c.advance⟩
    let s : ScopeState := ⟨s.ns.graft names child.ns, child.cursor⟩
    match limit with
    | some limit => .refused s limit
    | none =>
      let label := if names.isEmpty then "<anonymous>" else joinScope names
      .again (s.close ("Unterminated namespace '" ++ label ++ "'") start)
  else .again { s with cursor := c.skipDeclaration }

/-- Read a linkage block at the word `extern`; its declarations belong to the scope around it. -/
def linkage (inner : ScopeReader) (scope : List String) (s : ScopeState) : Round ScopeState :=
  let start := s.cursor.here
  let c := s.cursor.advance.advance
  if c.rest.atMark .openBrace then
    match inner "linkage block" scope { s with cursor := c.advance } with
    | (s, some limit) => .refused s limit
    | (s, none) => .again (s.close "Unterminated linkage block" start)
  else .again { s with cursor := c.skipDeclaration }

def template (body : BodyReader) (scope : List String) (s : ScopeState) : Round ScopeState :=
  let s := { s with cursor := s.cursor.goto s.cursor.rest.advance.skipAngles }
  match s.cursor.rest.word?.bind RecordKey.ofWord? with
  | some _ => s.record body scope true
  | none => .again s.skip

def enumeration (scope : List String) (s : ScopeState) : ScopeState :=
  let (decl?, cursor) := s.cursor.enumeration scope []
  { ns := { s.ns with enums := s.ns.enums ++ decl?.toList }
    cursor := cursor.finishDeclaration }

def typedef (body : BodyReader) (scope : List String) (s : ScopeState) : Round ScopeState :=
  match s.cursor.typedef body scope [] with
  | (.error limit, cursor) => .refused { s with cursor } limit
  | (.ok outcome, cursor) =>
    .again (({ s with cursor }.addTypes outcome.types).addAliases outcome.aliases)

def usingDirective (scope : List String) (s : ScopeState) : ScopeState :=
  if s.cursor.rest.peekAt 1 == .word "namespace" then
    let (names, rest) := s.cursor.rest.advance.advance.qualifiedName
    let target := joinScope names
    { ns := if target = "" then s.ns else s.ns.addUsing target
      cursor := (s.cursor.goto rest).skipDeclaration }
  else
    let (alias?, cursor) := s.cursor.usingAlias scope
    { s with cursor }.addAliases alias?.toList

def wordRound (body : BodyReader) (inner : ScopeReader) (scope : List String) (word : String)
    (s : ScopeState) : Round ScopeState :=
  let next := s.cursor.rest.peekAt 1
  if word = "namespace" then s.openNamespace inner scope
  else if word = "inline" && next == .word "namespace" then
    .again { s with cursor := s.cursor.advance }
  else if word = "extern" && (next matches .stringLit _) then s.linkage inner scope
  else if word = "template" then s.template body scope
  else if (RecordKey.ofWord? word).isSome then s.record body scope false
  else if word = "enum" then .again (s.enumeration scope)
  else if word = "typedef" then s.typedef body scope
  else if word = "using" then .again (s.usingDirective scope)
  else .again s.skip

def round (body : BodyReader) (inner : ScopeReader) (scope : List String) (s : ScopeState) :
    Round ScopeState :=
  match s.cursor.peek with
  | .eof | .mark .closeBrace => .done s
  | .mark .semicolon => .again { s with cursor := s.cursor.advance }
  | .mark .openBracket | .mark .colonColon | .mark .tilde => .again s.skip
  | .word word => s.wordRound body inner scope word
  | other =>
    let message := "Skipped unexpected '" ++ other.spelling ++ "'"
    .again { s with cursor := s.cursor.warn message s.cursor.here }.skip

def position (s : ScopeState) : Nat :=
  s.cursor.rest.length

end ScopeState

def declarations : (room : Nat) → (scope : List String) → ScopeState → ScopeState × Option Limit
  | 0 => fun scope s =>
    Guard.loop "declarations" ScopeState.position
      (ScopeState.round (typeBody 0) (fun body _ s => (s, some (.depth body))) scope) s
  | room + 1 => fun scope s =>
    Guard.loop "declarations" ScopeState.position
      (ScopeState.round (typeBody (room + 1)) (fun _ => declarations room) scope) s

/-- Read declarations up to the end of the file or to a brace that closes nothing. -/
def fileRound (s : ScopeState) : Round ScopeState :=
  match declarations maxDepth [] s with
  | (s, some limit) => .refused s limit
  | (s, none) =>
    if s.cursor.peek == .eof then .done s
    else .again { s with cursor := (s.cursor.warn "Unmatched '\x7d'" s.cursor.here).advance }

/-- Everything read off one header. -/
structure Header where
  /-- The declarations, from the global namespace on. -/
  root : Namespace
  includes : List Include
  diagnostics : List Diagnostic

namespace Header

def faultDiagnostic (path : Path) (f : PlacedFault) : Diagnostic :=
  { severity := if f.fault.isFatal then .error else .warning
    message := f.fault.message, path, span := f.span }

/-- Read a header. Lexical faults are reported before all else. -/
def read (source : Source) : Header :=
  let lexing := Lexing.ofText source.text
  let cursor : Cursor :=
    { source, rest := lexing.tokens, issues := lexing.faults.map (faultDiagnostic source.path) }
  let (s, limit) := Guard.loop "file" ScopeState.position fileRound ⟨{}, cursor⟩
  let c :=
    match limit with
    | some limit => s.cursor.fail limit.message s.cursor.here
    | none => s.cursor
  { root := s.ns, includes := lexing.includes, diagnostics := c.issues }

end Header

end HeaderMeta
