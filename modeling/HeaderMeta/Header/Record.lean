import HeaderMeta.Guard
import HeaderMeta.Header.AttributeList
import HeaderMeta.Header.Bases

/-! Record definitions from the record key on, and typedefs.

The body of a record is read by the function `body`, which is given the record as its head declares
it and returns it with its members, unless a limit stops it.
-/

set_option autoImplicit false

namespace HeaderMeta

abbrev BodyReader := TypeDecl → Cursor → (TypeDecl × Cursor) × Option Limit

/-- What a record key introduces. -/
inductive RecordOutcome where
  | definition (decl : TypeDecl)
  | forward
  /-- Something else; the place is the record key again. -/
  | notDefinition

namespace Cursor

def isMacroName (word : String) : Bool :=
  word.length > 1 && word.all fun c => c.isUpper || c.isDigit || c == '_'

def atDecorator (ts : Tokens) : Bool :=
  ts.word?.any isMacroName &&
    match ts.peekAt 1 with
    | .word _ | .mark .openParen => true
    | .mark .openBracket => ts.peekAt 2 == .mark .openBracket
    | _ => false

theorem length_advance_lt_of_atDecorator {ts : Tokens} (h : atDecorator ts = true) :
    ts.advance.length < ts.length := by
  match ts with
  | [] | [_] => simp [atDecorator, Tokens.peekAt] at h
  | _ :: _ :: _ => simp [Tokens.advance]

def skipMacro (ts : Tokens) : Tokens :=
  if ts.advance.atMark .openParen then ts.advance.skipGroup else ts.advance

theorem length_skipMacro_le (ts : Tokens) : (skipMacro ts).length ≤ ts.advance.length := by
  unfold skipMacro
  split
  · exact Tokens.length_skipGroup_le ts.advance
  · exact Nat.le_refl _

def decorators (c : Cursor) : List Attribute × Cursor :=
  if _h : atDecorator c.rest then
    let own := attributeSpecifiers (c.goto (skipMacro c.rest))
    let more := decorators own.2
    (own.1 ++ more.1, more.2)
  else ([], c)
termination_by c.rest.length
decreasing_by
  have := length_attributeSpecifiers_le (c.goto (skipMacro c.rest))
  have := length_skipMacro_le c.rest
  have := length_advance_lt_of_atDecorator _h
  simp at *
  omega

/-- What stands between a record key and the colon, brace or semicolon after its name. -/
structure RecordHead where
  name : String
  attributes : List Attribute
  isTemplate : Bool
  nameSpan : Span

def recordHead (isTemplate : Bool) (c : Cursor) : RecordHead × Cursor :=
  let (attributes, c) := c.attributeSpecifiers
  let (more, c) := c.decorators
  let nameSpan := c.here
  let (parts, rest) := c.rest.qualifiedName
  let name := parts.getLast?.getD ""
  let specialised := rest.atMark .less && name != ""
  let rest := if specialised then Tokens.skipAngles rest else rest
  let rest := if rest.atWord "final" then rest.advance else rest
  ({ name, attributes := attributes ++ more, isTemplate := isTemplate || specialised, nameSpan },
    c.goto rest)

def recordBody (body : BodyReader) (start : Span) (decl : TypeDecl) (c : Cursor) :
    Except Limit RecordOutcome × Cursor :=
  match body decl c.advance with
  | ((_, c), some limit) => (.error limit, c)
  | ((decl, c), none) =>
    match c.eat .closeBrace with
    | (true, c) => (.ok (.definition decl), c)
    | (false, c) =>
      let label := if decl.name = "" then "<anonymous>" else decl.name
      (.ok (.definition decl), c.fail ("Unterminated body of '" ++ label ++ "'") start)

/-- Read from a record key. An unnamed definition has the empty name. -/
def record (body : BodyReader) (namespaces enclosing : List String) (isTemplate : Bool)
    (c : Cursor) : Except Limit RecordOutcome × Cursor :=
  match c.rest.word?.bind RecordKey.ofWord? with
  | none => (.ok .notDefinition, c)
  | some key =>
    let start := c
    let (head, c) := c.advance.recordHead isTemplate
    let decl : TypeDecl :=
      { name := head.name, namespaces, enclosing, key, path := c.source.path
        attributes := head.attributes, isTemplate := head.isTemplate
        span := if head.name = "" then start.here else head.nameSpan }
    match c.peek with
    | .mark .semicolon =>
      if head.name = "" then (.ok .notDefinition, c.goto start.rest)
      else (.ok .forward, c.advance)
    | .mark .openBrace => recordBody body start.here decl c
    | .mark .colon =>
      match Base.readAll key c.rest.advance with
      | some (bases, rest) => recordBody body start.here { decl with bases } (c.goto rest)
      | none => (.ok .notDefinition, c.goto start.rest)
    | _ => (.ok .notDefinition, c.goto start.rest)

structure TypedefOutcome where
  types : List TypeDecl := []
  aliases : List AliasDecl := []

/-- The aliases of a plain typedef. The first part gives the type; nothing is declared when it has
none. -/
def plainAliases (scope : List String) : List DeclaratorPart → List AliasDecl
  | [] => []
  | part :: parts =>
    match Declarator.ofTokens? part.tokens false with
    | none => []
    | some (type, first) =>
      if spell type = "" then []
      else
        (first :: parts.filterMap fun p => (Declarator.ofTokens? p.tokens false).map (·.2)).map
          fun d => ⟨d.name, scope, { spelling := spell type, kind := d.kind }, d.span⟩

/-- The type and aliases of `typedef struct ... names;`. An unnamed record takes the first name that
is neither pointer, reference nor array; without one nothing is declared. -/
def recordAliases (scope : List String) (decl : TypeDecl) (statement : Tokens) : TypedefOutcome :=
  let declarators :=
    (DeclaratorPart.split statement).filterMap fun p =>
      (Declarator.ofTokens? p.tokens false).map (·.2)
  let name? :=
    if decl.name = "" then (declarators.find? (·.kind = .unresolved)).map (·.name)
    else some decl.name
  match name? with
  | none => {}
  | some name =>
    { types := [{ decl with name }]
      aliases := (declarators.filter (·.name != name)).map fun d =>
        ⟨d.name, scope, { spelling := name, kind := d.kind }, d.span⟩ }

/-- A typedef without a record definition. Function types declare nothing. -/
def plainTypedef (scope : List String) (c : Cursor) : TypedefOutcome × Cursor :=
  match c.rest.takeStatement with
  | .error rest => ({}, c.goto rest)
  | .ok statement =>
    if statement.body.any (·.token == .mark .openParen) then ({}, c.goto statement.rest)
    else
      ({ aliases := plainAliases scope (DeclaratorPart.split statement.body) },
        c.goto statement.rest)

def typedef (body : BodyReader) (namespaces enclosing : List String) (c : Cursor) :
    Except Limit TypedefOutcome × Cursor :=
  let scope := namespaces ++ enclosing
  let start := c.advance
  match record body namespaces enclosing false start with
  | (.error limit, c) => (.error limit, c)
  | (.ok (.definition decl), c) =>
    match c.rest.takeStatement with
    | .error rest => (.ok {}, c.goto rest)
    | .ok statement => (.ok (recordAliases scope decl statement.body), c.goto statement.rest)
  | (.ok _, c) =>
    let (outcome, c) := plainTypedef scope (c.goto start.rest)
    (.ok outcome, c)

end Cursor

end HeaderMeta
