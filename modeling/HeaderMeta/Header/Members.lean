import HeaderMeta.Header.Record
import HeaderMeta.Header.SmallDecl

/-! Member lists of records.

`typeBody` reads the members of a record up to the brace that closes it. Its first argument is how
many more bodies may be opened: at zero the record itself is one too many.
-/

set_option autoImplicit false

namespace HeaderMeta

/-- A record while its members are read, with the access in force. -/
structure MemberState where
  record : TypeDecl
  access : Visibility
  cursor : Cursor

namespace MemberState

/-- Words that start members which are never fields. -/
def nonFieldStarts : List String :=
  ["friend", "static", "static_assert", "virtual", "explicit", "operator", "constexpr",
    "consteval", "inline"]

def goto (s : MemberState) (rest : Tokens) : MemberState :=
  { s with cursor := s.cursor.goto rest }

def skip (s : MemberState) : MemberState :=
  { s with cursor := s.cursor.skipDeclaration }

def warn (s : MemberState) (message : String) (span : Span) : MemberState :=
  { s with cursor := s.cursor.warn message span }

def addField (s : MemberState) (field : Field) : MemberState :=
  { s with record := { s.record with fields := s.record.fields ++ [field] } }

/-- Add the fields of a member's parts. The first part gives the type of all; a first part that cannot
be read leaves the others without one. -/
def addParts (attributes : List Attribute) (start : Span) (type? : Option String) :
    (first : Bool) → List DeclaratorPart → MemberState → MemberState
  | _, [], s => s
  | first, part :: parts, s =>
    match Declarator.ofPart? part with
    | none =>
      let span := (part.tokens.head?.map Placed.span).getD start
      addParts attributes start type? false parts
        (s.warn ("Unrecognized member declaration in '" ++ s.record.name ++ "'") span)
    | some (type, d) =>
      if first && spell type = "" then
        s.warn ("Member '" ++ d.name ++ "' has no type") d.span
      else
        let type? := if first then some (spell type) else type?
        match type? with
        | none => addParts attributes start none false parts s
        | some spelling =>
          addParts attributes start type? false parts
            (s.addField
              { name := d.name, type := { spelling, kind := d.kind }, visibility := s.access
                attributes, span := d.span })

def member (s : MemberState) : MemberState :=
  let start := s.cursor.here
  let (attributes, c) := s.cursor.attributeSpecifiers
  let s := { s with cursor := c }
  if c.rest.word?.any nonFieldStarts.contains || c.rest.atMark .tilde ||
      c.rest.declaresFunction then
    s.skip
  else
    match c.rest.takeStatement with
    | .error rest =>
      (s.goto rest).warn ("Incomplete member declaration in '" ++ s.record.name ++ "'") start
    | .ok statement =>
      addParts attributes start none true (DeclaratorPart.split statement.body)
        (s.goto statement.rest)

/-- Declarators after a definition inside the record: `struct P {...} a, b;`. -/
def trailingFields (type : String) (s : MemberState) : MemberState :=
  match s.cursor.rest.takeStatement with
  | .error rest => s.goto rest
  | .ok statement =>
    let fields := (DeclaratorPart.split statement.body).filterMap fun part =>
      (Declarator.ofPart? part).map fun (_, d) =>
        ({ name := d.name, type := { spelling := type, kind := d.kind }, visibility := s.access
           span := d.span } : Field)
    fields.foldl addField (s.goto statement.rest)

/-- Members of an unnamed record belong to the record around it, with at most its access. -/
def hoist (s : MemberState) (fields : List Field) : MemberState :=
  fields.foldl
    (fun s f => s.addField { f with visibility := if s.access = .pub then f.visibility else s.access })
    s

def addNested (s : MemberState) (decl : TypeDecl) : MemberState :=
  { s with
    record := { s.record with nested := s.record.nested ++ [{ decl with visibility := s.access }] } }

def takeDefinition (s : MemberState) (decl : TypeDecl) : MemberState :=
  match decl.name, s.cursor.eat .semicolon with
  | "", (true, c) => { s with cursor := c }.hoist decl.fields
  | "", (false, _) => s.skip
  | _, (true, c) => { s with cursor := c }.addNested decl
  | name, (false, _) => (s.addNested decl).trailingFields name

/-- Read a record inside the record, or the member that its key only starts. -/
def nestedRecord (body : BodyReader) (isTemplate : Bool) (s : MemberState) : Round MemberState :=
  match s.cursor.record body s.record.namespaces s.record.innerEnclosing isTemplate with
  | (.error limit, cursor) => .refused { s with cursor } limit
  | (.ok (.definition decl), cursor) => .again ({ s with cursor }.takeDefinition decl)
  | (.ok .forward, cursor) => .again { s with cursor }
  | (.ok .notDefinition, cursor) => .again { s with cursor }.member

def nestedEnum (s : MemberState) : MemberState :=
  match s.cursor.enumeration s.record.namespaces s.record.innerEnclosing with
  | (none, cursor) => { s with cursor }.member
  | (some decl, c) =>
    let s := { s with record := { s.record with enums := s.record.enums ++ [decl] } }
    match c.eat .semicolon with
    | (true, cursor) => { s with cursor }
    | (false, cursor) =>
      if decl.name = "" then { s with cursor }.skip
      else { s with cursor }.trailingFields decl.name

def nestedTypedef (body : BodyReader) (s : MemberState) : Round MemberState :=
  match s.cursor.typedef body s.record.namespaces s.record.innerEnclosing with
  | (.error limit, cursor) => .refused { s with cursor } limit
  | (.ok outcome, cursor) =>
    let s := outcome.types.foldl addNested { s with cursor }
    .again { s with record := { s.record with aliases := s.record.aliases ++ outcome.aliases } }

def nestedAlias (s : MemberState) : MemberState :=
  let (alias?, cursor) := s.cursor.usingAlias s.record.scope
  { s with cursor, record := { s.record with aliases := s.record.aliases ++ alias?.toList } }

def nestedTemplate (body : BodyReader) (s : MemberState) : Round MemberState :=
  let s := s.goto s.cursor.rest.advance.skipAngles
  match s.cursor.rest.word?.bind RecordKey.ofWord? with
  | some _ => s.nestedRecord body true
  | none => .again s.skip

def wordRound (body : BodyReader) (word : String) (s : MemberState) : Round MemberState :=
  let next := s.cursor.rest.peekAt 1
  match Visibility.ofWord? word, next with
  | some access, .mark .colon => .again { s with access, cursor := s.cursor.advance.advance }
  | _, _ =>
    if (RecordKey.ofWord? word).isSome then s.nestedRecord body false
    else if word = "template" then s.nestedTemplate body
    else if word = "enum" then .again s.nestedEnum
    else if word = "typedef" then s.nestedTypedef body
    else if word = "using" then .again s.nestedAlias
    else if nonFieldStarts.contains word then .again s.skip
    else if word = s.record.name && next == .mark .openParen then .again s.skip
    else .again s.member

def unexpected (s : MemberState) : MemberState :=
  (s.warn ("Skipped unexpected '" ++ s.cursor.peek.spelling ++ "' in '" ++ s.record.name ++ "'")
    s.cursor.here).skip

def round (body : BodyReader) (s : MemberState) : Round MemberState :=
  match s.cursor.peek with
  | .eof | .mark .closeBrace => .done s
  | .mark .semicolon => .again { s with cursor := s.cursor.advance }
  | .mark .tilde => .again s.skip
  | .mark .colonColon => .again s.member
  | .mark .openBracket => if s.cursor.rest.atAttributes then .again s.member else .again s.unexpected
  | .word word => s.wordRound body word
  | _ => .again s.unexpected

end MemberState

def typeBody : (room : Nat) → BodyReader
  | 0 => fun decl c => ((decl, c), some (.depth "type body"))
  | room + 1 => fun decl c =>
    let run :=
      Guard.loop "member list" (fun s : MemberState => s.cursor.rest.length)
        (MemberState.round (typeBody room)) ⟨decl, decl.key.defaultVisibility, c⟩
    ((run.1.record, run.1.cursor), run.2)

end HeaderMeta
