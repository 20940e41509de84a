import HeaderMeta.Header.Scope

/-! Declarations as they are written: their tokens in order, the layout of a text, and the
declarations they denote.

Names are words that mean nothing to the reader. The arguments of an attribute are kept as text, so
the blanks between them are part of the syntax; all other blanks belong to the layout.
-/

set_option autoImplicit false

namespace HeaderMeta

section Places

def Attribute.unplaced (a : Attribute) : Attribute :=
  { a with span := {} }

def Field.unplaced (f : Field) : Field :=
  { f with span := {}, attributes := f.attributes.map Attribute.unplaced }

def EnumDecl.unplaced (d : EnumDecl) : EnumDecl :=
  { d with span := {} }

def AliasDecl.unplaced (d : AliasDecl) : AliasDecl :=
  { d with span := {} }

mutual
def TypeDecl.unplaced : TypeDecl → TypeDecl
  | ⟨name, namespaces, enclosing, key, path, _, fields, attributes, bases, visibility, isTemplate,
      nested, enums, aliases⟩ =>
    ⟨name, namespaces, enclosing, key, path, {}, fields.map Field.unplaced,
      attributes.map Attribute.unplaced, bases, visibility, isTemplate,
      TypeDecl.unplacedAll nested, enums.map EnumDecl.unplaced, aliases.map AliasDecl.unplaced⟩

def TypeDecl.unplacedAll : List TypeDecl → List TypeDecl
  | [] => []
  | type :: types => type.unplaced :: TypeDecl.unplacedAll types
end

mutual
def Namespace.unplaced : Namespace → Namespace
  | ⟨name, types, enums, aliases, usings, children⟩ =>
    ⟨name, types.map TypeDecl.unplaced, enums.map EnumDecl.unplaced,
      aliases.map AliasDecl.unplaced, usings, Namespace.unplacedAll children⟩

def Namespace.unplacedAll : List Namespace → List Namespace
  | [] => []
  | ns :: rest => ns.unplaced :: Namespace.unplacedAll rest
end

end Places

namespace Grammar

def reservedWords : List String :=
  Tokens.declarationStarts ++ spellingNoise ++ MemberState.nonFieldStarts ++
    Cursor.specifierWords ++ ["final"]

def isIdentifier (text : String) : Bool :=
  match text.toList with
  | [] => false
  | c :: cs => Lexeme.isWordStart c && cs.all Lexeme.isWordPart

structure Name where
  text : String
  identifier : isIdentifier text = true
  ordinary : text ∉ reservedWords

structure ScopedName where
  outer : List Name := []
  last : Name

def ScopedName.names (n : ScopedName) : List String :=
  n.outer.map Name.text ++ [n.last.text]

def ScopedName.text (n : ScopedName) : String :=
  joinScope n.names

section Layout

/-- The blanks of a text: some between any two tokens, and perhaps some at either end. -/
structure Layout where
  lead : List Char := []
  gap : Nat → List Char := fun _ => [' ']
  trail : List Char := []
  lead_blank : lead.all Lexeme.isSpace = true := by decide
  gap_blank : ∀ i, (gap i).all Lexeme.isSpace = true := by intro; decide
  gap_ne_nil : ∀ i, gap i ≠ [] := by simp
  trail_blank : trail.all Lexeme.isSpace = true := by decide

def interlace (gap : Nat → List Char) : List (List Char) → List Char
  | [] => []
  | [t] => t
  | t :: u :: ts => t ++ gap 0 ++ interlace (fun i => gap (i + 1)) (u :: ts)

def Layout.render (l : Layout) (ts : List (List Char)) : List Char :=
  l.lead ++ interlace l.gap ts ++ l.trail

end Layout

section Forms

structure Arguments where
  values : List Int
  layout : Layout

def Arguments.words (a : Arguments) : List (List Char) :=
  (a.values.map fun n => (toString n).toList).intersperse [',']

def Arguments.inner (a : Arguments) : List Char :=
  a.layout.render a.words

def Arguments.text (a : Arguments) : String :=
  String.ofList (interlace a.layout.gap a.words)

structure AttributeForm where
  name : ScopedName
  arguments : Option Arguments := none

structure BaseForm where
  access : Option Visibility := none
  name : ScopedName

inductive DeclaratorForm where
  | plain (name : Name)
  | pointer (name : Name)
  | reference (name : Name)
  | array (name : Name) (size : Nat)
  | bitfield (name : Name) (width : Nat)

structure EnumForm where
  isScoped : Bool := false
  name : Name
  values : List Name := []

/-- A record up to its body. Without attributes there is no list of them, without bases no clause. -/
structure HeadForm where
  key : RecordKey
  attributes : List AttributeForm := []
  name : Name
  bases : List BaseForm := []

inductive MemberForm where
  | access (v : Visibility)
  | record (head : HeadForm) (members : List MemberForm)
  | enumeration (e : EnumForm)
  | fields (attributes : List AttributeForm) (type : ScopedName) (first : DeclaratorForm)
      (more : List DeclaratorForm)

inductive DeclForm where
  | space (name : Name) (body : List DeclForm)
  | record (head : HeadForm) (members : List MemberForm)
  | enumeration (e : EnumForm)
  | synonym (name : Name) (target : ScopedName)

end Forms

section Pieces

/-- What is written without a blank inside, arguments apart. -/
inductive Piece where
  | word (text : String) (identifier : isIdentifier text = true)
  | mark (m : Mark)
  | number (n : Nat)
  /-- `[[` -/
  | openList
  /-- `]]` -/
  | closeList
  | arguments (a : Arguments)

def Piece.text : Piece → List Char
  | word text _ => text.toList
  | mark m => m.spelling.toList
  | number n => (toString n).toList
  | openList => ['[', '[']
  | closeList => [']', ']']
  | arguments a => '(' :: a.inner ++ [')']

def Name.piece (n : Name) : Piece :=
  .word n.text n.identifier

def accessPiece (v : Visibility) : Piece :=
  .word v.name (by cases v <;> decide)

def keyPiece (k : RecordKey) : Piece :=
  .word k.word (by cases k <;> decide)

def separated : List (List Piece) → List Piece
  | [] => []
  | [g] => g
  | g :: h :: gs => g ++ .mark .comma :: separated (h :: gs)

def braced (body : List Piece) : List Piece :=
  .mark .openBrace :: body ++ [.mark .closeBrace]

def ScopedName.pieces (n : ScopedName) : List Piece :=
  n.outer.flatMap (fun o => [o.piece, .mark .colonColon]) ++ [n.last.piece]

def AttributeForm.pieces (a : AttributeForm) : List Piece :=
  a.name.pieces ++ (a.arguments.map Piece.arguments).toList

def attributePieces : List AttributeForm → List Piece
  | [] => []
  | as => .openList :: separated (as.map AttributeForm.pieces) ++ [.closeList]

def BaseForm.pieces (b : BaseForm) : List Piece :=
  (b.access.map accessPiece).toList ++ b.name.pieces

def basePieces : List BaseForm → List Piece
  | [] => []
  | bs => .mark .colon :: separated (bs.map BaseForm.pieces)

def DeclaratorForm.pieces : DeclaratorForm → List Piece
  | plain name => [name.piece]
  | pointer name => [.mark .star, name.piece]
  | reference name => [.mark .amp, name.piece]
  | array name size => [name.piece, .mark .openBracket, .number size, .mark .closeBracket]
  | bitfield name width => [name.piece, .mark .colon, .number width]

def EnumForm.pieces (e : EnumForm) : List Piece :=
  .word "enum" (by decide) :: (if e.isScoped then [.word "class" (by decide)] else []) ++
    e.name.piece :: braced (separated (e.values.map fun v => [v.piece]))

def HeadForm.pieces (h : HeadForm) : List Piece :=
  keyPiece h.key :: attributePieces h.attributes ++ h.name.piece :: basePieces h.bases

def fieldPieces (type : ScopedName) (ds : List DeclaratorForm) : List Piece :=
  type.pieces ++ separated (ds.map DeclaratorForm.pieces)

mutual
def MemberForm.pieces : MemberForm → List Piece
  | .access v => [accessPiece v, .mark .colon]
  | .record head members => head.pieces ++ braced (memberPieces members) ++ [.mark .semicolon]
  | .enumeration e => e.pieces ++ [.mark .semicolon]
  | .fields attributes type first more =>
    attributePieces attributes ++ fieldPieces type (first :: more) ++ [.mark .semicolon]

def memberPieces : List MemberForm → List Piece
  | [] => []
  | m :: ms => m.pieces ++ memberPieces ms
end

mutual
def DeclForm.pieces : DeclForm → List Piece
  | .space name body => .word "namespace" (by decide) :: name.piece :: braced (declPieces body)
  | .record head members => head.pieces ++ braced (memberPieces members) ++ [.mark .semicolon]
  | .enumeration e => e.pieces ++ [.mark .semicolon]
  | .synonym name target =>
    .word "using" (by decide) :: name.piece :: .mark .equal :: target.pieces ++ [.mark .semicolon]

def declPieces : List DeclForm → List Piece
  | [] => []
  | d :: ds => d.pieces ++ declPieces ds
end

def renderForest (l : Layout) (ds : List DeclForm) : String :=
  String.ofList (l.render ((declPieces ds).map Piece.text))

end Pieces

section Limits

mutual
/-- How many bodies are open at once, at most. -/
def MemberForm.depth : MemberForm → Nat
  | .record _ members => memberDepth members + 1
  | _ => 0

def memberDepth : List MemberForm → Nat
  | [] => 0
  | m :: ms => max m.depth (memberDepth ms)
end

mutual
def MemberForm.small : MemberForm → Bool
  | .record _ members => members.length < maxIterations && membersSmall members
  | _ => true

def membersSmall : List MemberForm → Bool
  | [] => true
  | m :: ms => m.small && membersSmall ms
end

mutual
def DeclForm.depth : DeclForm → Nat
  | .space _ body => declDepth body + 1
  | .record _ members => memberDepth members + 1
  | _ => 0

def declDepth : List DeclForm → Nat
  | [] => 0
  | d :: ds => max d.depth (declDepth ds)
end

mutual
def DeclForm.small : DeclForm → Bool
  | .space _ body => body.length < maxIterations && declsSmall body
  | .record _ members => members.length < maxIterations && membersSmall members
  | _ => true

def declsSmall : List DeclForm → Bool
  | [] => true
  | d :: ds => d.small && declsSmall ds
end

end Limits

section Denotation

structure Site where
  path : Path
  namespaces : List String := []
  enclosing : List String := []

def Site.inside (s : Site) (record : String) : Site :=
  { s with enclosing := s.enclosing ++ [record] }

def AttributeForm.denote (a : AttributeForm) : Attribute where
  scope := if a.name.outer.isEmpty then none else some (joinScope (a.name.outer.map Name.text))
  name := a.name.last.text
  arguments := a.arguments.map Arguments.text

def BaseForm.denote (key : RecordKey) (b : BaseForm) : Base where
  spelling := b.name.text
  access := b.access.getD key.defaultVisibility

namespace DeclaratorForm

def name : DeclaratorForm → Name
  | plain name | pointer name | reference name | array name _ | bitfield name _ => name

def kind : DeclaratorForm → TypeKind
  | plain _ => .unresolved
  | pointer _ => .pointer
  | reference _ => .reference
  | array _ _ => .array
  | bitfield _ _ => .bitfield

end DeclaratorForm

def EnumForm.denote (site : Site) (e : EnumForm) : EnumDecl where
  name := e.name.text
  namespaces := site.namespaces
  enclosing := site.enclosing
  isScoped := e.isScoped
  span := {}

def fieldOf (access : Visibility) (attributes : List AttributeForm) (type : ScopedName)
    (d : DeclaratorForm) : Field where
  name := d.name.text
  type := { spelling := type.text, kind := d.kind }
  visibility := access
  attributes := attributes.map AttributeForm.denote

namespace MemberForm

def accessAfter (access : Visibility) : MemberForm → Visibility
  | .access v => v
  | _ => access

def declared (access : Visibility) : MemberForm → List Field
  | .fields attributes type first more =>
    (first :: more).map (fieldOf access attributes type)
  | _ => []

def enums (site : Site) : MemberForm → List EnumDecl
  | .enumeration e => [e.denote site]
  | _ => []

end MemberForm

def fieldsIn (access : Visibility) : List MemberForm → List Field
  | [] => []
  | m :: ms => m.declared access ++ fieldsIn (m.accessAfter access) ms

def enumsIn (site : Site) (ms : List MemberForm) : List EnumDecl :=
  ms.flatMap (MemberForm.enums site)

def HeadForm.denote (site : Site) (access : Visibility) (h : HeadForm) (members : List MemberForm)
    (nested : List TypeDecl) : TypeDecl where
  name := h.name.text
  namespaces := site.namespaces
  enclosing := site.enclosing
  key := h.key
  path := site.path
  fields := fieldsIn h.key.defaultVisibility members
  attributes := h.attributes.map AttributeForm.denote
  bases := h.bases.map (BaseForm.denote h.key)
  visibility := access
  nested
  enums := enumsIn (site.inside h.name.text) members

mutual
def MemberForm.nested (site : Site) (access : Visibility) : MemberForm → List TypeDecl
  | .record head members =>
    [head.denote site access members
      (nestedIn (site.inside head.name.text) head.key.defaultVisibility members)]
  | _ => []

def nestedIn (site : Site) (access : Visibility) : List MemberForm → List TypeDecl
  | [] => []
  | m :: ms => m.nested site access ++ nestedIn site (m.accessAfter access) ms
end

def recordDecl (site : Site) (head : HeadForm) (members : List MemberForm) : TypeDecl :=
  head.denote site .pub members
    (nestedIn (site.inside head.name.text) head.key.defaultVisibility members)

namespace DeclForm

def types (site : Site) : DeclForm → List TypeDecl
  | .record head members => [recordDecl site head members]
  | _ => []

def enums (site : Site) : DeclForm → List EnumDecl
  | .enumeration e => [e.denote site]
  | _ => []

def aliases (site : Site) : DeclForm → List AliasDecl
  | .synonym name target => [⟨name.text, site.namespaces, { spelling := target.text }, {}⟩]
  | _ => []

def opened : DeclForm → List String
  | .space name _ => [name.text]
  | _ => []

def partOf (name : String) : DeclForm → List DeclForm
  | .space n body => if n.text = name then body else []
  | _ => []

end DeclForm

/-- Everything written inside the namespace called `name`, however often it is opened. -/
def bodyOf (name : String) (ds : List DeclForm) : List DeclForm :=
  ds.flatMap (DeclForm.partOf name)

/-- The namespaces opened in a forest, in the order of their first opening. -/
def openedIn (ds : List DeclForm) : List String :=
  (ds.flatMap DeclForm.opened).eraseDups

theorem declDepth_lt_iff {ds : List DeclForm} {n : Nat} :
    declDepth ds < n ↔ 0 < n ∧ ∀ d ∈ ds, d.depth < n := by
  induction ds with
  | nil => simp [declDepth]
  | cons d ds ih => simpa only [declDepth, Nat.max_lt, ih, List.forall_mem_cons] using and_left_comm

theorem depth_le_declDepth {ds : List DeclForm} {d : DeclForm} (mem : d ∈ ds) :
    d.depth ≤ declDepth ds :=
  Nat.lt_succ_iff.mp ((declDepth_lt_iff.mp (Nat.lt_succ_self _)).2 d mem)

theorem mem_openedIn {ds : List DeclForm} {name : String} :
    name ∈ openedIn ds ↔ ∃ n body, .space n body ∈ ds ∧ n.text = name := by
  simp only [openedIn, List.mem_eraseDups, List.mem_flatMap]
  constructor
  · rintro ⟨d, mem, opened⟩
    cases d with
    | space n body => exact ⟨n, body, mem, (List.mem_singleton.mp opened).symm⟩
    | _ => simp [DeclForm.opened] at opened
  · rintro ⟨n, body, mem, rfl⟩
    exact ⟨_, mem, List.mem_singleton.mpr rfl⟩

theorem declDepth_bodyOf_lt {ds : List DeclForm} {name : String} (opened : name ∈ openedIn ds) :
    declDepth (bodyOf name ds) < declDepth ds := by
  obtain ⟨n, body, mem, rfl⟩ := mem_openedIn.mp opened
  have here := depth_le_declDepth mem
  simp only [DeclForm.depth] at here
  refine declDepth_lt_iff.mpr ⟨by omega, fun inner found => ?_⟩
  obtain ⟨d, outer, part⟩ := List.mem_flatMap.mp found
  cases d with
  | space n' body' =>
    have outerDepth := depth_le_declDepth outer
    simp only [DeclForm.depth] at outerDepth
    simp only [DeclForm.partOf] at part
    split at part
    · have := depth_le_declDepth part
      omega
    · cases part
  | _ => cases part

def spaceOf (path : Path) (scope : List String) (name : String) (ds : List DeclForm) :
    Namespace :=
  { name
    types := ds.flatMap (DeclForm.types ⟨path, scope, []⟩)
    enums := ds.flatMap (DeclForm.enums ⟨path, scope, []⟩)
    aliases := ds.flatMap (DeclForm.aliases ⟨path, scope, []⟩)
    children :=
      (openedIn ds).attach.map fun ⟨n, _⟩ => spaceOf path (scope ++ [n]) n (bodyOf n ds) }
termination_by declDepth ds
decreasing_by exact declDepth_bodyOf_lt (by assumption)

/-- The tree that a forest denotes. -/
def denoteForest (path : Path) (ds : List DeclForm) : Namespace :=
  spaceOf path [] "" ds

end Denotation

end Grammar

end HeaderMeta
