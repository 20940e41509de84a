import HeaderMeta.Path
import HeaderMeta.Text.Affix
import HeaderMeta.Token

/-! Declarations of a header: records with their fields, attributes and bases, enumerations and
aliases.

A declaration carries the names of its surroundings, outermost first, so its qualified name can be
read off the declaration alone.
-/

set_option autoImplicit false

namespace HeaderMeta

inductive Visibility where
  | pub | prot | priv
  deriving DecidableEq, Repr, Inhabited

namespace Visibility

def name : Visibility → String
  | pub => "public"
  | prot => "protected"
  | priv => "private"

def ofWord? (word : String) : Option Visibility :=
  if word = "public" then some pub
  else if word = "protected" then some prot
  else if word = "private" then some priv
  else none

end Visibility

/-- The word a record is declared with. -/
inductive RecordKey where
  | struct | cls | union
  deriving DecidableEq, Repr, Inhabited

namespace RecordKey

def word : RecordKey → String
  | struct => "struct"
  | cls => "class"
  | union => "union"

def ofWord? (word : String) : Option RecordKey :=
  if word = "struct" then some struct
  else if word = "class" then some cls
  else if word = "union" then some union
  else none

def defaultVisibility : RecordKey → Visibility
  | cls => .priv
  | struct | union => .pub

end RecordKey

def joinScope (parts : List String) : String :=
  Text.joinWith "::" parts

/-- An attribute `scope::name(arguments)`. Arguments are kept as text. -/
structure Attribute where
  scope : Option String
  name : String
  arguments : Option String := none
  span : Span := {}
  deriving DecidableEq, Repr, Inhabited

def Attribute.qualifiedName (a : Attribute) : String :=
  match a.scope with
  | some scope => scope ++ "::" ++ a.name
  | none => a.name

/-- What a type name turned out to stand for. -/
inductive TypeKind where
  /-- An arithmetic builtin or a fixed-width integer name. -/
  | primitive (name : String)
  | enumeration (name : String)
  /-- A record by qualified name, with its template arguments, angle brackets included. -/
  | record (name : String) (args : Option String)
  | synonym (name : String) (target : TypeKind)
  | templated
  | pointer
  | reference
  | array
  | bitfield
  | unresolved
  deriving DecidableEq, Repr, Inhabited

def isStdName (name : String) : Bool :=
  let name := Text.trimLeads "::" name
  name = "std" || Text.startsWith name "std::"

namespace TypeKind

def canonical : TypeKind → TypeKind
  | synonym _ target => target.canonical
  | kind => kind

def isStdRecord (kind : TypeKind) : Bool :=
  match kind.canonical with
  | record name _ => isStdName name
  | _ => false

end TypeKind

/-- A type as written, without cv words and declarator parts, and what it stands for. -/
structure TypeRef where
  spelling : String
  kind : TypeKind := .unresolved
  deriving DecidableEq, Repr, Inhabited

structure Field where
  name : String
  type : TypeRef
  visibility : Visibility
  attributes : List Attribute := []
  span : Span := {}
  deriving DecidableEq, Repr, Inhabited

structure Base where
  spelling : String
  /-- The qualified name of the base's declaration, once found. -/
  resolved : Option String := none
  access : Visibility
  isVirtual : Bool := false
  deriving DecidableEq, Repr, Inhabited

def Base.displayName (b : Base) : String :=
  b.resolved.getD (Text.trimLeads "::" b.spelling)

structure EnumDecl where
  name : String
  namespaces : List String
  enclosing : List String
  isScoped : Bool
  span : Span
  deriving DecidableEq, Repr, Inhabited

def EnumDecl.qualifiedName (d : EnumDecl) : String :=
  joinScope (d.namespaces ++ d.enclosing ++ [d.name])

structure AliasDecl where
  name : String
  /-- The scope the alias is declared in. -/
  scope : List String
  target : TypeRef
  span : Span
  deriving DecidableEq, Repr, Inhabited

def AliasDecl.qualifiedName (d : AliasDecl) : String :=
  joinScope (d.scope ++ [d.name])

structure TypeDecl where
  name : String
  namespaces : List String := []
  /-- The records around it. -/
  enclosing : List String := []
  key : RecordKey
  /-- The declaring file. -/
  path : Path
  span : Span := {}
  fields : List Field := []
  attributes : List Attribute := []
  bases : List Base := []
  /-- Access of the declaration within the record around it. -/
  visibility : Visibility := .pub
  /-- A template or a specialisation of one. -/
  isTemplate : Bool := false
  nested : List TypeDecl := []
  enums : List EnumDecl := []
  aliases : List AliasDecl := []
  deriving Repr, Inhabited

namespace TypeDecl

def parentScope (d : TypeDecl) : List String :=
  d.namespaces ++ d.enclosing

def scope (d : TypeDecl) : List String :=
  d.parentScope ++ [d.name]

def qualifiedName (d : TypeDecl) : String :=
  joinScope d.scope

def innerEnclosing (d : TypeDecl) : List String :=
  d.enclosing ++ [d.name]

def isNested (d : TypeDecl) : Bool :=
  !d.enclosing.isEmpty

end TypeDecl

end HeaderMeta
