import HeaderMeta.Declaration

/-! Namespaces: what is declared directly in them, their children, and merging of files.

Siblings have distinct names, because a child is looked up before it is created.
-/

set_option autoImplicit false

namespace HeaderMeta

structure Namespace where
  /-- Empty for the global namespace. -/
  name : String := ""
  types : List TypeDecl := []
  enums : List EnumDecl := []
  aliases : List AliasDecl := []
  /-- Targets of `using namespace`, as written. -/
  usings : List String := []
  children : List Namespace := []
  deriving Repr, Inhabited

namespace Namespace

def child (ns : Namespace) (name : String) : Namespace :=
  (ns.children.find? (·.name = name)).getD { name }

def putIn (new : Namespace) : List Namespace → List Namespace
  | [] => [new]
  | ns :: rest => if ns.name = new.name then new :: rest else ns :: putIn new rest

def putChild (ns new : Namespace) : Namespace :=
  { ns with children := putIn new ns.children }

def descend (ns : Namespace) : List String → Namespace
  | [] => ns
  | name :: path => (ns.child name).descend path

def graft (ns : Namespace) (path : List String) (new : Namespace) : Namespace :=
  match path with
  | [] => new
  | name :: path => ns.putChild ((ns.child name).graft path new)

def addUsing (ns : Namespace) (target : String) : Namespace :=
  if ns.usings.contains target then ns else { ns with usings := ns.usings ++ [target] }

/-- Add a type unless one of its name is there; a type that is not added is reported. -/
def addType (ns : Namespace) (type : TypeDecl) : Namespace × List (String × Path) :=
  if ns.types.any (·.name = type.name) then (ns, [(type.qualifiedName, type.path)])
  else ({ ns with types := ns.types ++ [type] }, [])

def addTypes (ns : Namespace) : List TypeDecl → Namespace × List (String × Path)
  | [] => (ns, [])
  | type :: types =>
    let (ns, dropped) := ns.addType type
    let (ns, more) := ns.addTypes types
    (ns, dropped ++ more)

def mergeShallow (ns other : Namespace) : Namespace × List (String × Path) :=
  let (ns, dropped) := ns.addTypes other.types
  let ns := { ns with enums := ns.enums ++ other.enums, aliases := ns.aliases ++ other.aliases }
  (other.usings.foldl addUsing ns, dropped)

mutual
/-- Merge a namespace of the same name. The first definition of a type wins; the others are
returned with their qualified names and files. -/
def merge (ns : Namespace) : Namespace → Namespace × List (String × Path)
  | ⟨name, types, enums, aliases, usings, children⟩ =>
    let (ns, dropped) := ns.mergeShallow { name, types, enums, aliases, usings }
    let (ns, more) := ns.mergeChildren children
    (ns, dropped ++ more)

def mergeChildren (ns : Namespace) : List Namespace → Namespace × List (String × Path)
  | [] => (ns, [])
  | other :: others =>
    let (merged, dropped) := (ns.child other.name).merge other
    let (ns, more) := (ns.putChild merged).mergeChildren others
    (ns, dropped ++ more)
end

end Namespace

mutual
def TypeDecl.walk : TypeDecl → List TypeDecl
  | ⟨name, namespaces, enclosing, key, path, span, fields, attributes, bases, visibility, isTemplate,
      nested, enums, aliases⟩ =>
    ⟨name, namespaces, enclosing, key, path, span, fields, attributes, bases, visibility, isTemplate,
      nested, enums, aliases⟩ :: TypeDecl.walkAll nested

def TypeDecl.walkAll : List TypeDecl → List TypeDecl
  | [] => []
  | type :: types => type.walk ++ TypeDecl.walkAll types
end

mutual
def Namespace.walk : Namespace → List TypeDecl
  | ⟨_, types, _, _, _, children⟩ => TypeDecl.walkAll types ++ Namespace.walkAll children

def Namespace.walkAll : List Namespace → List TypeDecl
  | [] => []
  | ns :: rest => ns.walk ++ Namespace.walkAll rest
end

end HeaderMeta
