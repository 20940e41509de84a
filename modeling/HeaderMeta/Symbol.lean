import HeaderMeta.Declaration.Namespace
import HeaderMeta.Text.Blank

/-! Names of a declaration tree and what a type name stands for.

The table lists every named type in declaration order; of several entries with one name the first
counts. A name is looked up from its scope outward, `using namespace` targets included. Following
aliases stops at an alias seen before.
-/

set_option autoImplicit false

namespace HeaderMeta

inductive Symbol where
  | record
  | enumeration
  | synonym (scope : List String) (target : TypeRef)
  deriving DecidableEq, Repr

structure SymbolTable where
  symbols : List (String × Symbol)
  /-- `using namespace` targets with the scope they stand in. -/
  usings : List (String × String)
  deriving Repr

namespace SymbolTable

def enumSymbols (enums : List EnumDecl) : List (String × Symbol) :=
  (enums.filter (·.name != "")).map fun d => (d.qualifiedName, .enumeration)

def aliasSymbols (aliases : List AliasDecl) : List (String × Symbol) :=
  aliases.map fun d => (d.qualifiedName, .synonym d.scope d.target)

mutual
def typeSymbols : TypeDecl → List (String × Symbol)
  | ⟨name, namespaces, enclosing, _, _, _, _, _, _, _, _, nested, enums, aliases⟩ =>
    (joinScope (namespaces ++ enclosing ++ [name]), .record) ::
      (enumSymbols enums ++ aliasSymbols aliases ++ typesSymbols nested)

def typesSymbols : List TypeDecl → List (String × Symbol)
  | [] => []
  | type :: types => typeSymbols type ++ typesSymbols types
end

mutual
def ofScope (scope : List String) : Namespace → SymbolTable
  | ⟨_, types, enums, aliases, usings, children⟩ =>
    let below := ofChildren scope children
    { symbols := typesSymbols types ++ enumSymbols enums ++ aliasSymbols aliases ++ below.symbols
      usings := usings.map (joinScope scope, ·) ++ below.usings }

def ofChildren (scope : List String) : List Namespace → SymbolTable
  | [] => ⟨[], []⟩
  | ns :: rest =>
    let first := ofScope (scope ++ [ns.name]) ns
    let others := ofChildren scope rest
    ⟨first.symbols ++ others.symbols, first.usings ++ others.usings⟩
end

def ofRoot (root : Namespace) : SymbolTable :=
  ofScope [] root

def find? (table : SymbolTable) (name : String) : Option (String × Symbol) :=
  table.symbols.find? (·.1 = name)

def contains (table : SymbolTable) (name : String) : Bool :=
  (table.find? name).isSome

def targets (table : SymbolTable) (scope : String) : List String :=
  (table.usings.filter (·.1 = scope)).map fun u => Text.trimLeads "::" u.2

/-- `name` inside `scope`, where the empty scope is the global one. -/
def within (scope name : String) : String :=
  if scope = "" then name else scope ++ "::" ++ name

def outward (scope : List String) : List String :=
  (List.range (scope.length + 1)).reverse.map fun n => joinScope (scope.take n)

def candidatesIn (table : SymbolTable) (name scope : String) : List String :=
  within scope name ::
    (table.targets scope).flatMap fun target =>
      [within (within scope target) name, within target name]

def candidates (table : SymbolTable) (name : String) (scope : List String) : List String :=
  match Text.dropLead? "::" name with
  | some absolute => [absolute]
  | none => (outward scope).flatMap (table.candidatesIn name)

def lookup (table : SymbolTable) (name : String) (scope : List String) :
    Option (String × Symbol) :=
  (table.candidates name scope).findSome? table.find?

theorem mem_of_lookup {table : SymbolTable} {name : String} {scope : List String}
    {entry : String × Symbol} (h : table.lookup name scope = some entry) :
    entry ∈ table.symbols := by
  obtain ⟨candidate, _, found⟩ := List.exists_of_findSome?_eq_some h
  exact List.mem_of_find?_eq_some found

def builtinWords : List String :=
  ["void", "bool", "char", "char8_t", "char16_t", "char32_t", "wchar_t", "short", "int", "long",
    "signed", "unsigned", "float", "double"]

def fixedWidth : List String :=
  ["int8_t", "int16_t", "int32_t", "int64_t", "uint8_t", "uint16_t", "uint32_t", "uint64_t",
    "size_t", "ptrdiff_t", "intptr_t", "uintptr_t", "intmax_t", "uintmax_t", "max_align_t"]

def isBuiltin (spelling : String) : Bool :=
  let plain := Text.trimLeads "std::" (Text.trimLeads "::" spelling)
  let words := Text.blankSeparated spelling
  fixedWidth.contains plain || (!words.isEmpty && words.all builtinWords.contains)

def splitArgs (spelling : String) : String × Option String :=
  let cs := spelling.toList
  match cs.dropWhile (· != '<') with
  | [] => (spelling, none)
  | args =>
    (String.ofList (Text.trimEndChars (cs.takeWhile (· != '<'))), some (String.ofList args))

/-- What an undeclared name stands for: a standard library record, when it is written as one or the
standard library is visible, and nothing otherwise. -/
def undeclared (table : SymbolTable) (base : String) (args : Option String)
    (scope : List String) : TypeKind :=
  let base := Text.trimLeads "::" base
  if isStdName base then .record base args
  else if (outward scope).any (fun s => (table.targets s).contains "std") &&
      !Text.contains base "::" then
    .record ("std::" ++ base) args
  else .unresolved

def unseen (table : SymbolTable) (seen : List String) : List (String × Symbol) :=
  table.symbols.filter fun s => !seen.contains s.1

theorem length_unseen_lt {table : SymbolTable} {seen : List String} {entry : String × Symbol}
    (mem : entry ∈ table.symbols) (new : seen.contains entry.1 = false) :
    (table.unseen (entry.1 :: seen)).length < (table.unseen seen).length := by
  have fewer : table.unseen (entry.1 :: seen) =
      (table.unseen seen).filter fun s => s.1 != entry.1 := by
    simp only [unseen, List.filter_filter]
    congr 1
    funext s
    by_cases h : s.1 = entry.1 <;> simp [h]
  rw [fewer]
  refine Nat.lt_of_le_of_ne (List.length_filter_le _ _) fun same => ?_
  have all := List.length_filter_eq_length_iff.1 same entry
    (List.mem_filter.2 ⟨mem, by simpa using new⟩)
  simp at all

/-- What a spelling means before aliases are followed. -/
inductive Meaning where
  | kind (kind : TypeKind)
  | aliasOf (name : String) (scope : List String) (target : TypeRef)

def Meaning.ofEntry (args : Option String) : String × Symbol → Meaning
  | (name, .record) => .kind (.record name args)
  | (name, .enumeration) => .kind (.enumeration name)
  | (name, .synonym scope target) => .aliasOf name scope target

def meaning (table : SymbolTable) (spelling : String) (scope : List String) : Meaning :=
  if isBuiltin spelling then .kind (.primitive spelling)
  else
    let (base, args) := splitArgs spelling
    match table.lookup base scope with
    | none => .kind (table.undeclared base args scope)
    | some entry => .ofEntry args entry

theorem mem_of_meaning {table : SymbolTable} {spelling name : String} {scope inner : List String}
    {target : TypeRef} (h : table.meaning spelling scope = .aliasOf name inner target) :
    (name, .synonym inner target) ∈ table.symbols := by
  unfold meaning at h
  split at h
  · cases h
  · simp only at h
    split at h
    · cases h
    · rename_i entry found
      have mem := mem_of_lookup found
      match entry, h with
      | (_, .synonym _ _), h =>
        cases h
        exact mem

/-- Follow aliases from a spelling in a scope, `seen` being followed already. Only the names of a
table are aliases, so the walk ends. -/
def follow (table : SymbolTable) (meaning : String → List String → Meaning)
    (declared : ∀ {spelling name : String} {scope inner : List String} {target : TypeRef},
      meaning spelling scope = .aliasOf name inner target →
        (name, .synonym inner target) ∈ table.symbols)
    (seen : List String) (spelling : String) (scope : List String) : TypeKind :=
  match _h : meaning spelling scope with
  | .kind kind => kind
  | .aliasOf name inner target =>
    if _hs : seen.contains name then .unresolved
    else if target.kind = .unresolved then
      .synonym name (table.follow meaning declared (name :: seen) target.spelling inner)
    else .synonym name target.kind
termination_by (table.unseen seen).length
decreasing_by
  exact length_unseen_lt (declared _h) (by simpa using _hs)

def resolve (table : SymbolTable) (spelling : String) (scope : List String) : TypeKind :=
  table.follow (fun spelling => table.meaning (Text.trim spelling)) mem_of_meaning [] spelling scope

/-- The qualified name of a base with its template arguments, when it is a record. -/
def resolveBase (table : SymbolTable) (spelling : String) (scope : List String) : Option String :=
  match (table.resolve spelling scope).canonical with
  | .record name args => some (name ++ args.getD "")
  | _ => none

/-- Resolve a field of a type; in a template an unknown name counts as a parameter. -/
def resolveField (table : SymbolTable) (scope : List String) (isTemplate : Bool) (f : Field) :
    Field :=
  if f.type.kind = .unresolved then
    let kind := table.resolve f.type.spelling scope
    let kind := if kind = .unresolved && isTemplate then .templated else kind
    { f with type := { f.type with kind } }
  else f

mutual
def resolveType (table : SymbolTable) : TypeDecl → TypeDecl
  | ⟨name, namespaces, enclosing, key, path, span, fields, attributes, bases, visibility, isTemplate,
      nested, enums, aliases⟩ =>
    { name, namespaces, enclosing, key, path, span
      fields := fields.map
        (table.resolveField (namespaces ++ enclosing ++ [name]) isTemplate)
      attributes
      bases := bases.map fun b =>
        { b with resolved := table.resolveBase b.spelling (namespaces ++ enclosing) }
      visibility, isTemplate
      nested := table.resolveTypes nested
      enums, aliases }

def resolveTypes (table : SymbolTable) : List TypeDecl → List TypeDecl
  | [] => []
  | type :: types => table.resolveType type :: table.resolveTypes types
end

mutual
def resolveNamespace (table : SymbolTable) : Namespace → Namespace
  | ⟨name, types, enums, aliases, usings, children⟩ =>
    ⟨name, table.resolveTypes types, enums, aliases, usings, table.resolveNamespaces children⟩

def resolveNamespaces (table : SymbolTable) : List Namespace → List Namespace
  | [] => []
  | ns :: rest => table.resolveNamespace ns :: table.resolveNamespaces rest
end

end SymbolTable

def Namespace.resolved (root : Namespace) : Namespace :=
  (SymbolTable.ofRoot root).resolveNamespace root

end HeaderMeta
