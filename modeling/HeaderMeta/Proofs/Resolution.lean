import HeaderMeta.Proofs.Aliases
import HeaderMeta.Proofs.Linking
import HeaderMeta.Proofs.Resolution.Reading

/-! Names that come out of resolution are names of the tree.

The symbol table holds what the tree declares and nothing else, and a kind that names something has
the name from the table, or it is a record of the standard library. The index of types is made from
the same tree, so a record that a field nests is found again when cycles are looked for.
-/

set_option autoImplicit false

namespace HeaderMeta

theorem TypeKind.aliases_of_isWritten {kind : TypeKind} (written : kind.isWritten = true) :
    kind.aliases = [] := by
  cases kind <;> first | rfl | cases written

section Symbols

def TypeDecl.symbols (t : TypeDecl) : List (String × Symbol) :=
  (t.qualifiedName, .record) ::
    (SymbolTable.enumSymbols t.enums ++ SymbolTable.aliasSymbols t.aliases)

namespace SymbolTable

mutual
theorem typeSymbols_eq : ∀ d : TypeDecl, typeSymbols d = d.walk.flatMap TypeDecl.symbols
  | ⟨name, namespaces, enclosing, key, path, span, fields, attributes, bases, visibility, isTemplate,
      nested, enums, aliases⟩ => by
    rw [typeSymbols, TypeDecl.walk, List.flatMap_cons, typesSymbols_eq]
    rfl

theorem typesSymbols_eq :
    ∀ ds : List TypeDecl, typesSymbols ds = (TypeDecl.walkAll ds).flatMap TypeDecl.symbols
  | [] => by rw [typesSymbols, TypeDecl.walkAll, List.flatMap_nil]
  | d :: ds => by
    rw [typesSymbols, TypeDecl.walkAll, List.flatMap_append, typeSymbols_eq, typesSymbols_eq]
end

end SymbolTable

def Namespace.symbols (ns : Namespace) : List (String × Symbol) :=
  (TypeDecl.walkAll ns.types).flatMap TypeDecl.symbols ++ SymbolTable.enumSymbols ns.enums ++
    SymbolTable.aliasSymbols ns.aliases

namespace SymbolTable

mutual
theorem symbols_ofScope (scope : List String) : ∀ ns : Namespace,
    (ofScope scope ns).symbols = ns.scopes.flatMap (·.2.symbols)
  | ⟨name, types, enums, aliases, usings, children⟩ => by
    rw [ofScope, Namespace.scopes, List.flatMap_cons, ← symbols_ofChildren, typesSymbols_eq]
    rfl

theorem symbols_ofChildren (scope : List String) : ∀ all : List Namespace,
    (ofChildren scope all).symbols = (Namespace.scopesAll all).flatMap (·.2.symbols)
  | [] => by rw [ofChildren, Namespace.scopesAll, List.flatMap_nil]
  | ns :: rest => by
    rw [ofChildren, Namespace.scopesAll, List.flatMap_append, ← symbols_ofChildren scope rest,
      List.flatMap_map, symbols_ofScope]
end

end SymbolTable

namespace Namespace
variable {root : Namespace}

/-- The tree declares what an entry of a symbol table names. -/
def Declares (root : Namespace) : String × Symbol → Prop
  | (q, .record) => ∃ t ∈ root.walk, t.qualifiedName = q
  | (q, .enumeration) => ∃ d ∈ root.enumsWithin, d.qualifiedName = q
  | (q, .synonym scope target) =>
    ∃ a ∈ root.aliasesWithin, a.qualifiedName = q ∧ a.scope = scope ∧ a.target = target

theorem declares_enumSymbols {enums : List EnumDecl} (within : enums ⊆ root.enumsWithin) :
    ∀ entry ∈ SymbolTable.enumSymbols enums, root.Declares entry := by
  intro entry mem
  obtain ⟨d, named, rfl⟩ := List.mem_map.mp mem
  exact ⟨d, within (List.mem_of_mem_filter named), rfl⟩

theorem declares_aliasSymbols {aliases : List AliasDecl} (within : aliases ⊆ root.aliasesWithin) :
    ∀ entry ∈ SymbolTable.aliasSymbols aliases, root.Declares entry := by
  intro entry mem
  obtain ⟨a, inside, rfl⟩ := List.mem_map.mp mem
  exact ⟨a, within inside, rfl, rfl, rfl⟩

theorem declares_of_mem_symbols {entry : String × Symbol}
    (mem : entry ∈ (SymbolTable.ofRoot root).symbols) : root.Declares entry := by
  rw [SymbolTable.ofRoot, SymbolTable.symbols_ofScope] at mem
  obtain ⟨s, space, mem⟩ := List.mem_flatMap.mp mem
  rcases List.mem_append.mp mem with mem | aliased
  · rcases List.mem_append.mp mem with typed | enumerated
    · obtain ⟨t, inside, mem⟩ := List.mem_flatMap.mp typed
      have walked : t ∈ root.walk := by
        rw [walk_eq]
        exact List.mem_flatMap.mpr ⟨s, space, inside⟩
      rcases List.mem_cons.mp mem with rfl | member
      · exact ⟨t, walked, rfl⟩
      · rcases List.mem_append.mp member with enumerated | aliased
        · refine declares_enumSymbols (fun d own => ?_) entry enumerated
          exact List.mem_append_right _ (List.mem_flatMap.mpr ⟨t, walked, own⟩)
        · refine declares_aliasSymbols (fun d own => ?_) entry aliased
          exact List.mem_append_right _ (List.mem_flatMap.mpr ⟨t, walked, own⟩)
    · refine declares_enumSymbols (fun d own => ?_) entry enumerated
      exact List.mem_append_left _ (List.mem_flatMap.mpr ⟨s, space, own⟩)
  · refine declares_aliasSymbols (fun d own => ?_) entry aliased
    exact List.mem_append_left _ (List.mem_flatMap.mpr ⟨s, space, own⟩)

end Namespace

end Symbols

section Kinds
variable {table : SymbolTable} {spelling q : String} {scope names : List String} {kind : TypeKind}
  {args : Option String}

theorem isStdName_std (base : String) : isStdName ("std::" ++ base) = true := by
  have whole : ("std::" ++ base).toList = ['s', 't', 'd', ':', ':'] ++ base.toList :=
    String.toList_append
  have kept : Text.trimLeads "::" ("std::" ++ base) = "std::" ++ base := by
    have same : Text.dropLeads [':', ':'] ("std::" ++ base).toList = ("std::" ++ base).toList := by
      rw [whole, Text.dropLeads]
      rfl
    exact (congrArg String.ofList same).trans String.ofList_toList
  unfold isStdName
  rw [kept]
  have leads : Text.startsWith ("std::" ++ base) "std::" = true := by
    rw [Text.startsWith, whole]
    rfl
  simp [leads]

namespace SymbolTable

def Written (table : SymbolTable) : Prop :=
  ∀ name inner target, (name, .synonym inner target) ∈ table.symbols → target.kind.isWritten = true

/-- The names that a kind may have when it comes from the table: those of the table, and for records
those of the standard library. -/
def Grounds (table : SymbolTable) : TypeKind → Prop
  | .enumeration q => (q, .enumeration) ∈ table.symbols
  | .record q _ => (q, .record) ∈ table.symbols ∨ isStdName q = true
  | _ => True

theorem grounds_undeclared (base : String) : table.Grounds (table.undeclared base args scope) := by
  unfold undeclared
  dsimp only
  split
  next std => exact .inr std
  · split
    · exact .inr (isStdName_std _)
    · trivial

theorem grounds_of_denotes (means : table.denotes spelling scope = .kind kind) :
    table.Grounds kind := by
  unfold denotes meaning at means
  split at means
  · cases means
    trivial
  · dsimp only at means
    split at means
    · cases means
      exact grounds_undeclared _
    next entry found =>
      have mem := mem_of_lookup found
      obtain ⟨own, symbol⟩ := entry
      cases symbol with
      | record =>
        cases means
        exact .inl mem
      | enumeration =>
        cases means
        exact mem
      | synonym => cases means

theorem grounds_of_isWritten (written : kind.isWritten = true) : table.Grounds kind := by
  cases kind <;> trivial

theorem Reaches.grounds (written : table.Written)
    (reaches : table.Reaches spelling scope names kind) : table.Grounds kind := by
  induction reaches with
  | kind means => exact grounds_of_denotes means
  | shown means shown => exact grounds_of_isWritten (written _ _ _ (mem_of_meaning means))
  | more means bare rest ih => exact ih

theorem Written.plain (written : table.Written) : table.Plain :=
  fun name inner target mem => TypeKind.aliases_of_isWritten (written name inner target mem)

/-- Whatever a spelling resolves to, under all aliases it has a name from the table or none. -/
theorem grounds_resolve (written : table.Written) (spelling : String) (scope : List String) :
    table.Grounds (table.resolve spelling scope).canonical := by
  obtain ⟨names, kind, resolved, -, -, outcome⟩ := exists_outcome mem_of_meaning [] spelling scope
  have resolved : table.resolve spelling scope = kind.under names := resolved
  rw [resolved, TypeKind.canonical_under]
  cases outcome with
  | reached reaches =>
    rw [TypeKind.canonical_of_aliases_eq_nil (reaches.aliases_eq_nil written.plain)]
    exact reaches.grounds written
  | stopped => trivial

end SymbolTable

end Kinds

section Trees
variable (table : SymbolTable)

theorem SymbolTable.scope_resolveType (d : TypeDecl) :
    (table.resolveType d).scope = d.scope := by
  obtain ⟨⟩ := d
  rw [SymbolTable.resolveType]
  rfl

theorem SymbolTable.fields_resolveType (d : TypeDecl) :
    (table.resolveType d).fields = d.fields.map (table.resolveField d.scope d.isTemplate) := by
  obtain ⟨⟩ := d
  rw [SymbolTable.resolveType]
  rfl

theorem SymbolTable.bases_resolveType (d : TypeDecl) : (table.resolveType d).bases =
    d.bases.map fun b => { b with resolved := table.resolveBase b.spelling d.parentScope } := by
  obtain ⟨⟩ := d
  rw [SymbolTable.resolveType]
  rfl

mutual
theorem TypeDecl.walk_resolveType : ∀ d : TypeDecl,
    (table.resolveType d).walk = d.walk.map table.resolveType
  | ⟨name, namespaces, enclosing, key, path, span, fields, attributes, bases, visibility, isTemplate,
      nested, enums, aliases⟩ => by
    rw [TypeDecl.walk, List.map_cons, ← TypeDecl.walkAll_resolveTypes, SymbolTable.resolveType,
      TypeDecl.walk]

theorem TypeDecl.walkAll_resolveTypes : ∀ ds : List TypeDecl,
    TypeDecl.walkAll (table.resolveTypes ds) = (TypeDecl.walkAll ds).map table.resolveType
  | [] => by rw [SymbolTable.resolveTypes, TypeDecl.walkAll, List.map_nil]
  | d :: ds => by
    rw [SymbolTable.resolveTypes, TypeDecl.walkAll, TypeDecl.walkAll, List.map_append,
      TypeDecl.walk_resolveType, TypeDecl.walkAll_resolveTypes]
end

mutual
theorem Namespace.scopes_resolveNamespace : ∀ ns : Namespace,
    (table.resolveNamespace ns).scopes = ns.scopes.map fun s => (s.1, table.resolveNamespace s.2)
  | ⟨name, types, enums, aliases, usings, children⟩ => by
    rw [Namespace.scopes, List.map_cons, ← Namespace.scopesAll_resolveNamespaces,
      SymbolTable.resolveNamespace, Namespace.scopes]

theorem Namespace.scopesAll_resolveNamespaces : ∀ all : List Namespace,
    Namespace.scopesAll (table.resolveNamespaces all) =
      (Namespace.scopesAll all).map fun s => (s.1, table.resolveNamespace s.2)
  | [] => by rw [SymbolTable.resolveNamespaces, Namespace.scopesAll, List.map_nil]
  | ns :: rest => by
    have named : (table.resolveNamespace ns).name = ns.name := by
      obtain ⟨⟩ := ns
      rw [SymbolTable.resolveNamespace]
    rw [SymbolTable.resolveNamespaces, Namespace.scopesAll, Namespace.scopesAll, List.map_append,
      Namespace.scopes_resolveNamespace, Namespace.scopesAll_resolveNamespaces, List.map_map,
      List.map_map, named]
    rfl
end

end Trees

namespace Namespace
variable (table : SymbolTable) (ns : Namespace)

theorem walk_resolveNamespace :
    (table.resolveNamespace ns).walk = ns.walk.map table.resolveType := by
  have types (ns : Namespace) :
      (table.resolveNamespace ns).types = table.resolveTypes ns.types := by
    obtain ⟨⟩ := ns
    rw [SymbolTable.resolveNamespace]
  rw [walk_eq, walk_eq, scopes_resolveNamespace, List.flatMap_map, List.map_flatMap]
  refine List.flatMap_congr fun s _ => ?_
  rw [types, TypeDecl.walkAll_resolveTypes]

theorem enumsWithin_resolveNamespace :
    (table.resolveNamespace ns).enumsWithin = ns.enumsWithin := by
  have own (ns : Namespace) : (table.resolveNamespace ns).enums = ns.enums := by
    obtain ⟨⟩ := ns
    rw [SymbolTable.resolveNamespace]
  have inner (d : TypeDecl) : (table.resolveType d).enums = d.enums := by
    obtain ⟨⟩ := d
    rw [SymbolTable.resolveType]
  rw [enumsWithin, enumsWithin, walk_resolveNamespace, scopes_resolveNamespace, List.flatMap_map,
    List.flatMap_map]
  simp only [own, inner]

end Namespace

namespace TypeIndex

mutual
theorem decls_typeEntries (accessible templated : Bool) : ∀ d : TypeDecl,
    (typeEntries accessible templated d).map (·.decl) = d.walk
  | ⟨name, namespaces, enclosing, key, path, span, fields, attributes, bases, visibility, isTemplate,
      nested, enums, aliases⟩ => by
    rw [typeEntries, TypeDecl.walk, List.map_cons, decls_typesEntries]

theorem decls_typesEntries (accessible templated : Bool) : ∀ ds : List TypeDecl,
    (typesEntries accessible templated ds).map (·.decl) = TypeDecl.walkAll ds
  | [] => by rw [typesEntries, TypeDecl.walkAll, List.map_nil]
  | d :: ds => by
    rw [typesEntries, TypeDecl.walkAll, List.map_append, decls_typeEntries, decls_typesEntries]
end

mutual
theorem decls_namespaceEntries : ∀ ns : Namespace,
    (namespaceEntries ns).map (·.decl) = ns.walk
  | ⟨name, types, enums, aliases, usings, children⟩ => by
    rw [namespaceEntries, Namespace.walk, List.map_append, decls_typesEntries,
      decls_namespacesEntries]

theorem decls_namespacesEntries : ∀ all : List Namespace,
    (namespacesEntries all).map (·.decl) = Namespace.walkAll all
  | [] => by rw [namespacesEntries, Namespace.walkAll, List.map_nil]
  | ns :: rest => by
    rw [namespacesEntries, Namespace.walkAll, List.map_append, decls_namespaceEntries,
      decls_namespacesEntries]
end

/-- A name that is passed over was there before. -/
theorem mem_names_firsts (seen : List String) {ts : List IndexedType} {t : IndexedType}
    (mem : t ∈ ts) (named : t.decl.name ≠ "") :
    t.name ∈ seen ∨ t.name ∈ (firsts seen ts).map IndexedType.name := by
  fun_induction firsts seen ts with
  | case1 => cases mem
  | case2 seen u ts passed ih =>
    rcases List.mem_cons.mp mem with rfl | later
    · simp only [named, decide_false, Bool.false_or, List.contains_iff_mem] at passed
      exact .inl passed
    · exact ih later
  | case3 seen u ts new ih =>
    rw [List.map_cons, List.mem_cons]
    rcases List.mem_cons.mp mem with rfl | later
    · exact .inr (.inl rfl)
    · rcases ih later with old | kept
      · rcases List.mem_cons.mp old with same | old
        · exact .inr (.inl same)
        · exact .inl old
      · exact .inr (.inr kept)

/-- The index of a tree has every named type of it. -/
theorem mem_names_ofRoot {root : Namespace} {t : TypeDecl} (mem : t ∈ root.walk)
    (named : t.name ≠ "") : t.qualifiedName ∈ (ofRoot root).names := by
  rw [← decls_namespaceEntries] at mem
  obtain ⟨entry, inside, rfl⟩ := List.mem_map.mp mem
  rw [ofRoot_eq]
  exact (mem_names_firsts [] inside named).resolve_left List.not_mem_nil

theorem mem_walk_of_decl? {root : Namespace} {q : String} {d : TypeDecl}
    (found : (ofRoot root).decl? q = some d) : d ∈ root.walk := by
  rw [ofRoot_eq] at found
  obtain ⟨entry, got, rfl⟩ := Option.map_eq_some_iff.mp found
  rw [← decls_namespaceEntries]
  exact List.mem_map_of_mem (f := (·.decl)) (mem_firsts (List.mem_of_find?_eq_some got)).1

end TypeIndex

section Resolved
variable {root : Namespace}

/-- The tree knows a record of this name, or it is one of the standard library. -/
def Namespace.KnowsRecord (root : Namespace) (q : String) : Prop :=
  isStdName q = true ∨ ∃ t ∈ root.walk, t.qualifiedName = q

structure Namespace.NamesDeclared (tree : Namespace) (table : SymbolTable) : Prop where
  enumerations : ∀ t ∈ tree.walk, ∀ f ∈ t.fields, ∀ q, f.type.kind.canonical = .enumeration q →
    ∃ d ∈ tree.enumsWithin, d.qualifiedName = q
  records : ∀ t ∈ tree.walk, ∀ f ∈ t.fields, ∀ q args, f.type.kind.canonical = .record q args →
    tree.KnowsRecord q
  bases : ∀ t ∈ tree.walk, ∀ b ∈ t.bases, ∀ r, b.resolved = some r → ∃ q args,
    (table.resolve b.spelling t.parentScope).canonical = .record q args ∧ r = q ++ args.getD "" ∧
      tree.KnowsRecord q
  nested : ∀ t ∈ tree.walk, ∀ f ∈ t.fields, ∀ q, f.memberClass = .nested q →
    ∃ d ∈ tree.walk, (TypeIndex.ofRoot tree).decl? q = some d ∧ d.qualifiedName = q
  /-- Looking for cycles, every type of the tree and every record reached from one is visited. -/
  visited : (∀ t ∈ tree.walk, t.qualifiedName ∈ (TypeIndex.ofRoot tree).nestedGraph.nodes) ∧
    ∀ a, ∀ b ∈ (TypeIndex.ofRoot tree).nestedGraph.next a,
      b ∈ (TypeIndex.ofRoot tree).nestedGraph.nodes

theorem SymbolTable.grounds_resolveField {table : SymbolTable} (own : table.Written)
    (scope : List String) (isTemplate : Bool) {f : Field} (written : f.type.kind.isWritten = true) :
    table.Grounds (table.resolveField scope isTemplate f).type.kind.canonical := by
  unfold resolveField
  split
  next =>
    dsimp only
    split
    · trivial
    · exact grounds_resolve own _ _
  next =>
    rw [TypeKind.canonical_of_aliases_eq_nil (TypeKind.aliases_of_isWritten written)]
    exact grounds_of_isWritten written

theorem Field.canonical_of_nested {f : Field} {q : String} (nests : f.memberClass = .nested q) :
    f.type.kind.canonical = .record q none ∧ isStdName q = false := by
  unfold memberClass at nests
  split at nests
  · unfold TypeKind.memberClass at nests
    split at nests
    case h_3 name args canonical =>
      split at nests
      · cases nests
      next own =>
        split at nests
        · cases nests
        next bare =>
          cases nests
          have noArgs : args = none := by simpa using bare
          exact ⟨by rw [canonical, noArgs], by simpa using own⟩
    all_goals cases nests
  · cases nests

theorem SymbolTable.written_ofRoot (written : root.Written) : (ofRoot root).Written := by
  intro name inner target mem
  obtain ⟨a, inside, -, -, rfl⟩ := Namespace.declares_of_mem_symbols mem
  exact written.aliases a inside

namespace Namespace

theorem mem_walk_resolved {t : TypeDecl} : t ∈ root.resolved.walk ↔
    ∃ d ∈ root.walk, (SymbolTable.ofRoot root).resolveType d = t := by
  rw [resolved, walk_resolveNamespace, List.mem_map]

theorem knowsRecord_of_grounds {q : String} {args : Option String}
    (grounds : (SymbolTable.ofRoot root).Grounds (.record q args)) :
    root.resolved.KnowsRecord q := by
  refine grounds.symm.imp id fun mem => ?_
  obtain ⟨t, inside, named⟩ := declares_of_mem_symbols mem
  refine ⟨_, mem_walk_resolved.mpr ⟨t, inside, rfl⟩, ?_⟩
  rw [← named, TypeDecl.qualifiedName, SymbolTable.scope_resolveType, TypeDecl.qualifiedName]

theorem grounds_field (written : root.Written) {t : TypeDecl} (mem : t ∈ root.resolved.walk)
    {f : Field} (field : f ∈ t.fields) :
    (SymbolTable.ofRoot root).Grounds f.type.kind.canonical := by
  obtain ⟨d, inside, rfl⟩ := mem_walk_resolved.mp mem
  rw [SymbolTable.fields_resolveType] at field
  obtain ⟨own, before, rfl⟩ := List.mem_map.mp field
  exact SymbolTable.grounds_resolveField (SymbolTable.written_ofRoot written) _ _
    (written.fields d inside own before)

theorem named_resolved (written : root.Written) : ∀ t ∈ root.resolved.walk, t.name ≠ "" := by
  intro t mem
  obtain ⟨d, inside, rfl⟩ := mem_walk_resolved.mp mem
  have named := written.named d inside
  obtain ⟨⟩ := d
  rwa [SymbolTable.resolveType]

theorem exists_base {t : TypeDecl} (written : root.Written) (mem : t ∈ root.resolved.walk)
    {b : Base} (base : b ∈ t.bases) {r : String} (found : b.resolved = some r) : ∃ q args,
    ((SymbolTable.ofRoot root).resolve b.spelling t.parentScope).canonical = .record q args ∧
      r = q ++ args.getD "" ∧ root.resolved.KnowsRecord q := by
  obtain ⟨d, inside, rfl⟩ := mem_walk_resolved.mp mem
  have place : ((SymbolTable.ofRoot root).resolveType d).parentScope = d.parentScope := by
    obtain ⟨⟩ := d
    rw [SymbolTable.resolveType]
    rfl
  rw [SymbolTable.bases_resolveType] at base
  obtain ⟨own, -, rfl⟩ := List.mem_map.mp base
  have grounds := SymbolTable.grounds_resolve (SymbolTable.written_ofRoot written) own.spelling
    d.parentScope
  rw [place]
  dsimp only at found ⊢
  unfold SymbolTable.resolveBase at found
  split at found
  next q args canonical =>
    cases found
    rw [canonical] at grounds
    exact ⟨q, args, canonical, rfl, knowsRecord_of_grounds grounds⟩
  next => cases found

theorem exists_nested {t : TypeDecl} (written : root.Written) (mem : t ∈ root.resolved.walk)
    {f : Field} (field : f ∈ t.fields) {q : String} (nests : f.memberClass = .nested q) :
    ∃ d ∈ root.resolved.walk, (TypeIndex.ofRoot root.resolved).decl? q = some d ∧
      d.qualifiedName = q := by
  have canonical := Field.canonical_of_nested nests
  have grounds := grounds_field written mem field
  rw [canonical.1] at grounds
  obtain std | ⟨u, inside, rfl⟩ := knowsRecord_of_grounds grounds
  · simp [canonical.2] at std
  · have indexed := TypeIndex.mem_names_ofRoot inside (named_resolved written u inside)
    obtain ⟨d, found⟩ := TypeIndex.exists_decl? indexed
    exact ⟨d, TypeIndex.mem_walk_of_decl? found, found, TypeIndex.qualifiedName_of_decl? found⟩

end Namespace

/-- Resolution of a tree gives names that the tree declares, and names of the standard library. -/
theorem Namespace.resolved_names_declared (written : root.Written) :
    root.resolved.NamesDeclared (.ofRoot root) where
  enumerations t mem f field q canonical := by
    have grounds := grounds_field written mem field
    rw [canonical] at grounds
    rw [resolved, enumsWithin_resolveNamespace]
    exact declares_of_mem_symbols grounds
  records t mem f field q args canonical := by
    have grounds := grounds_field written mem field
    rw [canonical] at grounds
    exact knowsRecord_of_grounds grounds
  bases t mem b base r found := exists_base written mem base found
  nested t mem f field q nests := exists_nested written mem field nests
  visited := by
    refine ⟨fun t mem => TypeIndex.mem_names_ofRoot mem (named_resolved written t mem), ?_⟩
    intro a b next
    cases found : (TypeIndex.ofRoot root.resolved).decl? a with
    | none => simp [TypeIndex.nestedGraph, found] at next
    | some decl =>
      have edge := TypeIndex.nestedGraph_edge_iff.mp ⟨TypeIndex.mem_names_of_decl? found, next⟩
      obtain ⟨d, here, f, field, nests⟩ := edge
      obtain ⟨_, -, target, -⟩ :=
        exists_nested written (TypeIndex.mem_walk_of_decl? here) field nests
      exact TypeIndex.mem_names_of_decl? target

/-- Two headers: a record with a field of each sort and a base, and the names it needs, declared in a
namespace that is only made visible. -/
def twoScopes : Namespace × List (String × Path) :=
  (Header.read ⟨⟨"a.hpp"⟩,
    "using namespace n;
    using Part = n::B;
    struct A : H<int> \x7b Tint tint; Part part; std::string text; B* other; \x7d;"⟩).root.merge
    (Header.read ⟨⟨"b.hpp"⟩,
    "namespace n \x7b
      struct B \x7b A whole; \x7d;
      template<class T> struct H \x7b\x7d;
      enum class Tint \x7b cold, warm \x7d;
    \x7d"⟩).root

theorem read_twoScopes :
    (∀ t ∈ twoScopes.1.walk, t.name ≠ "") ∧
      twoScopes.1.resolved.walk.map (fun t => (t.qualifiedName, t.fields.map Field.memberClass)) =
        [("A", [.primitive, .nested "n::B", .primitive, .skip .indirection]),
          ("n::B", [.nested "A"]), ("n::H", [])] ∧
      twoScopes.1.resolved.walk.map (fun t => t.bases.map Base.resolved) =
        [[some "n::H<int>"], [], []] := by
  decide +kernel

theorem Namespace.resolved_names_declared_twoScopes :
    twoScopes.1.Written ∧ twoScopes.1.resolved.NamesDeclared (.ofRoot twoScopes.1) ∧
      twoScopes.1.resolved.walk.map (fun t => (t.qualifiedName, t.fields.map Field.memberClass)) =
        [("A", [.primitive, .nested "n::B", .primitive, .skip .indirection]),
          ("n::B", [.nested "A"]), ("n::H", [])] ∧
      twoScopes.1.resolved.walk.map (fun t => t.bases.map Base.resolved) =
        [[some "n::H<int>"], [], []] := by
  have shown : twoScopes.1.Shown := (Header.shown_read _).merge (Header.shown_read _)
  have written : twoScopes.1.Written := shown.written read_twoScopes.1
  exact ⟨written, Namespace.resolved_names_declared written, read_twoScopes.2⟩

end Resolved

end HeaderMeta
