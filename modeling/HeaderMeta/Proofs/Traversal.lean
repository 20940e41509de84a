import HeaderMeta.Proofs.Resolution

/-! The index of a tree and the walk through it meet the same types in the same order.

The index takes namespaces off a stack and passes on what the records around a type allow; the walk
is a plain recursion that knows nothing of either. An `Occurrence` is what both are measured against:
a type with the records around it.
-/

set_option autoImplicit false

namespace HeaderMeta

/-- A type at the place where a walk meets it. -/
structure Occurrence where
  decl : TypeDecl
  /-- The records around it, innermost first. -/
  around : List TypeDecl

namespace Occurrence

def records (o : Occurrence) : List TypeDecl :=
  o.decl :: o.around

def indexed (o : Occurrence) : IndexedType :=
  ⟨o.decl, o.records.all (·.visibility == .pub), o.records.any (·.isTemplate)⟩

def isNew (seen : List String) (o : Occurrence) : Bool :=
  o.decl.name != "" && !seen.contains o.decl.qualifiedName

def sameName (o p : Occurrence) : Bool :=
  o.decl.qualifiedName == p.decl.qualifiedName

/-- Each record is nested in the next one, and the outermost is declared in a namespace. -/
structure Within (root : Namespace) (o : Occurrence) : Prop where
  nested : o.records.IsChain fun inner outer => inner ∈ outer.nested
  declared : ∃ s ∈ root.scopes, ∃ top ∈ s.2.types, o.records.getLast? = some top

end Occurrence

mutual
def TypeDecl.occurrences (around : List TypeDecl) : TypeDecl → List Occurrence
  | ⟨name, namespaces, enclosing, key, path, span, fields, attributes, bases, visibility, isTemplate,
      nested, enums, aliases⟩ =>
    let decl : TypeDecl :=
      ⟨name, namespaces, enclosing, key, path, span, fields, attributes, bases, visibility,
        isTemplate, nested, enums, aliases⟩
    ⟨decl, around⟩ :: TypeDecl.occurrencesAll (decl :: around) nested

def TypeDecl.occurrencesAll (around : List TypeDecl) : List TypeDecl → List Occurrence
  | [] => []
  | type :: types => type.occurrences around ++ TypeDecl.occurrencesAll around types
end

def Namespace.occurrences (root : Namespace) : List Occurrence :=
  root.scopes.flatMap fun s => TypeDecl.occurrencesAll [] s.2.types

section Walk

mutual
theorem TypeDecl.decls_occurrences (around : List TypeDecl) : ∀ d : TypeDecl,
    (d.occurrences around).map (·.decl) = d.walk
  | ⟨name, namespaces, enclosing, key, path, span, fields, attributes, bases, visibility, isTemplate,
      nested, enums, aliases⟩ => by
    rw [TypeDecl.occurrences, TypeDecl.walk, List.map_cons, TypeDecl.decls_occurrencesAll]

theorem TypeDecl.decls_occurrencesAll (around : List TypeDecl) : ∀ ds : List TypeDecl,
    (TypeDecl.occurrencesAll around ds).map (·.decl) = TypeDecl.walkAll ds
  | [] => by rw [TypeDecl.occurrencesAll, TypeDecl.walkAll, List.map_nil]
  | d :: ds => by
    rw [TypeDecl.occurrencesAll, TypeDecl.walkAll, List.map_append, TypeDecl.decls_occurrences,
      TypeDecl.decls_occurrencesAll]
end

theorem Namespace.decls_occurrences (root : Namespace) :
    root.occurrences.map (·.decl) = root.walk := by
  simp only [occurrences, walk_eq, List.map_flatMap, TypeDecl.decls_occurrencesAll]

mutual
/-- Going inwards from a record, the records around it are extended and never changed. -/
theorem TypeDecl.around_occurrences (around : List TypeDecl) : ∀ d : TypeDecl,
    (d :: around).IsChain (fun inner outer => inner ∈ outer.nested) →
      ∀ o ∈ d.occurrences around, o.records.IsChain (fun inner outer => inner ∈ outer.nested) ∧
        o.records.getLast? = (d :: around).getLast?
  | ⟨name, namespaces, enclosing, key, path, span, fields, attributes, bases, visibility, isTemplate,
      nested, enums, aliases⟩, chain, o, mem => by
    rw [TypeDecl.occurrences] at mem
    rcases List.mem_cons.mp mem with rfl | inner
    · exact ⟨chain, rfl⟩
    · obtain ⟨own, e, -, last⟩ := TypeDecl.around_occurrencesAll _ nested
        (fun _ inside => .cons_cons inside chain) o inner
      exact ⟨own, last.trans List.getLast?_cons_cons⟩

theorem TypeDecl.around_occurrencesAll (around : List TypeDecl) : ∀ ds : List TypeDecl,
    (∀ d ∈ ds, (d :: around).IsChain fun inner outer => inner ∈ outer.nested) →
      ∀ o ∈ TypeDecl.occurrencesAll around ds,
        o.records.IsChain (fun inner outer => inner ∈ outer.nested) ∧
          ∃ d ∈ ds, o.records.getLast? = (d :: around).getLast?
  | [], _, o, mem => by
    rw [TypeDecl.occurrencesAll] at mem
    cases mem
  | d :: ds, chains, o, mem => by
    obtain ⟨first, others⟩ := List.forall_mem_cons.mp chains
    rw [TypeDecl.occurrencesAll] at mem
    rcases List.mem_append.mp mem with here | later
    · obtain ⟨chain, last⟩ := TypeDecl.around_occurrences around d first o here
      exact ⟨chain, d, List.mem_cons_self, last⟩
    · obtain ⟨chain, e, inside, last⟩ := TypeDecl.around_occurrencesAll around ds others o later
      exact ⟨chain, e, List.mem_cons_of_mem d inside, last⟩
end

theorem Namespace.within_occurrences {root : Namespace} {o : Occurrence}
    (mem : o ∈ root.occurrences) : o.Within root := by
  obtain ⟨s, space, inside⟩ := List.mem_flatMap.mp mem
  obtain ⟨chain, top, declared, last⟩ :=
    TypeDecl.around_occurrencesAll [] s.2.types (fun _ _ => .singleton _) o inside
  exact ⟨chain, s, space, top, declared, last⟩

end Walk

namespace TypeIndex

section Entries

mutual
theorem typeEntries_eq (around : List TypeDecl) : ∀ d : TypeDecl,
    typeEntries (around.all (·.visibility == .pub)) (around.any (·.isTemplate)) d =
      (d.occurrences around).map Occurrence.indexed
  | ⟨name, namespaces, enclosing, key, path, span, fields, attributes, bases, visibility, isTemplate,
      nested, enums, aliases⟩ => by
    rw [TypeDecl.occurrences, List.map_cons, ← typesEntries_occurrences, typeEntries]
    simp only [Occurrence.indexed, Occurrence.records, List.all_cons, List.any_cons, Bool.and_comm,
      Bool.or_comm]

theorem typesEntries_occurrences (around : List TypeDecl) : ∀ ds : List TypeDecl,
    typesEntries (around.all (·.visibility == .pub)) (around.any (·.isTemplate)) ds =
      (TypeDecl.occurrencesAll around ds).map Occurrence.indexed
  | [] => by rw [typesEntries, TypeDecl.occurrencesAll, List.map_nil]
  | d :: ds => by
    rw [typesEntries, TypeDecl.occurrencesAll, List.map_append, typeEntries_eq,
      typesEntries_occurrences]
end

mutual
theorem namespaceEntries_scopes : ∀ ns : Namespace,
    namespaceEntries ns = ns.scopes.flatMap fun s => typesEntries true false s.2.types
  | ⟨name, types, enums, aliases, usings, children⟩ => by
    rw [namespaceEntries, Namespace.scopes, List.flatMap_cons, namespacesEntries_scopes]

theorem namespacesEntries_scopes : ∀ all : List Namespace,
    namespacesEntries all =
      (Namespace.scopesAll all).flatMap fun s => typesEntries true false s.2.types
  | [] => by rw [namespacesEntries, Namespace.scopesAll, List.flatMap_nil]
  | ns :: rest => by
    rw [namespacesEntries, Namespace.scopesAll, List.flatMap_append, namespaceEntries_scopes,
      namespacesEntries_scopes, List.flatMap_map]
end

theorem namespaceEntries_eq (root : Namespace) :
    namespaceEntries root = root.occurrences.map Occurrence.indexed := by
  rw [namespaceEntries_scopes, Namespace.occurrences, List.map_flatMap]
  exact List.flatMap_congr fun s _ => typesEntries_occurrences [] s.2.types

/-- Keeping the first of each name leaves out what was seen, and then what comes again. -/
theorem firsts_map (seen : List String) (os : List Occurrence) :
    firsts seen (os.map Occurrence.indexed) =
      ((os.filter (·.isNew seen)).eraseDupsBy Occurrence.sameName).map Occurrence.indexed := by
  induction os generalizing seen with
  | nil => rfl
  | cons o os ih =>
    have asked : (decide (o.indexed.decl.name = "") || seen.contains o.indexed.name) =
        !o.isNew seen := by
      by_cases named : o.decl.name = "" <;>
        simp [Occurrence.isNew, Occurrence.indexed, IndexedType.name, named]
    rw [List.map_cons, firsts, asked]
    cases new : o.isNew seen with
    | true =>
      have others : os.filter (·.isNew (o.decl.qualifiedName :: seen)) =
          (os.filter (·.isNew seen)).filter fun p => decide (p.sameName o = false) := by
        rw [List.filter_filter]
        refine List.filter_congr fun p _ => ?_
        rw [Occurrence.isNew, List.contains_cons, Bool.not_or, Bool.decide_eq_false]
        exact Bool.and_left_comm ..
      rw [List.filter_cons_of_pos new, List.eraseDupsBy_cons, List.map_cons, ← others, ← ih]
      rfl
    | false =>
      rw [List.filter_cons_of_neg (by simp [new]), ← ih]
      rfl

theorem eraseDupsBy_map {α β : Type} (f : α → β) (r : β → β → Bool) (as : List α) :
    (as.map f).eraseDupsBy r = (as.eraseDupsBy fun a b => r (f a) (f b)).map f := by
  induction length : as.length using Nat.strongRecOn generalizing as with
  | ind size ih =>
    cases as with
    | nil => rfl
    | cons a as =>
      have shorter := List.length_filter_le (fun b => decide (r (f b) (f a) = false)) as
      rw [List.map_cons, List.eraseDupsBy_cons, List.eraseDupsBy_cons, List.map_cons, List.filter_map,
        Function.comp_def, ih _ (by simp only [List.length_cons] at length; omega) _ rfl]

end Entries

/-- The index of a tree has the named types of the walk, the first of each qualified name, in the
order of the walk. A type is accessible when it and every record around it are public, and it counts
as a template when it or one of them is. -/
theorem ofRoot_follows_walk (root : Namespace) :
    let index := ofRoot root
    let kept := (root.occurrences.filter (·.decl.name != "")).eraseDupsBy Occurrence.sameName
    index.entries.map (·.decl) =
      (root.walk.filter (·.name != "")).eraseDupsBy (·.qualifiedName == ·.qualifiedName) ∧
    root.occurrences.map (·.decl) = root.walk ∧
    (∀ o ∈ root.occurrences, o.Within root) ∧
    List.Forall₂ (fun (o : Occurrence) (t : IndexedType) => t.decl = o.decl ∧
      (t.accessible = true ↔ ∀ r ∈ o.records, r.visibility = .pub) ∧
      (t.templated = true ↔ ∃ r ∈ o.records, r.isTemplate = true)) kept index.entries := by
  intro index kept
  have entries : index.entries = kept.map Occurrence.indexed := by
    have from_occurrences := firsts_map [] root.occurrences
    simp only [Occurrence.isNew, List.contains_nil, Bool.not_false, Bool.and_true]
      at from_occurrences
    simp only [index, kept, ofRoot_eq, namespaceEntries_eq, from_occurrences]
  refine ⟨?_, root.decls_occurrences, fun o mem => Namespace.within_occurrences mem, ?_⟩
  · rw [entries, ← root.decls_occurrences, List.filter_map, eraseDupsBy_map, List.map_map]
    rfl
  · rw [entries, List.forall₂_map_right_iff, List.forall₂_same]
    exact fun o _ => ⟨rfl, by simp [Occurrence.indexed], by simp [Occurrence.indexed]⟩

end TypeIndex

end HeaderMeta
