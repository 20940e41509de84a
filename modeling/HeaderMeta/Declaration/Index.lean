import HeaderMeta.Declaration.Namespace

/-! Types of a tree by qualified name, in declaration order; the first definition of a name counts.
Unnamed types are left out.

Namespaces wait on a stack. `ofRoot_eq` says that they are met in the order of a plain recursion.
-/

set_option autoImplicit false

namespace HeaderMeta

/-- A type with what its surroundings allow. -/
structure IndexedType where
  decl : TypeDecl
  /-- Public all the way up through the records around it. -/
  accessible : Bool
  /-- Declared as a template or inside one. -/
  templated : Bool

def IndexedType.name (t : IndexedType) : String :=
  t.decl.qualifiedName

mutual
def Namespace.size : Namespace → Nat
  | ⟨_, _, _, _, _, children⟩ => Namespace.sizeAll children + 1

def Namespace.sizeAll : List Namespace → Nat
  | [] => 0
  | ns :: rest => ns.size + Namespace.sizeAll rest
end

theorem Namespace.sizeAll_append (all more : List Namespace) :
    sizeAll (all ++ more) = sizeAll all + sizeAll more := by
  induction all with
  | nil => rw [List.nil_append, sizeAll, Nat.zero_add]
  | cons ns rest ih => rw [List.cons_append, sizeAll, sizeAll, ih, Nat.add_assoc]

structure TypeIndex where
  entries : List IndexedType

namespace TypeIndex

mutual
def typeEntries (accessible templated : Bool) : TypeDecl → List IndexedType
  | ⟨name, namespaces, enclosing, key, path, span, fields, attributes, bases, visibility, isTemplate,
      nested, enums, aliases⟩ =>
    let decl : TypeDecl :=
      ⟨name, namespaces, enclosing, key, path, span, fields, attributes, bases, visibility,
        isTemplate, nested, enums, aliases⟩
    let accessible := accessible && visibility == .pub
    let templated := templated || isTemplate
    ⟨decl, accessible, templated⟩ :: typesEntries accessible templated nested

def typesEntries (accessible templated : Bool) : List TypeDecl → List IndexedType
  | [] => []
  | type :: types =>
    typeEntries accessible templated type ++ typesEntries accessible templated types
end

mutual
def namespaceEntries : Namespace → List IndexedType
  | ⟨_, types, _, _, _, children⟩ => typesEntries true false types ++ namespacesEntries children

def namespacesEntries : List Namespace → List IndexedType
  | [] => []
  | ns :: rest => namespaceEntries ns ++ namespacesEntries rest
end

def push (children stack : List Namespace) : List Namespace :=
  children.reverse.foldl (fun stack ns => ns :: stack) stack

theorem push_eq (children stack : List Namespace) : push children stack = children ++ stack := by
  simp [push]

theorem sizeAll_push (ns : Namespace) (stack : List Namespace) :
    Namespace.sizeAll (push ns.children stack) + 1 = Namespace.sizeAll (ns :: stack) := by
  obtain ⟨⟩ := ns
  simp only [push_eq, Namespace.sizeAll_append, Namespace.sizeAll, Namespace.size]
  omega

/-- The entries of the namespaces on a stack and of all below them, `rounds` of them at most. A
namespace that is taken off leaves its children in its place. -/
def stackEntries : (rounds : Nat) → (stack : List Namespace) → List IndexedType
  | 0, _ | _ + 1, [] => []
  | rounds + 1, ns :: stack =>
    typesEntries true false ns.types ++ stackEntries rounds (push ns.children stack)

theorem namespacesEntries_append (all more : List Namespace) :
    namespacesEntries (all ++ more) = namespacesEntries all ++ namespacesEntries more := by
  induction all with
  | nil => rfl
  | cons ns rest ih => rw [List.cons_append, namespacesEntries, namespacesEntries, ih, List.append_assoc]

/-- The stack holds what is still to come, in the order in which it comes. -/
theorem stackEntries_eq {rounds : Nat} {stack : List Namespace} (enough : Namespace.sizeAll stack ≤ rounds) :
    stackEntries rounds stack = namespacesEntries stack := by
  induction rounds generalizing stack with
  | zero =>
    cases stack with
    | nil => rw [stackEntries, namespacesEntries]
    | cons ns stack =>
      have := sizeAll_push ns stack
      omega
  | succ rounds ih =>
    cases stack with
    | nil => rw [stackEntries, namespacesEntries]
    | cons ns stack =>
      have taken := sizeAll_push ns stack
      rw [stackEntries, ih (by omega), push_eq, namespacesEntries_append, namespacesEntries,
        ← List.append_assoc]
      obtain ⟨⟩ := ns
      rw [namespaceEntries]

def firsts (seen : List String) : List IndexedType → List IndexedType
  | [] => []
  | t :: ts =>
    if t.decl.name = "" || seen.contains t.name then firsts seen ts
    else t :: firsts (t.name :: seen) ts

def ofRoot (root : Namespace) : TypeIndex :=
  ⟨firsts [] (typesEntries true false root.types ++
    stackEntries root.size (push root.children []))⟩

theorem ofRoot_eq (root : Namespace) : ofRoot root = ⟨firsts [] (namespaceEntries root)⟩ := by
  have enough := sizeAll_push root []
  rw [ofRoot, stackEntries_eq (by simp only [Namespace.sizeAll] at enough; omega), push_eq,
    List.append_nil]
  obtain ⟨⟩ := root
  rw [namespaceEntries]

def get? (index : TypeIndex) (name : String) : Option IndexedType :=
  index.entries.find? (·.name = name)

def decl? (index : TypeIndex) (name : String) : Option TypeDecl :=
  (index.get? name).map (·.decl)

def names (index : TypeIndex) : List String :=
  index.entries.map (·.name)

end TypeIndex

end HeaderMeta
