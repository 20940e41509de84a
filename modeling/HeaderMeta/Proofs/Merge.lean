import HeaderMeta.Declaration.Namespace
import Mathlib.Data.List.Nodup
import Mathlib.Data.List.Perm.Basic

/-! What merging keeps.

A tree of namespaces is read as the list of its scopes, each with the names that lead to it. `Part`
is one kind of entry of a scope with the rule by which merging adds entries of that kind, so that one
lemma says what becomes of types, enumerations, aliases and `using` targets at every path.
-/

set_option autoImplicit false

namespace HeaderMeta

namespace Namespace

mutual
/-- Every namespace of a tree with the names that lead to it, outer before inner. -/
def scopes : Namespace → List (List String × Namespace)
  | ⟨name, types, enums, aliases, usings, children⟩ =>
    ([], ⟨name, types, enums, aliases, usings, children⟩) :: scopesAll children

def scopesAll : List Namespace → List (List String × Namespace)
  | [] => []
  | ns :: rest => (scopes ns).map (fun s => (ns.name :: s.1, s.2)) ++ scopesAll rest
end

def entriesAt {α : Type} (part : Namespace → List α) (path : List String) (ns : Namespace) : List α :=
  (ns.scopes.filter (·.1 = path)).flatMap fun s => part s.2

def declared (ns : Namespace) : List (List String × TypeDecl) :=
  ns.scopes.flatMap fun s => s.2.types.map (s.1, ·)

inductive Distinct : Namespace → Prop where
  | intro {ns : Namespace} (names : (ns.children.map Namespace.name).Nodup)
      (below : ∀ c ∈ ns.children, Distinct c) : Distinct ns

section Trees
variable {α : Type} (part : Namespace → List α)

theorem scopesAll_eq (all : List Namespace) :
    scopesAll all = all.flatMap fun c => c.scopes.map fun s => (c.name :: s.1, s.2) := by
  induction all with
  | nil => rfl
  | cons c rest ih => rw [scopesAll, ih, List.flatMap_cons]

theorem scopes_eq (ns : Namespace) :
    ns.scopes =
      ([], ns) :: ns.children.flatMap fun c => c.scopes.map fun s => (c.name :: s.1, s.2) := by
  obtain ⟨⟩ := ns
  rw [scopes, scopesAll_eq]

@[simp] theorem entriesAt_nil (ns : Namespace) : ns.entriesAt part [] = part ns := by
  have none_below : (ns.children.flatMap fun c => c.scopes.map fun s => (c.name :: s.1, s.2)).filter
      (·.1 = []) = [] := by
    simp [List.filter_eq_nil_iff]
    grind
  rw [entriesAt, scopes_eq, List.filter_cons_of_pos (by simp), none_below]
  simp

theorem entriesAt_cons (name : String) (path : List String) (ns : Namespace) :
    ns.entriesAt part (name :: path) =
      (ns.children.filter (·.name = name)).flatMap (entriesAt part path) := by
  rw [entriesAt, scopes_eq, List.filter_cons_of_neg (by simp)]
  induction ns.children with
  | nil => rfl
  | cons c rest ih =>
    rw [List.flatMap_cons, List.filter_append, List.flatMap_append, ih, List.filter_map]
    by_cases same : c.name = name
    · simp [same, entriesAt, List.flatMap_map, Function.comp_def]
    · simp [same, Function.comp_def]

theorem declared_eq (ns : Namespace) :
    ns.declared =
      ns.types.map ([], ·) ++
        ns.children.flatMap fun c => c.declared.map fun d => (c.name :: d.1, d.2) := by
  rw [declared, scopes_eq, List.flatMap_cons]
  simp [declared, List.flatMap_assoc, List.flatMap_map, List.map_flatMap, Function.comp_def]

end Trees

section Children

@[simp] theorem name_child (ns : Namespace) (name : String) : (ns.child name).name = name := by
  unfold child
  cases found : ns.children.find? (·.name = name) with
  | none => rfl
  | some c => simpa using List.find?_some found

/-- The child that was put is found under its name, and no other child changes. -/
theorem child_putChild (ns new : Namespace) (name : String) :
    (ns.putChild new).child name = if name = new.name then new else ns.child name := by
  have found : (putIn new ns.children).find? (·.name = name) =
      if name = new.name then some new else ns.children.find? (·.name = name) := by
    induction ns.children with
    | nil => by_cases same : name = new.name <;> simp [putIn, same, eq_comm]
    | cons c rest ih =>
      by_cases here : c.name = new.name
      · by_cases same : name = new.name
        · simp [putIn, here, same]
        · simp [putIn, here, same, Ne.symm same]
      · by_cases same : name = new.name
        · simp [putIn, here, same] at ih ⊢
          exact ih
        · simp only [putIn, here, if_false, List.find?_cons, ih, same]
  unfold child putChild
  simp only [found]
  split <;> rfl

theorem names_putIn (new : Namespace) (all : List Namespace) :
    (putIn new all).map Namespace.name =
      if new.name ∈ all.map Namespace.name then all.map Namespace.name
      else all.map Namespace.name ++ [new.name] := by
  induction all with
  | nil => simp [putIn]
  | cons c rest ih =>
    by_cases here : c.name = new.name
    · simp [putIn, here]
    · simp only [putIn, here, if_false, List.map_cons, ih, List.mem_cons, Ne.symm here, false_or]
      split <;> simp

theorem mem_putIn {new c : Namespace} {all : List Namespace} (mem : c ∈ putIn new all) :
    c = new ∨ c ∈ all := by
  induction all with
  | nil => simpa [putIn] using mem
  | cons first rest ih =>
    by_cases here : first.name = new.name <;> simp [putIn, here] at mem <;> grind

end Children

section Distinctness
variable {ns : Namespace}

theorem Distinct.child (distinct : ns.Distinct) (name : String) : (ns.child name).Distinct := by
  obtain ⟨-, below⟩ := distinct
  unfold Namespace.child
  cases found : ns.children.find? (·.name = name) with
  | none => exact ⟨by simp, by simp⟩
  | some c => exact below c (List.mem_of_find?_eq_some found)

theorem Distinct.putChild {new : Namespace} (distinct : ns.Distinct) (inner : new.Distinct) :
    (ns.putChild new).Distinct := by
  obtain ⟨names, below⟩ := distinct
  refine ⟨?_, fun c mem => ?_⟩
  · simp only [Namespace.putChild, names_putIn]
    split
    · exact names
    next fresh => exact List.nodup_append.mpr ⟨names, by simp, by grind⟩
  · rcases mem_putIn mem with rfl | old
    · exact inner
    · exact below c old

/-- Where siblings are distinct, what lies below a name lies in the child of that name. -/
theorem Distinct.entriesAt_cons {α : Type} {part : Namespace → List α} (distinct : ns.Distinct)
    (empty : ∀ name, part { name } = []) (name : String) (path : List String) :
    ns.entriesAt part (name :: path) = (ns.child name).entriesAt part path := by
  have vacant : ∀ path, ({ name } : Namespace).entriesAt part path = [] := fun path => by
    cases path with
    | nil => rw [entriesAt_nil, empty]
    | cons => rw [Namespace.entriesAt_cons]; rfl
  obtain ⟨names, -⟩ := distinct
  rw [Namespace.entriesAt_cons]
  unfold Namespace.child
  generalize ns.children = all at names
  induction all with
  | nil => exact (vacant path).symm
  | cons c rest ih =>
    obtain ⟨fresh, others⟩ := List.nodup_cons.mp names
    by_cases here : c.name = name
    · have alone : rest.filter (·.name = name) = [] := by
        refine List.filter_eq_nil_iff.mpr fun other mem same => fresh ?_
        have same : other.name = c.name := by simpa [here] using same
        exact same ▸ List.mem_map_of_mem mem
      simp [here, alone]
    · simpa [here] using ih others

end Distinctness

/-- One kind of entry of a namespace, and how merging adds an entry of that kind. -/
structure Part (α : Type) where
  of : Namespace → List α
  add : List α → α → List α
  of_empty : ∀ name, of { name } = []
  of_mergeShallow : ∀ ns other, of (ns.mergeShallow other).1 = (of other).foldl add (of ns)
  of_putChild : ∀ ns new, of (ns.putChild new) = of ns

section Shallow

theorem foldl_append_singleton {α : Type} (held new : List α) :
    new.foldl (fun all x => all ++ [x]) held = held ++ new := by
  simp [← List.flatMap_def]

def holdType (held : List TypeDecl) (type : TypeDecl) : List TypeDecl :=
  if held.any (·.name = type.name) then held else held ++ [type]

theorem addTypes_fst (ns : Namespace) (types : List TypeDecl) :
    (ns.addTypes types).1 = { ns with types := types.foldl holdType ns.types } := by
  induction types generalizing ns with
  | nil => cases ns; rfl
  | cons type types ih =>
    rw [addTypes]
    simp only [ih, List.foldl_cons, addType, holdType]
    split <;> rfl

def holdUsing (held : List String) (target : String) : List String :=
  if held.contains target then held else held ++ [target]

theorem foldl_addUsing (ns : Namespace) (targets : List String) :
    targets.foldl addUsing ns = { ns with usings := targets.foldl holdUsing ns.usings } := by
  induction targets generalizing ns with
  | nil => cases ns; rfl
  | cons target targets ih =>
    simp only [List.foldl_cons, ih, addUsing, holdUsing]
    split <;> rfl

theorem mergeShallow_fst (ns other : Namespace) :
    (ns.mergeShallow other).1 =
      { ns with
        types := other.types.foldl holdType ns.types
        enums := ns.enums ++ other.enums
        aliases := ns.aliases ++ other.aliases
        usings := other.usings.foldl holdUsing ns.usings } := by
  simp [mergeShallow, addTypes_fst, foldl_addUsing]

def typePart : Part TypeDecl where
  of := types
  add := holdType
  of_empty _ := rfl
  of_mergeShallow ns other := by rw [mergeShallow_fst]
  of_putChild _ _ := rfl

def enumPart : Part EnumDecl where
  of := enums
  add held d := held ++ [d]
  of_empty _ := rfl
  of_mergeShallow ns other := by rw [mergeShallow_fst, foldl_append_singleton]
  of_putChild _ _ := rfl

def aliasPart : Part AliasDecl where
  of := aliases
  add held d := held ++ [d]
  of_empty _ := rfl
  of_mergeShallow ns other := by rw [mergeShallow_fst, foldl_append_singleton]
  of_putChild _ _ := rfl

def usingPart : Part String where
  of := usings
  add := holdUsing
  of_empty _ := rfl
  of_mergeShallow ns other := by rw [mergeShallow_fst]
  of_putChild _ _ := rfl

end Shallow

section Merge
variable {α : Type} (p : Part α)

theorem of_mergeChildren (ns : Namespace) (others : List Namespace) :
    p.of (ns.mergeChildren others).1 = p.of ns := by
  induction others generalizing ns with
  | nil => rw [mergeChildren]
  | cons other others ih => rw [mergeChildren]; simp only [ih, p.of_putChild]

theorem merge_eq (ns other : Namespace) :
    ns.merge other =
      (((ns.mergeShallow other).1.mergeChildren other.children).1,
        (ns.mergeShallow other).2 ++
          ((ns.mergeShallow other).1.mergeChildren other.children).2) := by
  obtain ⟨name, types, enums, aliases, usings, children⟩ := other
  rw [merge]
  rfl

@[simp] theorem children_mergeShallow (ns other : Namespace) :
    (ns.mergeShallow other).1.children = ns.children := by
  rw [mergeShallow_fst]

@[simp] theorem name_mergeShallow (ns other : Namespace) :
    (ns.mergeShallow other).1.name = ns.name := by
  rw [mergeShallow_fst]

theorem child_mergeShallow (ns other : Namespace) (name : String) :
    (ns.mergeShallow other).1.child name = ns.child name := by
  rw [child, child, children_mergeShallow]

theorem name_mergeChildren (ns : Namespace) (others : List Namespace) :
    (ns.mergeChildren others).1.name = ns.name := by
  induction others generalizing ns with
  | nil => rw [mergeChildren]
  | cons other others ih => rw [mergeChildren]; simp only [ih]; rfl

theorem name_merge (ns other : Namespace) : (ns.merge other).1.name = ns.name := by
  rw [merge_eq, name_mergeChildren, name_mergeShallow]

mutual
theorem Distinct.merge {ns : Namespace} (distinct : ns.Distinct) :
    ∀ other : Namespace, (ns.merge other).1.Distinct
  | ⟨name, types, enums, aliases, usings, children⟩ => by
    rw [merge_eq]
    obtain ⟨names, below⟩ := distinct
    exact Distinct.mergeChildren ⟨by simpa using names, by simpa using below⟩ children

theorem Distinct.mergeChildren {ns : Namespace} (distinct : ns.Distinct) :
    ∀ others : List Namespace, (ns.mergeChildren others).1.Distinct
  | [] => by rwa [Namespace.mergeChildren]
  | other :: others => by
    rw [Namespace.mergeChildren]
    exact Distinct.mergeChildren
      (distinct.putChild ((distinct.child other.name).merge other)) others
end

mutual
/-- Merging adds the entries of the other tree, path by path and in their order. -/
theorem entriesAt_merge {ns : Namespace} (distinct : ns.Distinct) :
    ∀ (other : Namespace) (path : List String),
      (ns.merge other).1.entriesAt p.of path =
        (other.entriesAt p.of path).foldl p.add (ns.entriesAt p.of path)
  | ⟨name, types, enums, aliases, usings, children⟩, [] => by
    simp only [merge_eq, entriesAt_nil, of_mergeChildren, p.of_mergeShallow]
  | ⟨name, types, enums, aliases, usings, children⟩, first :: path => by
    have shallow : (ns.mergeShallow ⟨name, types, enums, aliases, usings, children⟩).1.Distinct := by
      obtain ⟨names, below⟩ := distinct
      exact ⟨by simpa using names, by simpa using below⟩
    rw [merge_eq, (shallow.mergeChildren children).entriesAt_cons p.of_empty,
      distinct.entriesAt_cons p.of_empty, entriesAt_child_mergeChildren shallow children,
      child_mergeShallow, entriesAt_cons]

theorem entriesAt_child_mergeChildren {ns : Namespace} (distinct : ns.Distinct) :
    ∀ (others : List Namespace) (name : String) (path : List String),
      ((ns.mergeChildren others).1.child name).entriesAt p.of path =
        ((others.filter (·.name = name)).flatMap (entriesAt p.of path)).foldl p.add
          ((ns.child name).entriesAt p.of path)
  | [], name, path => by rw [mergeChildren]; rfl
  | other :: others, name, path => by
    have inner := distinct.child other.name
    rw [mergeChildren, entriesAt_child_mergeChildren (distinct.putChild (inner.merge other)) others,
      child_putChild, name_merge, name_child]
    by_cases same : name = other.name
    · subst same
      rw [if_pos rfl, entriesAt_merge inner other]
      simp
    · rw [if_neg same, List.filter_cons_of_neg (by simpa using Ne.symm same)]
end

end Merge

section Accounting

/-- Of the types in `before`, those in `after` were kept and the others were dropped, each with its
qualified name and file. -/
def Accounts (before after : List (List String × TypeDecl)) (dropped : List (String × Path)) : Prop :=
  ∃ lost : List (List String × TypeDecl),
    dropped = lost.map (fun d => (d.2.qualifiedName, d.2.path)) ∧ before.Perm (after ++ lost)

variable {before middle after : List (List String × TypeDecl)} {dropped more : List (String × Path)}

theorem Accounts.refl (all : List (List String × TypeDecl)) : Accounts all all [] :=
  ⟨[], rfl, by simp⟩

theorem Accounts.trans (first : Accounts before middle dropped)
    (second : Accounts middle after more) : Accounts before after (dropped ++ more) := by
  obtain ⟨lost, rfl, kept⟩ := first
  obtain ⟨lost', rfl, kept'⟩ := second
  refine ⟨lost ++ lost', by simp, ?_⟩
  calc before.Perm (middle ++ lost) := kept
    _ |>.Perm (after ++ lost' ++ lost) := kept'.append_right lost
    _ |>.Perm (after ++ (lost ++ lost')) := by
      rw [List.append_assoc]
      exact List.perm_append_comm.append_left after

theorem Accounts.append (first : Accounts before after dropped)
    (others : List (List String × TypeDecl)) : Accounts (before ++ others) (after ++ others) dropped := by
  obtain ⟨lost, rfl, kept⟩ := first
  refine ⟨lost, rfl, (kept.append_right others).trans ?_⟩
  rw [List.append_assoc, List.append_assoc]
  exact List.perm_append_comm.append_left after

def declaredIn (c : Namespace) : List (List String × TypeDecl) :=
  c.declared.map fun d => (c.name :: d.1, d.2)

theorem declaredIn_empty (name : String) : declaredIn { name } = [] := by
  rw [declaredIn, declared_eq]
  rfl

theorem accounts_addTypes (ns : Namespace) (types : List TypeDecl)
    (rest : List (List String × TypeDecl)) :
    Accounts (ns.types.map ([], ·) ++ types.map ([], ·) ++ rest)
      ((ns.addTypes types).1.types.map ([], ·) ++ rest) (ns.addTypes types).2 := by
  refine Accounts.append ?_ rest
  induction types generalizing ns with
  | nil => simpa [addTypes] using Accounts.refl _
  | cons type types ih =>
    rw [addTypes]
    by_cases taken : ns.types.any (·.name = type.name)
    · have first : Accounts (ns.types.map ([], ·) ++ (type :: types).map ([], ·))
          (ns.types.map ([], ·) ++ types.map ([], ·)) [(type.qualifiedName, type.path)] := by
        refine ⟨[([], type)], rfl, ?_⟩
        rw [List.map_cons, List.append_assoc]
        exact (List.perm_append_singleton _ _).symm.append_left _
      simpa [addType, taken] using first.trans (ih ns)
    · have later := ih { ns with types := ns.types ++ [type] }
      simpa [addType, taken] using later

theorem accounts_mergeShallow (ns other : Namespace) :
    Accounts (ns.declared ++ other.types.map ([], ·)) (ns.mergeShallow other).1.declared
      (ns.mergeShallow other).2 := by
  have kept := accounts_addTypes ns other.types (ns.children.flatMap declaredIn)
  have same : (ns.mergeShallow other).1.declared =
      (ns.addTypes other.types).1.types.map ([], ·) ++ ns.children.flatMap declaredIn := by
    rw [declared_eq, mergeShallow_fst, addTypes_fst]
    rfl
  rw [same]
  obtain ⟨lost, rest, kept⟩ := kept
  refine ⟨lost, by simpa [mergeShallow] using rest, List.Perm.trans ?_ kept⟩
  rw [declared_eq, List.append_assoc, List.append_assoc]
  exact List.perm_append_comm.append_left _

/-- A child that is put in place takes its types to where those of the old child were. -/
theorem declared_putChild (ns new : Namespace) :
    ((ns.putChild new).declared ++ declaredIn (ns.child new.name)).Perm
      (ns.declared ++ declaredIn new) := by
  have below : ((putIn new ns.children).flatMap declaredIn ++ declaredIn (ns.child new.name)).Perm
      (ns.children.flatMap declaredIn ++ declaredIn new) := by
    unfold child
    induction ns.children with
    | nil => simp [putIn, declaredIn_empty]
    | cons c rest ih =>
      by_cases here : c.name = new.name
      · simp only [putIn, here, if_true, List.flatMap_cons, List.find?_cons, decide_true,
          Option.getD_some, List.append_assoc c.declaredIn]
        exact List.perm_append_comm.trans (List.perm_append_comm.append_left _)
      · simp only [putIn, here, if_false, List.flatMap_cons, List.find?_cons, decide_false,
          List.append_assoc]
        exact ih.append_left _
  rw [declared_eq, declared_eq, List.append_assoc, List.append_assoc]
  exact below.append_left _

/-- Merging into one child: what holds of the child holds of the whole. -/
theorem Accounts.putChild {ns other merged : Namespace}
    (inner : Accounts ((ns.child other.name).declared ++ other.declared) merged.declared dropped)
    (named : merged.name = other.name) :
    Accounts (ns.declared ++ declaredIn other) (ns.putChild merged).declared dropped := by
  obtain ⟨lost, rfl, kept⟩ := inner
  let lift (d : List String × TypeDecl) := (other.name :: d.1, d.2)
  have lifted := kept.map lift
  have moved := declared_putChild ns merged
  refine ⟨lost.map lift, by simp [lift], ?_⟩
  rw [named] at moved
  have old : declaredIn (ns.child other.name) = (ns.child other.name).declared.map lift := by
    simp [declaredIn, lift]
  have new : declaredIn merged = merged.declared.map lift := by simp [declaredIn, lift, named]
  rw [List.map_append, List.map_append, ← old, ← new] at lifted
  -- the types of the old child stand on both sides and cancel
  refine (List.perm_append_right_iff (declaredIn (ns.child other.name))).mp ?_
  have whole : (ns.declared ++ declaredIn other ++ declaredIn (ns.child other.name)).Perm
      (ns.declared ++ declaredIn merged ++ lost.map lift) := by
    rw [List.append_assoc, List.append_assoc]
    exact (List.perm_append_comm.trans lifted).append_left _
  refine whole.trans ((moved.symm.append_right _).trans ?_)
  rw [List.append_assoc, List.append_assoc]
  exact List.perm_append_comm.append_left _

mutual
theorem accounts_merge (ns : Namespace) : ∀ other : Namespace,
    Accounts (ns.declared ++ other.declared) (ns.merge other).1.declared (ns.merge other).2
  | ⟨name, types, enums, aliases, usings, children⟩ => by
    rw [merge_eq, declared_eq ⟨name, types, enums, aliases, usings, children⟩, ← List.append_assoc]
    exact ((accounts_mergeShallow ns _).append _).trans (accounts_mergeChildren _ children)

theorem accounts_mergeChildren (ns : Namespace) : ∀ others : List Namespace,
    Accounts (ns.declared ++ others.flatMap declaredIn) (ns.mergeChildren others).1.declared
      (ns.mergeChildren others).2
  | [] => by simpa [mergeChildren] using Accounts.refl ns.declared
  | other :: others => by
    have first := (accounts_merge (ns.child other.name) other).putChild
      ((name_merge _ other).trans (name_child ns other.name))
    rw [mergeChildren, List.flatMap_cons, ← List.append_assoc]
    exact (first.append _).trans (accounts_mergeChildren _ others)
end

end Accounting

section Files

def mergeNext (done : Namespace × List (String × Path)) (file : Namespace) :
    Namespace × List (String × Path) :=
  ((done.1.merge file).1, done.2 ++ (done.1.merge file).2)

def mergeAll (files : List Namespace) : Namespace × List (String × Path) :=
  files.foldl mergeNext ({}, [])

structure Merged (files : List Namespace) (done : Namespace × List (String × Path)) : Prop where
  distinct : done.1.Distinct
  entries : ∀ {α : Type} (p : Part α) (path : List String),
    done.1.entriesAt p.of path = (files.flatMap (entriesAt p.of path)).foldl p.add []
  accounts : Accounts (files.flatMap declared) done.1.declared done.2

theorem merged_nil : Merged [] ({}, []) where
  distinct := ⟨by simp, by simp⟩
  entries p path := by
    cases path with
    | nil => rw [entriesAt_nil, p.of_empty]; rfl
    | cons => rw [entriesAt_cons]; rfl
  accounts := ⟨[], rfl, by rw [declared_eq]; simp⟩

theorem Merged.merge {files : List Namespace} {done : Namespace × List (String × Path)}
    (merged : Merged files done) (file : Namespace) :
    Merged (files ++ [file]) (mergeNext done file) where
  distinct := merged.distinct.merge file
  entries p path := by
    rw [mergeNext, entriesAt_merge p merged.distinct, merged.entries]
    simp
  accounts := by
    have first := merged.accounts.append file.declared
    simpa [mergeNext] using first.trans (accounts_merge done.1 file)

theorem Merged.foldl {files : List Namespace} {done : Namespace × List (String × Path)}
    (merged : Merged files done) (more : List Namespace) :
    Merged (files ++ more) (more.foldl mergeNext done) := by
  induction more generalizing files done with
  | nil => simpa using merged
  | cons file more ih => simpa using ih (merged.merge file)

theorem merged_mergeAll (files : List Namespace) : Merged files (mergeAll files) :=
  merged_nil.foldl files

/-- Of each name the first type is held. -/
theorem filter_foldl_holdType (name : String) (held types : List TypeDecl)
    (one : held.filter (·.name = name) = (held.find? (·.name = name)).toList) :
    (types.foldl holdType held).filter (·.name = name) =
      ((held ++ types).find? (·.name = name)).toList := by
  induction types generalizing held with
  | nil => simpa using one
  | cons type types ih =>
    have next := ih (holdType held type)
    rw [List.foldl_cons]
    by_cases taken : held.any (·.name = type.name)
    · simp only [holdType, taken, if_true] at next ⊢
      rw [next one, List.find?_append, List.find?_append, List.find?_cons]
      by_cases this : type.name = name
      · obtain ⟨other, found⟩ : ∃ other, held.find? (·.name = name) = some other := by
          rw [← Option.isSome_iff_exists, List.find?_isSome]
          simpa [this] using taken
        simp [found]
      · simp [this]
    · simp only [holdType, taken] at next ⊢
      have one' : (held ++ [type]).filter (·.name = name) =
          ((held ++ [type]).find? (·.name = name)).toList := by
        rw [List.filter_append, List.find?_append, one]
        by_cases this : type.name = name
        · have absent : held.find? (·.name = name) = none := by
            simpa [this] using taken
          simp [absent, this]
        · cases held.find? (·.name = name) <;> simp [this]
      simpa using next one'

theorem foldl_holdUsing (held targets : List String) :
    targets.foldl holdUsing held = held ++ (targets.removeAll held).eraseDups := by
  induction targets generalizing held with
  | nil => simp [List.removeAll]
  | cons target targets ih =>
    rw [List.foldl_cons, ih, holdUsing]
    by_cases known : target ∈ held
    · simp [List.removeAll, known]
    · have others : targets.removeAll (held ++ [target]) =
          (targets.removeAll held).filter fun other => !other == target := by
        simp only [List.removeAll, List.filter_filter]
        exact List.filter_congr fun other _ => by simp [Bool.and_comm, Bool.beq_eq_decide_eq]
      simp [List.removeAll, known, List.eraseDups_cons] at others ⊢
      rw [others]

/-- Merging files in order holds, at every path, the first type of each name; each other type is
dropped once, under its qualified name and file; enumerations and aliases are all held in order, and
`using` targets once each. Siblings of the result have distinct names. -/
theorem mergeAll_holds_first (files : List Namespace) :
    (∀ path name, ((mergeAll files).1.entriesAt types path).filter (·.name = name) =
      ((files.flatMap (entriesAt types path)).find? (·.name = name)).toList) ∧
    (∃ lost : List (List String × TypeDecl),
      (mergeAll files).2 = lost.map (fun d => (d.2.qualifiedName, d.2.path)) ∧
      (files.flatMap declared).Perm ((mergeAll files).1.declared ++ lost)) ∧
    (∀ path, (mergeAll files).1.entriesAt enums path = files.flatMap (entriesAt enums path)) ∧
    (∀ path, (mergeAll files).1.entriesAt aliases path = files.flatMap (entriesAt aliases path)) ∧
    (∀ path, (mergeAll files).1.entriesAt usings path =
      (files.flatMap (entriesAt usings path)).eraseDups) ∧
    (mergeAll files).1.Distinct := by
  obtain ⟨distinct, entries, accounts⟩ := merged_mergeAll files
  refine ⟨fun path name => ?_, accounts, fun path => ?_, fun path => ?_, fun path => ?_, distinct⟩
  · rw [show types = typePart.of from rfl, entries typePart path]
    exact filter_foldl_holdType name [] _ rfl
  · exact (entries enumPart path).trans (foldl_append_singleton [] _)
  · exact (entries aliasPart path).trans (foldl_append_singleton [] _)
  · have once := foldl_holdUsing [] (files.flatMap (entriesAt usings path))
    have all : (files.flatMap (entriesAt usings path)).removeAll [] =
        files.flatMap (entriesAt usings path) := by simp [List.removeAll]
    rw [all] at once
    exact (entries usingPart path).trans once

end Files

end Namespace

end HeaderMeta
