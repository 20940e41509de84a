import HeaderMeta.Symbol
import Mathlib.Data.List.Nodup
import Mathlib.Data.List.Perm.Subperm

/-! Following aliases from a spelling to what it stands for.

An alias is followed to its target in the scope it was declared in, so spelling and scope change
with each step. The way is endless just when it comes by an alias again. `resolve` goes the same way
up to that point (`exists_outcome`), and keeps the aliases it came by.
-/

set_option autoImplicit false

namespace HeaderMeta

namespace TypeKind
variable {names : List String} {kind : TypeKind}

def aliases : TypeKind → List String
  | synonym name target => name :: target.aliases
  | _ => []

def under (names : List String) (kind : TypeKind) : TypeKind :=
  names.foldr synonym kind

theorem canonical_under : (kind.under names).canonical = kind.canonical := by
  induction names with
  | nil => rfl
  | cons name names ih => exact ih

theorem aliases_under : (kind.under names).aliases = names ++ kind.aliases := by
  induction names with
  | nil => rfl
  | cons name names ih => exact congrArg (name :: ·) ih

theorem canonical_of_aliases_eq_nil (bare : kind.aliases = []) : kind.canonical = kind := by
  cases kind <;> first | rfl | cases bare

end TypeKind

namespace SymbolTable
variable {table : SymbolTable} {spelling name : String} {scope inner names : List String}
  {target : TypeRef} {kind : TypeKind}

def denotes (table : SymbolTable) (spelling : String) (scope : List String) : Meaning :=
  table.meaning (Text.trim spelling) scope

/-- Following aliases comes by the aliases `names` first. -/
inductive Follows (table : SymbolTable) : String → List String → List String → Prop where
  | none (spelling : String) (scope : List String) : Follows table spelling scope []
  | one {spelling name : String} {scope inner : List String} {target : TypeRef}
      (means : table.denotes spelling scope = .aliasOf name inner target) :
      Follows table spelling scope [name]
  | more {spelling name : String} {scope inner names : List String} {target : TypeRef}
      (means : table.denotes spelling scope = .aliasOf name inner target)
      (bare : target.kind = .unresolved) (rest : Follows table target.spelling inner names) :
      Follows table spelling scope (name :: names)

/-- Following aliases comes by `names`, and then to what is no alias and of this kind. -/
inductive Reaches (table : SymbolTable) : String → List String → List String → TypeKind → Prop where
  | kind {spelling : String} {scope : List String} {kind : TypeKind}
      (means : table.denotes spelling scope = .kind kind) : Reaches table spelling scope [] kind
  /-- The target of the alias shows by its declarator what it is. -/
  | shown {spelling name : String} {scope inner : List String} {target : TypeRef}
      (means : table.denotes spelling scope = .aliasOf name inner target)
      (shown : target.kind ≠ .unresolved) : Reaches table spelling scope [name] target.kind
  | more {spelling name : String} {scope inner names : List String} {target : TypeRef}
      {kind : TypeKind} (means : table.denotes spelling scope = .aliasOf name inner target)
      (bare : target.kind = .unresolved) (rest : Reaches table target.spelling inner names kind) :
      Reaches table spelling scope (name :: names) kind

def Revisits (table : SymbolTable) (spelling : String) (scope : List String) : Prop :=
  ∃ names, table.Follows spelling scope names ∧ ¬ names.Nodup

theorem Reaches.follows (reaches : table.Reaches spelling scope names kind) :
    table.Follows spelling scope names := by
  induction reaches with
  | kind means => exact .none _ _
  | shown means shown => exact .one means
  | more means bare rest ih => exact .more means bare ih

theorem Follows.of_prefix {others : List String} (follows : table.Follows spelling scope others)
    (first : names <+: others) : table.Follows spelling scope names := by
  induction follows generalizing names with
  | none =>
    obtain rfl := List.prefix_nil.mp first
    exact .none _ _
  | one means =>
    cases names with
    | nil => exact .none _ _
    | cons name names =>
      obtain ⟨rfl, rest⟩ := List.cons_prefix_cons.mp first
      obtain rfl := List.prefix_nil.mp rest
      exact .one means
  | more means bare rest ih =>
    cases names with
    | nil => exact .none _ _
    | cons name names =>
      obtain ⟨rfl, rest⟩ := List.cons_prefix_cons.mp first
      exact .more means bare (ih rest)

theorem Reaches.isPrefix {others : List String} (reaches : table.Reaches spelling scope names kind)
    (follows : table.Follows spelling scope others) : others <+: names := by
  induction reaches generalizing others with
  | kind means =>
    cases follows with
    | none => exact List.nil_prefix
    | one other | more other => simp [means] at other
  | shown means shown =>
    cases follows with
    | none => exact List.nil_prefix
    | one other =>
      obtain ⟨rfl, rfl, rfl⟩ := Meaning.aliasOf.inj (means.symm.trans other)
      exact List.prefix_rfl
    | more other bare =>
      obtain ⟨rfl, rfl, rfl⟩ := Meaning.aliasOf.inj (means.symm.trans other)
      exact absurd bare shown
  | more means bare rest ih =>
    cases follows with
    | none => exact List.nil_prefix
    | one other =>
      obtain ⟨rfl, rfl, rfl⟩ := Meaning.aliasOf.inj (means.symm.trans other)
      exact List.prefix_append _ _
    | more other _ further =>
      obtain ⟨rfl, rfl, rfl⟩ := Meaning.aliasOf.inj (means.symm.trans other)
      exact List.prefix_cons_inj _ |>.mpr (ih further)

theorem Reaches.not_revisits (reaches : table.Reaches spelling scope names kind)
    (distinct : names.Nodup) : ¬ table.Revisits spelling scope := by
  rintro ⟨others, follows, again⟩
  exact again (distinct.sublist (reaches.isPrefix follows).sublist)

/-- How following ends that has come by the aliases `seen` before: it reaches a kind, or it stops in
front of an alias that it came by. -/
inductive Outcome (table : SymbolTable) (seen : List String) (spelling : String)
    (scope : List String) : List String → TypeKind → Prop where
  | reached {names : List String} {kind : TypeKind}
      (reaches : table.Reaches spelling scope names kind) :
      Outcome table seen spelling scope names kind
  | stopped {names : List String} {again : String}
      (follows : table.Follows spelling scope (names ++ [again]))
      (old : again ∈ seen ∨ again ∈ names) : Outcome table seen spelling scope names .unresolved

theorem exists_outcome (declared : ∀ {spelling name : String} {scope inner : List String}
      {target : TypeRef}, table.denotes spelling scope = .aliasOf name inner target →
        (name, .synonym inner target) ∈ table.symbols)
    (seen : List String) (spelling : String) (scope : List String) :
    ∃ names kind, table.follow table.denotes declared seen spelling scope = kind.under names ∧
      names.Nodup ∧ (∀ name ∈ names, name ∉ seen) ∧
      table.Outcome seen spelling scope names kind := by
  fun_induction follow table table.denotes declared seen spelling scope with
  | case1 seen spelling scope kind means =>
    exact ⟨[], kind, rfl, .nil, nofun, .reached (.kind means)⟩
  | case2 seen spelling scope name inner target means old =>
    exact ⟨[], .unresolved, rfl, .nil, nofun, .stopped (.one means) (.inl (by simpa using old))⟩
  | case3 seen spelling scope name inner target means new bare ih =>
    obtain ⟨names, kind, follows, distinct, fresh, outcome⟩ := ih
    refine ⟨name :: names, kind, by rw [follows]; rfl, ?_, ?_, ?_⟩
    · exact List.nodup_cons.mpr ⟨fun mem => fresh name mem List.mem_cons_self, distinct⟩
    · refine List.forall_mem_cons.mpr ⟨by simpa using new, fun other mem old => ?_⟩
      exact fresh other mem (List.mem_cons_of_mem name old)
    · cases outcome with
      | reached reaches => exact .reached (.more means bare reaches)
      | stopped further old =>
        refine .stopped (.more means bare further) ?_
        simpa [or_assoc, or_left_comm] using old
  | case4 seen spelling scope name inner target means new shown =>
    refine ⟨[name], target.kind, rfl, List.nodup_singleton name, ?_, .reached (.shown means shown)⟩
    simpa using new

theorem find?_of_lookup {entry : String × Symbol} (found : table.lookup name scope = some entry) :
    table.find? entry.1 = some entry := by
  obtain ⟨candidate, -, first⟩ := List.exists_of_findSome?_eq_some found
  have named : entry.1 = candidate := by simpa using List.find?_some first
  rwa [named]

theorem find?_of_denotes (means : table.denotes spelling scope = .aliasOf name inner target) :
    table.find? name = some (name, .synonym inner target) := by
  unfold denotes meaning at means
  split at means
  · cases means
  · dsimp only at means
    split at means
    · cases means
    next entry found =>
      obtain ⟨own, symbol⟩ := entry
      have first := find?_of_lookup found
      cases symbol with
      | record => cases means
      | enumeration => cases means
      | synonym scope target =>
        cases means
        exact first

theorem aliases_of_denotes (means : table.denotes spelling scope = .kind kind) :
    kind.aliases = [] := by
  unfold denotes meaning at means
  split at means
  · cases means
    rfl
  · dsimp only at means
    split at means
    · cases means
      unfold undeclared
      dsimp only
      split
      · rfl
      · split <;> rfl
    next entry found =>
      obtain ⟨own, symbol⟩ := entry
      cases symbol <;> cases means <;> rfl

theorem Follows.find? (follows : table.Follows spelling scope names) :
    ∀ name ∈ names, ∃ inner target, table.find? name = some (name, .synonym inner target) := by
  induction follows with
  | none => nofun
  | one means =>
    intro name mem
    obtain rfl := List.mem_singleton.mp mem
    exact ⟨_, _, find?_of_denotes means⟩
  | more means bare rest ih => exact List.forall_mem_cons.mpr ⟨⟨_, _, find?_of_denotes means⟩, ih⟩

def Plain (table : SymbolTable) : Prop :=
  ∀ name inner target, (name, .synonym inner target) ∈ table.symbols → target.kind.aliases = []

theorem Reaches.aliases_eq_nil (plain : table.Plain)
    (reaches : table.Reaches spelling scope names kind) : kind.aliases = [] := by
  induction reaches with
  | kind means => exact aliases_of_denotes means
  | shown means shown => exact plain _ _ _ (mem_of_meaning means)
  | more means bare rest ih => exact ih

/-- Following aliases comes by `names`, no alias twice, and then to `reached`: to a kind that is no
alias, or to unresolved because the next alias is one of `names`. -/
structure FollowsTo (table : SymbolTable) (spelling : String) (scope names : List String)
    (reached : TypeKind) : Prop where
  followed : table.Follows spelling scope names
  distinct : names.Nodup
  declared : ∀ name ∈ names, ∃ inner target, table.find? name = some (name, .synonym inner target)
  bounded : names.length ≤ table.symbols.length
  revisited : table.Revisits spelling scope → reached = .unresolved
  arrived : ¬ table.Revisits spelling scope → table.Reaches spelling scope names reached

theorem Follows.length_le (follows : table.Follows spelling scope names) (distinct : names.Nodup) :
    names.length ≤ table.symbols.length := by
  have inside : names ⊆ table.symbols.map (·.1) := fun name mem => by
    obtain ⟨inner, target, found⟩ := follows.find? name mem
    exact List.mem_map_of_mem (f := (·.1)) (List.mem_of_find?_eq_some found)
  simpa using (distinct.subperm inside).length_le

theorem Outcome.followsTo (distinct : names.Nodup)
    (outcome : table.Outcome [] spelling scope names kind) :
    table.FollowsTo spelling scope names kind := by
  cases outcome with
  | reached reaches =>
    have follows := reaches.follows
    exact
      { followed := follows
        distinct
        declared := follows.find?
        bounded := follows.length_le distinct
        revisited := fun again => absurd again (reaches.not_revisits distinct)
        arrived := fun _ => reaches }
  | @stopped again further old =>
    have follows : table.Follows spelling scope names := further.of_prefix (List.prefix_append _ _)
    have revisits : table.Revisits spelling scope := by
      refine ⟨_, further, fun apart => ?_⟩
      exact (List.nodup_append.mp apart).2.2 again (old.resolve_left List.not_mem_nil) again
        List.mem_cons_self rfl
    exact
      { followed := follows
        distinct
        declared := follows.find?
        bounded := follows.length_le distinct
        revisited := fun _ => rfl
        arrived := fun once => absurd revisits once }

/-- What a spelling resolves to is what following aliases comes to, under the aliases on the way. -/
theorem resolve_follows_aliases (table : SymbolTable) (spelling : String) (scope : List String) :
    ∃ names reached, table.FollowsTo spelling scope names reached ∧
      table.resolve spelling scope = reached.under names ∧
      (table.resolve spelling scope).canonical = reached.canonical ∧
      (table.Plain →
        (table.resolve spelling scope).aliases = names ∧ reached.canonical = reached) := by
  obtain ⟨names, reached, resolved, distinct, -, outcome⟩ :=
    exists_outcome mem_of_meaning [] spelling scope
  have resolved : table.resolve spelling scope = reached.under names := resolved
  refine ⟨names, reached, outcome.followsTo distinct, resolved, ?_, fun plain => ?_⟩
  · rw [resolved, TypeKind.canonical_under]
  · have bare : reached.aliases = [] := by
      cases outcome with
      | reached reaches => exact reaches.aliases_eq_nil plain
      | stopped => rfl
    rw [resolved, TypeKind.aliases_under, bare, List.append_nil]
    exact ⟨rfl, TypeKind.canonical_of_aliases_eq_nil bare⟩

def crossing : SymbolTable where
  symbols :=
    [("A", .record), ("x::A", .enumeration),
      ("P", .synonym [] ⟨"x::Q", .unresolved⟩), ("x::Q", .synonym ["x"] ⟨"A", .unresolved⟩),
      ("x::L", .synonym ["x"] ⟨"::M", .unresolved⟩), ("M", .synonym [] ⟨"x::L", .unresolved⟩)]
  usings := []

theorem resolve_follows_aliases_crossing :
    crossing.Plain ∧ crossing.Revisits "L" ["x"] ∧
      crossing.FollowsTo "L" ["x"] ["x::L", "M"] .unresolved ∧
      crossing.FollowsTo "P" [] ["P", "x::Q"] (.enumeration "x::A") := by
  have plain : crossing.Plain := by
    intro name inner target mem
    simp only [crossing, List.mem_cons, Prod.mk.injEq, Symbol.synonym.injEq, reduceCtorEq,
      and_false, List.not_mem_nil, or_false, false_or] at mem
    rcases mem with ⟨-, -, rfl⟩ | ⟨-, -, rfl⟩ | ⟨-, -, rfl⟩ | ⟨-, -, rfl⟩ <;> rfl
  have looped : crossing.Revisits "L" ["x"] := by
    refine ⟨["x::L", "M", "x::L"], ?_, by decide⟩
    have first : crossing.denotes "L" ["x"] = .aliasOf "x::L" ["x"] ⟨"::M", .unresolved⟩ := by cbv
    have second : crossing.denotes "::M" ["x"] = .aliasOf "M" [] ⟨"x::L", .unresolved⟩ := by cbv
    have third : crossing.denotes "x::L" [] = .aliasOf "x::L" ["x"] ⟨"::M", .unresolved⟩ := by cbv
    exact .more first rfl (.more second rfl (.one third))
  refine ⟨plain, looped, ?_, ?_⟩
  · obtain ⟨names, reached, follows, resolved, canonical, bare⟩ :=
      resolve_follows_aliases crossing "L" ["x"]
    obtain rfl := follows.revisited looped
    have own : (crossing.resolve "L" ["x"]).aliases = ["x::L", "M"] := by decide +kernel
    rwa [← (bare plain).1, own] at follows
  · obtain ⟨names, reached, follows, resolved, canonical, bare⟩ :=
      resolve_follows_aliases crossing "P" []
    have own : crossing.resolve "P" [] =
        .synonym "P" (.synonym "x::Q" (.enumeration "x::A")) := by decide +kernel
    obtain ⟨rfl, same⟩ := bare plain
    obtain rfl : reached = .enumeration "x::A" := by rw [← same, ← canonical, own]; rfl
    rwa [own] at follows

end SymbolTable

end HeaderMeta
