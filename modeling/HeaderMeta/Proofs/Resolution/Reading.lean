import HeaderMeta.Proofs.Naming

/-! What a tree says of types before its names are resolved.

A header names types by their spelling only. What a field or an alias is said to be comes from the
marks around its name, whatever the tokens are, so it names nothing (`Header.shown_read`). Merging
adds nothing of its own.
-/

set_option autoImplicit false

namespace HeaderMeta

/-- Whether the kind can be read off a declaration alone: it names nothing. -/
def TypeKind.isWritten : TypeKind → Bool
  | unresolved | pointer | reference | array | bitfield => true
  | _ => false

def Field.Shown (f : Field) : Prop :=
  f.type.kind.isWritten = true

def AliasDecl.Shown (a : AliasDecl) : Prop :=
  a.target.kind.isWritten = true

inductive TypeDecl.Shown : TypeDecl → Prop where
  | intro {d : TypeDecl} (fields : ∀ f ∈ d.fields, f.Shown) (aliases : ∀ a ∈ d.aliases, a.Shown)
      (nested : ∀ inner ∈ d.nested, inner.Shown) : d.Shown

section Types
variable {d e : TypeDecl}

theorem TypeDecl.Shown.fields (shown : d.Shown) : ∀ f ∈ d.fields, f.Shown := by
  cases shown
  assumption

theorem TypeDecl.Shown.aliases (shown : d.Shown) : ∀ a ∈ d.aliases, a.Shown := by
  cases shown
  assumption

theorem TypeDecl.Shown.nested (shown : d.Shown) : ∀ inner ∈ d.nested, inner.Shown := by
  cases shown
  assumption

theorem TypeDecl.Shown.congr (shown : d.Shown) (fields : e.fields = d.fields)
    (aliases : e.aliases = d.aliases) (nested : e.nested = d.nested) : e.Shown :=
  ⟨fields ▸ shown.fields, aliases ▸ shown.aliases, nested ▸ shown.nested⟩

end Types

theorem Declarator.isWritten_kind (d : Declarator) : d.kind.isWritten = true := by
  unfold kind
  repeat' split
  all_goals rfl

theorem isWritten_stripReversed {kind : TypeKind} (written : kind.isWritten = true) (ts : Tokens) :
    (stripReversed kind ts).2.isWritten = true := by
  fun_induction stripReversed kind ts with
  | case1 | case8 => exact written
  | case2 _ _ _ _ ih | case5 _ _ _ _ _ _ ih => exact ih rfl
  | case3 kind _ _ _ ih | case4 kind _ _ _ ih =>
    refine ih ?_
    split
    · rfl
    · exact written
  | case6 => rfl
  | case7 _ _ _ _ _ _ _ _ ih => exact ih written

def BodyReader.Shows (body : BodyReader) : Prop :=
  ∀ decl (c : Cursor), decl.Shown → (body decl c).1.1.Shown

namespace Cursor
variable {c d : Cursor} {body : BodyReader} {namespaces enclosing scope : List String}

theorem shown_recordBody (reader : body.Shows) {start : Span} {decl decl' : TypeDecl}
    (shown : decl.Shown) (read : recordBody body start decl c = (.ok (.definition decl'), d)) :
    decl'.Shown := by
  have inside := reader decl c.advance shown
  unfold recordBody at read
  split at read
  next => cases read
  next own e read' =>
    rw [read'] at inside
    split at read <;> cases read <;> exact inside

theorem shown_record (reader : body.Shows) {isTemplate : Bool} {decl : TypeDecl}
    (read : c.record body namespaces enclosing isTemplate = (.ok (.definition decl), d)) :
    decl.Shown := by
  unfold record at read
  split at read
  next => cases read
  next key atKey =>
    dsimp only at read
    split at read
    next => split at read <;> cases read
    next =>
      refine shown_recordBody reader ?_ read
      exact ⟨nofun, nofun, nofun⟩
    next =>
      split at read
      next =>
        refine shown_recordBody reader ?_ read
        exact ⟨nofun, nofun, nofun⟩
      next => cases read
    next => cases read

theorem shown_plainAliases (scope : List String) (parts : List DeclaratorPart) :
    ∀ a ∈ plainAliases scope parts, a.Shown := by
  unfold plainAliases
  split
  · exact nofun
  · split
    · exact nofun
    · split
      · exact nofun
      · intro a mem
        obtain ⟨d, -, rfl⟩ := List.mem_map.mp mem
        exact d.isWritten_kind

theorem shown_recordAliases {decl : TypeDecl} (shown : decl.Shown) (scope : List String)
    (statement : Tokens) :
    (∀ type ∈ (recordAliases scope decl statement).types, type.Shown) ∧
      ∀ a ∈ (recordAliases scope decl statement).aliases, a.Shown := by
  unfold recordAliases
  dsimp only
  split
  next => exact ⟨nofun, nofun⟩
  next name named =>
    refine ⟨fun type mem => ?_, fun a mem => ?_⟩
    · cases List.mem_singleton.mp mem
      exact shown.congr rfl rfl rfl
    · obtain ⟨d, -, rfl⟩ := List.mem_map.mp mem
      exact d.isWritten_kind

theorem shown_typedef (reader : body.Shows) {outcome : TypedefOutcome}
    (read : c.typedef body namespaces enclosing = (.ok outcome, d)) :
    (∀ type ∈ outcome.types, type.Shown) ∧ ∀ a ∈ outcome.aliases, a.Shown := by
  unfold typedef at read
  dsimp only at read
  split at read
  next => cases read
  next decl e defined =>
    have shown := shown_record reader defined
    split at read <;> cases read
    · exact ⟨nofun, nofun⟩
    · exact shown_recordAliases shown _ _
  next =>
    cases read
    unfold plainTypedef
    split
    · exact ⟨nofun, nofun⟩
    · split
      · exact ⟨nofun, nofun⟩
      · exact ⟨nofun, shown_plainAliases _ _⟩

theorem shown_usingAlias (scope : List String) (c : Cursor) :
    ∀ a ∈ (c.usingAlias scope).1, a.Shown := by
  unfold usingAlias
  split
  next =>
    dsimp only
    split
    · exact nofun
    next statement ends =>
      split
      · exact nofun
      · intro a same
        cases same
        exact isWritten_stripReversed rfl _
  next => exact nofun

end Cursor

namespace MemberState
variable {s : MemberState} {body : BodyReader}

theorem shown_foldl {α : Type} {take : MemberState → α → MemberState} {as : List α}
    (keeps : ∀ s, ∀ a ∈ as, s.record.Shown → (take s a).record.Shown) {s : MemberState}
    (shown : s.record.Shown) : (as.foldl take s).record.Shown := by
  induction as generalizing s with
  | nil => exact shown
  | cons a as ih =>
    exact ih (fun s b mem => keeps s b (List.mem_cons_of_mem a mem))
      (keeps s a List.mem_cons_self shown)

theorem shown_addField {f : Field} (own : f.Shown) (shown : s.record.Shown) :
    (s.addField f).record.Shown := by
  refine ⟨fun g mem => ?_, shown.aliases, shown.nested⟩
  rcases List.mem_append.mp mem with old | new
  · exact shown.fields g old
  · exact List.mem_singleton.mp new ▸ own

theorem shown_addNested {decl : TypeDecl} (inner : decl.Shown) (shown : s.record.Shown) :
    (s.addNested decl).record.Shown := by
  refine ⟨shown.fields, shown.aliases, fun type mem => ?_⟩
  rcases List.mem_append.mp mem with old | new
  · exact shown.nested type old
  · cases List.mem_singleton.mp new
    exact inner.congr rfl rfl rfl

theorem shown_addAliases {added : List AliasDecl} (own : ∀ a ∈ added, a.Shown)
    (shown : s.record.Shown) :
    { s.record with aliases := s.record.aliases ++ added : TypeDecl }.Shown := by
  refine ⟨shown.fields, fun a mem => ?_, shown.nested⟩
  exact (List.mem_append.mp mem).elim (shown.aliases a) (own a)

theorem shown_addParts {attributes : List Attribute} {start : Span} {type? : Option String}
    {first : Bool} {parts : List DeclaratorPart} {s : MemberState} (shown : s.record.Shown) :
    (addParts attributes start type? first parts s).record.Shown := by
  fun_induction addParts attributes start type? first parts s with
  | case1 | case3 => exact shown
  | case2 _ _ _ _ _ _ _ ih => exact ih shown
  | case4 _ _ _ _ _ _ _ _ _ _ _ ih => exact ih shown
  | case5 _ _ _ _ _ _ d _ _ _ _ _ ih => exact ih (shown_addField d.isWritten_kind shown)

theorem shown_member (shown : s.record.Shown) : s.member.record.Shown := by
  unfold member
  dsimp only
  split
  · exact shown
  · split
    · exact shown
    · exact shown_addParts shown

theorem shown_trailingFields (type : String) (shown : s.record.Shown) :
    (s.trailingFields type).record.Shown := by
  unfold trailingFields
  split
  · exact shown
  · refine shown_foldl (fun s f mem => shown_addField ?_) shown
    obtain ⟨part, -, read⟩ := List.mem_filterMap.mp mem
    obtain ⟨⟨type, d⟩, -, rfl⟩ := Option.map_eq_some_iff.mp read
    exact d.isWritten_kind

theorem shown_takeDefinition {decl : TypeDecl} (inner : decl.Shown) (shown : s.record.Shown) :
    (s.takeDefinition decl).record.Shown := by
  unfold takeDefinition
  split
  · refine shown_foldl (fun s f mem => shown_addField ?_) shown
    exact inner.fields f mem
  · exact shown
  · exact shown_addNested inner shown
  · exact shown_trailingFields _ (shown_addNested inner shown)

theorem shown_nestedRecord (reader : body.Shows) (shown : s.record.Shown) (isTemplate : Bool) :
    (s.nestedRecord body isTemplate).All (·.record.Shown) := by
  unfold nestedRecord
  split
  next => exact shown
  next decl c read => exact shown_takeDefinition (Cursor.shown_record reader read) shown
  next => exact shown
  next => exact shown_member shown

theorem shown_nestedEnum (shown : s.record.Shown) : s.nestedEnum.record.Shown := by
  unfold nestedEnum
  split
  next => exact shown_member shown
  next decl c read =>
    dsimp only
    split
    · exact shown.congr rfl rfl rfl
    · split
      · exact shown.congr rfl rfl rfl
      · exact shown_trailingFields decl.name (s := ⟨_, _, _⟩) (shown.congr rfl rfl rfl)

theorem shown_nestedTypedef (reader : body.Shows) (shown : s.record.Shown) :
    (s.nestedTypedef body).All (·.record.Shown) := by
  unfold nestedTypedef
  split
  next => exact shown
  next outcome c read =>
    obtain ⟨types, aliases⟩ := Cursor.shown_typedef reader read
    have added : (outcome.types.foldl addNested { s with cursor := c }).record.Shown :=
      shown_foldl (fun s type mem => shown_addNested (types type mem)) shown
    exact shown_addAliases aliases added

theorem shown_nestedAlias (shown : s.record.Shown) : s.nestedAlias.record.Shown := by
  have own := Cursor.shown_usingAlias s.record.scope s.cursor
  exact shown_addAliases (fun a mem => own a (Option.mem_toList.mp mem)) shown

theorem shown_nestedTemplate (reader : body.Shows) (shown : s.record.Shown) :
    (s.nestedTemplate body).All (·.record.Shown) := by
  unfold nestedTemplate
  dsimp only
  split
  · exact shown_nestedRecord reader (s := s.goto s.cursor.rest.advance.skipAngles) shown true
  · exact shown

theorem shown_wordRound (reader : body.Shows) (shown : s.record.Shown) (word : String) :
    (s.wordRound body word).All (·.record.Shown) := by
  unfold wordRound
  dsimp only
  split
  next => exact shown
  split
  · exact shown_nestedRecord reader shown false
  split
  · exact shown_nestedTemplate reader shown
  split
  · exact shown_nestedEnum shown
  split
  · exact shown_nestedTypedef reader shown
  split
  · exact shown_nestedAlias shown
  split
  · exact shown
  split
  · exact shown
  · exact shown_member shown

theorem shown_round (reader : body.Shows) (shown : s.record.Shown) :
    (s.round body).All (·.record.Shown) := by
  unfold round
  split
  case h_6 =>
    split
    · exact shown_member shown
    · exact shown
  case h_7 word _ => exact shown_wordRound reader shown word
  case h_5 => exact shown_member shown
  all_goals exact shown

end MemberState

theorem shows_typeBody (room : Nat) : BodyReader.Shows (typeBody room) := by
  induction room with
  | zero => exact fun decl c shown => shown
  | succ room ih =>
    intro decl c shown
    exact Guard.loop_all "member list" (fun s : MemberState => s.cursor.rest.length)
      (P := fun s => s.record.Shown) (fun s shown => MemberState.shown_round ih shown)
      (s := ⟨decl, decl.key.defaultVisibility, c⟩) shown

inductive Namespace.Shown : Namespace → Prop where
  | intro {ns : Namespace} (types : ∀ type ∈ ns.types, type.Shown)
      (aliases : ∀ a ∈ ns.aliases, a.Shown) (children : ∀ child ∈ ns.children, child.Shown) :
      ns.Shown

namespace Namespace
variable {ns new other : Namespace}

theorem Shown.types (shown : ns.Shown) : ∀ type ∈ ns.types, type.Shown := by
  cases shown
  assumption

theorem Shown.aliases (shown : ns.Shown) : ∀ a ∈ ns.aliases, a.Shown := by
  cases shown
  assumption

theorem Shown.children (shown : ns.Shown) : ∀ child ∈ ns.children, child.Shown := by
  cases shown
  assumption

theorem Shown.congr (shown : ns.Shown) (types : new.types = ns.types)
    (aliases : new.aliases = ns.aliases) (children : new.children = ns.children) : new.Shown :=
  ⟨types ▸ shown.types, aliases ▸ shown.aliases, children ▸ shown.children⟩

theorem Shown.child (shown : ns.Shown) (name : String) : (ns.child name).Shown := by
  unfold Namespace.child
  cases found : ns.children.find? (·.name = name) with
  | none => exact ⟨nofun, nofun, nofun⟩
  | some own => exact shown.children own (List.mem_of_find?_eq_some found)

theorem Shown.putChild (shown : ns.Shown) (added : new.Shown) : (ns.putChild new).Shown := by
  refine ⟨shown.types, shown.aliases, fun child mem => ?_⟩
  rcases mem_putIn mem with rfl | old
  · exact added
  · exact shown.children child old

theorem Shown.descend (shown : ns.Shown) (path : List String) : (ns.descend path).Shown := by
  induction path generalizing ns with
  | nil => exact shown
  | cons name path ih => exact ih (shown.child name)

theorem Shown.graft (shown : ns.Shown) (path : List String) (added : new.Shown) :
    (ns.graft path new).Shown := by
  induction path generalizing ns with
  | nil => exact added
  | cons name path ih => exact shown.putChild (ih (shown.child name))

theorem Shown.addUsing (shown : ns.Shown) (target : String) : (ns.addUsing target).Shown := by
  unfold Namespace.addUsing
  split
  · exact shown
  · exact shown.congr rfl rfl rfl

theorem Shown.merge (shown : ns.Shown) (added : other.Shown) : (ns.merge other).1.Shown := by
  induction added generalizing ns with
  | @intro other types aliases children ih =>
    rw [merge_eq]
    refine mergeChildren_keeps (fun name own => own.child name) Shown.putChild ih ?_
    rw [mergeShallow_fst]
    refine ⟨fun type mem => (mem_foldl_holdType mem).elim (shown.types type) (types type),
      fun a mem => ?_, shown.children⟩
    exact (List.mem_append.mp mem).elim (shown.aliases a) (aliases a)

end Namespace

def ScopeReader.Shows (inner : ScopeReader) : Prop :=
  ∀ body scope (s : ScopeState), s.ns.Shown → (inner body scope s).1.ns.Shown

namespace ScopeState
variable {s : ScopeState} {body : BodyReader} {inner : ScopeReader} {scope : List String}

theorem shown_addTypes {types : List TypeDecl} (own : ∀ type ∈ types, type.Shown)
    (shown : s.ns.Shown) : (s.addTypes types).ns.Shown :=
  ⟨fun type mem => (List.mem_append.mp mem).elim (shown.types type) (own type), shown.aliases,
    shown.children⟩

theorem shown_addAliases {aliases : List AliasDecl} (own : ∀ a ∈ aliases, a.Shown)
    (shown : s.ns.Shown) : (s.addAliases aliases).ns.Shown :=
  ⟨shown.types, fun a mem => (List.mem_append.mp mem).elim (shown.aliases a) (own a),
    shown.children⟩

theorem shown_record (reader : body.Shows) (shown : s.ns.Shown) (isTemplate : Bool) :
    (s.record body scope isTemplate).All (·.ns.Shown) := by
  unfold record
  split
  next => exact shown
  next decl c read =>
    refine shown_addTypes (fun type mem => ?_) shown
    split at mem
    · cases mem
    · exact List.mem_singleton.mp mem ▸ Cursor.shown_record reader read
  next => exact shown
  next => exact shown

theorem shown_close (message : String) (start : Span) (shown : s.ns.Shown) :
    (s.close message start).ns.Shown := by
  unfold close
  split <;> exact shown

theorem shown_openNamespace (reader : inner.Shows) (shown : s.ns.Shown) :
    (s.openNamespace inner scope).All (·.ns.Shown) := by
  unfold openNamespace
  dsimp only
  generalize s.cursor.advance.attributeSpecifiers.2 = c
  generalize c.rest.qualifiedName = name
  generalize (c.goto name.2).attributeSpecifiers.2 = d
  split
  next =>
    have inside := reader "namespace" (scope ++ name.1) ⟨s.ns.descend name.1, d.advance⟩
      (shown.descend name.1)
    have grafted := shown.graft name.1 inside
    split
    · exact grafted
    · exact shown_close _ _ (s := ⟨_, _⟩) grafted
  next => exact shown

theorem shown_linkage (reader : inner.Shows) (shown : s.ns.Shown) :
    (s.linkage inner scope).All (·.ns.Shown) := by
  have inside := reader "linkage block" scope
    { s with cursor := s.cursor.advance.advance.advance } shown
  unfold linkage
  dsimp only
  split
  next =>
    split
    next final limit read =>
      rw [read] at inside
      exact inside
    next final read =>
      rw [read] at inside
      exact shown_close _ _ inside
  next => exact shown

theorem shown_template (reader : body.Shows) (shown : s.ns.Shown) :
    (s.template body scope).All (·.ns.Shown) := by
  unfold template
  dsimp only
  split
  · exact shown_record (s := { s with cursor := s.cursor.goto s.cursor.rest.advance.skipAngles })
      reader shown true
  · exact shown

theorem shown_typedef (reader : body.Shows) (shown : s.ns.Shown) :
    (s.typedef body scope).All (·.ns.Shown) := by
  unfold typedef
  split
  next => exact shown
  next outcome c read =>
    obtain ⟨types, aliases⟩ := Cursor.shown_typedef reader read
    exact shown_addAliases aliases (shown_addTypes (s := { s with cursor := c }) types shown)

theorem shown_usingDirective (shown : s.ns.Shown) : (s.usingDirective scope).ns.Shown := by
  unfold usingDirective
  split
  · dsimp only
    split
    · exact shown
    · exact shown.addUsing _
  · have own := Cursor.shown_usingAlias scope s.cursor
    exact shown_addAliases (s := { s with cursor := _ })
      (fun a mem => own a (Option.mem_toList.mp mem)) shown

theorem shown_wordRound (types : body.Shows) (scopes : inner.Shows) (shown : s.ns.Shown)
    (word : String) : (s.wordRound body inner scope word).All (·.ns.Shown) := by
  unfold wordRound
  dsimp only
  split
  · exact shown_openNamespace scopes shown
  split
  · exact shown
  refine iteInduction (motive := Round.All fun s : ScopeState => s.ns.Shown) (fun _ => ?_) fun _ => ?_
  · exact shown_linkage scopes shown
  split
  · exact shown_template types shown
  split
  · exact shown_record types shown false
  split
  · exact shown.congr rfl rfl rfl
  split
  · exact shown_typedef types shown
  split
  · exact shown_usingDirective shown
  · exact shown

theorem shown_round (types : body.Shows) (scopes : inner.Shows) (shown : s.ns.Shown) :
    (s.round body inner scope).All (·.ns.Shown) := by
  unfold round
  split
  case h_7 word _ => exact shown_wordRound types scopes shown word
  all_goals exact shown

end ScopeState

theorem shows_innerReader (room : Nat) : (Grammar.innerReader room).Shows := by
  induction room with
  | zero => exact fun body scope s shown => shown
  | succ room ih =>
    intro body scope s shown
    have run : Grammar.innerReader (room + 1) body scope s = _ :=
      Grammar.declarations_eq room scope s
    rw [run]
    exact Guard.loop_all "declarations" ScopeState.position (P := fun s => s.ns.Shown)
      (fun s shown => ScopeState.shown_round (shows_typeBody room) ih shown) (s := s) shown

theorem shown_fileRound {s : ScopeState} (shown : s.ns.Shown) : (fileRound s).All (·.ns.Shown) := by
  have inside : (declarations maxDepth [] s).1.ns.Shown :=
    shows_innerReader (maxDepth + 1) "" [] s shown
  unfold fileRound
  split
  next final limit read =>
    rw [read] at inside
    exact inside
  next final read =>
    rw [read] at inside
    split <;> exact inside

/-- Whatever a header holds, it tells of a type only what shows. -/
theorem Header.shown_read (source : Source) : (read source).root.Shown :=
  Guard.loop_all "file" ScopeState.position (P := fun s => s.ns.Shown)
    (fun _ shown => shown_fileRound shown) (s := start source) ⟨nofun, nofun, nofun⟩

namespace Namespace

def enumsWithin (root : Namespace) : List EnumDecl :=
  root.scopes.flatMap (·.2.enums) ++ root.walk.flatMap (·.enums)

def aliasesWithin (root : Namespace) : List AliasDecl :=
  root.scopes.flatMap (·.2.aliases) ++ root.walk.flatMap (·.aliases)

end Namespace

namespace Namespace

mutual
theorem walk_eq : ∀ ns : Namespace, ns.walk = ns.scopes.flatMap fun s => TypeDecl.walkAll s.2.types
  | ⟨name, types, enums, aliases, usings, children⟩ => by
    rw [walk, scopes, List.flatMap_cons, walkAll_eq]

theorem walkAll_eq : ∀ all : List Namespace,
    walkAll all = (scopesAll all).flatMap fun s => TypeDecl.walkAll s.2.types
  | [] => by rw [walkAll, scopesAll, List.flatMap_nil]
  | ns :: rest => by
    rw [walkAll, scopesAll, List.flatMap_append, walk_eq, walkAll_eq, List.flatMap_map]
end

end Namespace

/-- The tree is as it was read: types have names, and what a type stands for is told of fields and
aliases only where the declaration shows it. -/
structure Namespace.Written (root : Namespace) : Prop where
  named : ∀ t ∈ root.walk, t.name ≠ ""
  fields : ∀ t ∈ root.walk, ∀ f ∈ t.fields, f.type.kind.isWritten = true
  aliases : ∀ a ∈ root.aliasesWithin, a.target.kind.isWritten = true

section Listing
variable {d t : TypeDecl} {ns root : Namespace}

theorem TypeDecl.mem_walkAll {ds : List TypeDecl} :
    t ∈ TypeDecl.walkAll ds ↔ ∃ d ∈ ds, t ∈ d.walk := by
  induction ds with
  | nil => simp [walkAll]
  | cons d ds ih => simp [walkAll, ih]

theorem TypeDecl.Shown.walk (shown : d.Shown) : ∀ t ∈ d.walk, t.Shown := by
  induction shown with
  | @intro d fields aliases nested ih =>
    intro t mem
    obtain ⟨⟩ := d
    rw [TypeDecl.walk] at mem
    rcases List.mem_cons.mp mem with rfl | inner
    · exact ⟨fields, aliases, nested⟩
    · obtain ⟨own, inside, mem⟩ := TypeDecl.mem_walkAll.mp inner
      exact ih own inside t mem

theorem Namespace.Shown.scopes (shown : ns.Shown) : ∀ s ∈ ns.scopes, s.2.Shown := by
  induction shown with
  | @intro ns types aliases children ih =>
    intro s mem
    rw [scopes_eq] at mem
    rcases List.mem_cons.mp mem with rfl | below
    · exact ⟨types, aliases, children⟩
    · obtain ⟨child, inside, mem⟩ := List.mem_flatMap.mp below
      obtain ⟨own, inner, rfl⟩ := List.mem_map.mp mem
      exact ih child inside own inner

theorem Namespace.Shown.walk (shown : ns.Shown) : ∀ t ∈ ns.walk, t.Shown := by
  intro t mem
  rw [walk_eq] at mem
  obtain ⟨s, space, mem⟩ := List.mem_flatMap.mp mem
  obtain ⟨d, inside, mem⟩ := TypeDecl.mem_walkAll.mp mem
  exact ((shown.scopes s space).types d inside).walk t mem

theorem Namespace.Shown.written (shown : ns.Shown) (named : ∀ t ∈ ns.walk, t.name ≠ "") :
    ns.Written where
  named := named
  fields t mem f field := (shown.walk t mem).fields f field
  aliases a mem := by
    rcases List.mem_append.mp mem with spaced | typed
    · obtain ⟨s, space, own⟩ := List.mem_flatMap.mp spaced
      exact (shown.scopes s space).aliases a own
    · obtain ⟨t, inside, own⟩ := List.mem_flatMap.mp typed
      exact (shown.walk t inside).aliases a own

end Listing

end HeaderMeta
