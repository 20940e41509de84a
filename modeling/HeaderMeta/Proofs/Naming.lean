import HeaderMeta.Declaration.Index
import HeaderMeta.HeaderTree
import HeaderMeta.Proofs.Merge
import HeaderMeta.Proofs.Naming.Words
import HeaderMeta.Proofs.Progress

/-! Every indexed type of a header tree has a name, and its scope consists of words. -/

set_option autoImplicit false

namespace HeaderMeta

section Loops
variable {σ : Type} {P : σ → Prop}

def Round.All (P : σ → Prop) : Round σ → Prop
  | .again s | .done s | .refused s _ => P s

theorem Guard.loopFrom_all {name : String} {position : σ → Nat} {step : σ → Round σ}
    (steps : ∀ s, P s → (step s).All P) (left : Nat) (last : Option Nat) {s : σ} (start : P s) :
    P (Guard.loopFrom name position step left last s).1 := by
  induction left generalizing last s with
  | zero => exact start
  | succ left ih =>
    have after := steps s start
    unfold Guard.loopFrom
    split
    · exact start
    · split
      next next round =>
        rw [round] at after
        exact ih _ after
      next final round =>
        rw [round] at after
        exact after
      next final limit round =>
        rw [round] at after
        exact after

theorem Guard.loop_all (name : String) (position : σ → Nat) {step : σ → Round σ}
    (steps : ∀ s, P s → (step s).All P) {s : σ} (start : P s) :
    P (Guard.loop name position step s).1 :=
  loopFrom_all steps _ _ start

theorem Round.Moves.sound {room : Nat} {cursor : σ → Cursor} {s : σ} {round : Round σ}
    (moves : round.Moves room cursor s) (sound : (cursor s).Sound) :
    round.All fun t => (cursor t).Sound := by
  cases round with
  | again next => exact moves.toOnward.sound sound
  | done final => exact Cursor.Onward.sound moves sound
  | refused final limit => exact moves.1.sound sound

theorem Round.All.and {Q : σ → Prop} {round : Round σ} (left : round.All P) (right : round.All Q) :
    round.All fun s => P s ∧ Q s := by
  cases round <;> exact ⟨left, right⟩

end Loops

namespace MemberState
open Cursor
variable {s : MemberState} {room : Nat} {body : BodyReader}

theorem spelled_foldl {α : Type} {take : MemberState → α → MemberState} {as : List α}
    (keeps : ∀ s, ∀ a ∈ as, s.record.Spelled → (take s a).record.Spelled) {s : MemberState}
    (spelled : s.record.Spelled) : (as.foldl take s).record.Spelled := by
  induction as generalizing s with
  | nil => exact spelled
  | cons a as ih =>
    exact ih (fun s b mem => keeps s b (List.mem_cons_of_mem a mem))
      (keeps s a List.mem_cons_self spelled)

theorem spelled_addField (f : Field) (spelled : s.record.Spelled) : (s.addField f).record.Spelled :=
  spelled.congr rfl rfl

theorem spelled_addNested {decl : TypeDecl} (inner : decl.Spelled) (spelled : s.record.Spelled) :
    (s.addNested decl).record.Spelled := by
  refine ⟨spelled.scope, fun type mem => ?_⟩
  rcases List.mem_append.mp mem with old | new
  · exact spelled.nested type old
  · cases List.mem_singleton.mp new
    exact inner.congr rfl rfl

theorem spelled_addParts {attributes : List Attribute} {start : Span} {type? : Option String}
    {first : Bool} {parts : List DeclaratorPart} {s : MemberState} (spelled : s.record.Spelled) :
    (addParts attributes start type? first parts s).record.Spelled := by
  fun_induction addParts attributes start type? first parts s with
  | case1 | case3 => exact spelled
  | case2 _ _ _ _ _ _ _ ih => exact ih spelled
  | case4 _ _ _ _ _ _ _ _ _ _ _ ih => exact ih spelled
  | case5 _ _ _ _ _ _ _ _ _ _ _ _ ih => exact ih (spelled_addField _ spelled)

theorem spelled_member (spelled : s.record.Spelled) : s.member.record.Spelled := by
  unfold member
  dsimp only
  split
  · exact spelled
  · split
    · exact spelled
    · exact spelled_addParts spelled

theorem spelled_trailingFields (type : String) (spelled : s.record.Spelled) :
    (s.trailingFields type).record.Spelled := by
  unfold trailingFields
  split
  · exact spelled
  · exact spelled_foldl (fun s f _ => spelled_addField f) spelled

theorem spelled_takeDefinition {decl : TypeDecl} (inner : decl.Spelled)
    (spelled : s.record.Spelled) : (s.takeDefinition decl).record.Spelled := by
  unfold takeDefinition
  split
  · exact spelled_foldl (fun s f _ => spelled_addField _) spelled
  · exact spelled
  · exact spelled_addNested inner spelled
  · exact spelled_trailingFields _ (spelled_addNested inner spelled)

theorem innerScope {d : TypeDecl} (spelled : d.Spelled) :
    ∀ part ∈ d.namespaces ++ d.innerEnclosing, IsWord part := by
  intro part mem
  refine spelled.scope part ?_
  simpa only [TypeDecl.innerEnclosing, TypeDecl.scope, TypeDecl.parentScope, List.append_assoc]
    using mem

theorem spelled_nestedRecord (names : body.Names) (sound : s.cursor.Sound)
    (spelled : s.record.Spelled) (isTemplate : Bool) :
    (s.nestedRecord body isTemplate).All (·.record.Spelled) := by
  unfold nestedRecord
  split
  next => exact spelled
  next decl c read =>
    exact spelled_takeDefinition (spelled_record names sound (innerScope spelled) read) spelled
  next => exact spelled
  next => exact spelled_member spelled

theorem spelled_nestedEnum (spelled : s.record.Spelled) : s.nestedEnum.record.Spelled := by
  unfold nestedEnum
  split
  next => exact spelled_member spelled
  next decl c read =>
    dsimp only
    split
    · exact spelled.congr rfl rfl
    · split
      · exact spelled.congr rfl rfl
      · exact spelled_trailingFields decl.name (s := ⟨_, _, _⟩) (spelled.congr rfl rfl)

theorem spelled_nestedTypedef (steady : body.Steady room) (names : body.Names)
    (sound : s.cursor.Sound) (spelled : s.record.Spelled) :
    (s.nestedTypedef body).All (·.record.Spelled) := by
  unfold nestedTypedef
  split
  next => exact spelled
  next outcome c read =>
    have types := spelled_typedef steady names sound (innerScope spelled) read
    have added : (outcome.types.foldl addNested { s with cursor := c }).record.Spelled :=
      spelled_foldl (fun s type mem => spelled_addNested (types type mem)) spelled
    exact added.congr rfl rfl

theorem spelled_nestedTemplate (names : body.Names) (sound : s.cursor.Sound)
    (spelled : s.record.Spelled) : (s.nestedTemplate body).All (·.record.Spelled) := by
  have entered := onward_goto ((Tokens.ahead_advance s.cursor.rest).trans (Tokens.ahead_skipAngles _))
  unfold nestedTemplate
  dsimp only
  split
  · exact spelled_nestedRecord names (s := s.goto _) (entered.sound sound) spelled true
  · exact spelled

theorem spelled_wordRound (steady : body.Steady room) (names : body.Names) (sound : s.cursor.Sound)
    (spelled : s.record.Spelled) (word : String) :
    (s.wordRound body word).All (·.record.Spelled) := by
  unfold wordRound
  dsimp only
  split
  next => exact spelled
  split
  · exact spelled_nestedRecord names sound spelled false
  split
  · exact spelled_nestedTemplate names sound spelled
  split
  · exact spelled_nestedEnum spelled
  split
  · exact spelled_nestedTypedef steady names sound spelled
  split
  · exact spelled.congr rfl rfl
  split
  · exact spelled
  split
  · exact spelled
  · exact spelled_member spelled

theorem spelled_round (steady : body.Steady room) (names : body.Names) (sound : s.cursor.Sound)
    (spelled : s.record.Spelled) : (s.round body).All (·.record.Spelled) := by
  unfold round
  split
  case h_6 =>
    split
    · exact spelled_member spelled
    · exact spelled
  case h_7 word _ => exact spelled_wordRound steady names sound spelled word
  case h_5 => exact spelled_member spelled
  all_goals exact spelled

end MemberState

theorem names_typeBody (room : Nat) : BodyReader.Names (typeBody room) := by
  induction room with
  | zero => exact fun decl c sound spelled => spelled
  | succ room ih =>
    intro decl c sound spelled
    have steady := steady_typeBody room
    have kept := Guard.loop_all "member list" (fun s : MemberState => s.cursor.rest.length)
      (P := fun s => s.cursor.Sound ∧ s.record.Spelled)
      (fun s ⟨sound, spelled⟩ => ((MemberState.moves_round steady s sound.closed).sound sound).and
        (MemberState.spelled_round steady ih sound spelled))
      (s := ⟨decl, decl.key.defaultVisibility, c⟩) ⟨sound, spelled⟩
    exact kept.2

inductive Namespace.Spelled : Namespace → Prop where
  | intro {ns : Namespace} (types : ∀ type ∈ ns.types, type.Spelled)
      (children : ∀ child ∈ ns.children, child.Spelled) : ns.Spelled

namespace Namespace
variable {ns new : Namespace}

theorem Spelled.types (spelled : ns.Spelled) : ∀ type ∈ ns.types, type.Spelled := by
  cases spelled
  assumption

theorem Spelled.children (spelled : ns.Spelled) : ∀ child ∈ ns.children, child.Spelled := by
  cases spelled
  assumption

theorem Spelled.congr (spelled : ns.Spelled) (types : new.types = ns.types)
    (children : new.children = ns.children) : new.Spelled :=
  ⟨types ▸ spelled.types, children ▸ spelled.children⟩

theorem Spelled.child (spelled : ns.Spelled) (name : String) : (ns.child name).Spelled := by
  unfold Namespace.child
  cases found : ns.children.find? (·.name = name) with
  | none => exact ⟨nofun, nofun⟩
  | some own => exact spelled.children own (List.mem_of_find?_eq_some found)

theorem Spelled.putChild (spelled : ns.Spelled) (added : new.Spelled) : (ns.putChild new).Spelled := by
  refine ⟨spelled.types, fun child mem => ?_⟩
  rcases mem_putIn mem with rfl | old
  · exact added
  · exact spelled.children child old

theorem Spelled.descend (spelled : ns.Spelled) (path : List String) : (ns.descend path).Spelled := by
  induction path generalizing ns with
  | nil => exact spelled
  | cons name path ih => exact ih (spelled.child name)

theorem Spelled.graft (spelled : ns.Spelled) (path : List String) (added : new.Spelled) :
    (ns.graft path new).Spelled := by
  induction path generalizing ns with
  | nil => exact added
  | cons name path ih => exact spelled.putChild (ih (spelled.child name))

theorem Spelled.append (spelled : ns.Spelled) {types : List TypeDecl}
    (added : ∀ type ∈ types, type.Spelled) :
    ({ ns with types := ns.types ++ types } : Namespace).Spelled := by
  refine ⟨fun type mem => ?_, spelled.children⟩
  rcases List.mem_append.mp mem with old | new
  · exact spelled.types type old
  · exact added type new

theorem Spelled.addUsing (spelled : ns.Spelled) (target : String) : (ns.addUsing target).Spelled := by
  unfold Namespace.addUsing
  split
  · exact spelled
  · exact spelled.congr rfl rfl

end Namespace

def ScopeReader.Names (inner : ScopeReader) : Prop :=
  ∀ body scope (s : ScopeState), s.cursor.Sound → s.ns.Spelled → (∀ part ∈ scope, IsWord part) →
    (inner body scope s).1.ns.Spelled

namespace ScopeState
open Cursor
variable {s : ScopeState} {room : Nat} {body : BodyReader} {inner : ScopeReader} {scope : List String}

theorem spelled_record (names : body.Names) (sound : s.cursor.Sound) (spelled : s.ns.Spelled)
    (words : ∀ part ∈ scope, IsWord part) (isTemplate : Bool) :
    (s.record body scope isTemplate).All (·.ns.Spelled) := by
  unfold record
  split
  next => exact spelled
  next decl c read =>
    have own := Cursor.spelled_record names sound (by simpa using words) read
    refine spelled.append fun type mem => ?_
    split at mem
    · cases mem
    · exact List.mem_singleton.mp mem ▸ own
  next => exact spelled
  next => exact spelled

theorem spelled_close (message : String) (start : Span) (spelled : s.ns.Spelled) :
    (s.close message start).ns.Spelled := by
  unfold close
  split <;> exact spelled

theorem spelled_openNamespace (names : inner.Names) (sound : s.cursor.Sound)
    (spelled : s.ns.Spelled) (words : ∀ part ∈ scope, IsWord part) :
    (s.openNamespace inner scope).All (·.ns.Spelled) := by
  have first := ((onward_advance s.cursor).trans (onward_attributeSpecifiers _)).sound sound
  unfold openNamespace
  dsimp only
  generalize s.cursor.advance.attributeSpecifiers.2 = c at first ⊢
  have parts := Tokens.isWord_qualifiedName first.spelled
  have second := ((onward_goto (Tokens.ahead_qualifiedName c.rest)).trans
    (onward_attributeSpecifiers _)).sound first
  generalize c.rest.qualifiedName = name at parts second ⊢
  generalize (c.goto name.2).attributeSpecifiers.2 = d at second ⊢
  split
  next =>
    have inside := names "namespace" (scope ++ name.1) ⟨s.ns.descend name.1, d.advance⟩
      ((onward_advance d).sound second) (spelled.descend name.1) fun part mem =>
        (List.mem_append.mp mem).elim (words part) (parts part)
    have grafted := spelled.graft name.1 inside
    split
    · exact grafted
    · exact spelled_close _ _ (s := ⟨_, _⟩) grafted
  next => exact spelled

theorem spelled_linkage (names : inner.Names) (sound : s.cursor.Sound) (spelled : s.ns.Spelled)
    (words : ∀ part ∈ scope, IsWord part) : (s.linkage inner scope).All (·.ns.Spelled) := by
  have entered := ((onward_advance s.cursor).trans (onward_advance _)).trans (onward_advance _)
  have inside := names "linkage block" scope
    { s with cursor := s.cursor.advance.advance.advance } (entered.sound sound) spelled words
  unfold linkage
  dsimp only
  split
  next =>
    split
    next final limit read =>
      rw [read] at inside
      exact inside
    next final read =>
      rw [read] at inside
      exact spelled_close _ _ inside
  next => exact spelled

theorem spelled_template (names : body.Names) (sound : s.cursor.Sound) (spelled : s.ns.Spelled)
    (words : ∀ part ∈ scope, IsWord part) : (s.template body scope).All (·.ns.Spelled) := by
  have entered := onward_goto ((Tokens.ahead_advance s.cursor.rest).trans (Tokens.ahead_skipAngles _))
  unfold template
  dsimp only
  split
  · exact spelled_record names (s := ⟨s.ns, _⟩) (entered.sound sound) spelled words true
  · exact spelled

theorem spelled_typedef (steady : body.Steady room) (names : body.Names) (sound : s.cursor.Sound)
    (spelled : s.ns.Spelled) (words : ∀ part ∈ scope, IsWord part) :
    (s.typedef body scope).All (·.ns.Spelled) := by
  unfold typedef
  split
  next => exact spelled
  next outcome c read =>
    have types := Cursor.spelled_typedef steady names sound (by simpa using words) read
    exact (spelled.append types).congr rfl rfl

theorem spelled_usingDirective (spelled : s.ns.Spelled) : (s.usingDirective scope).ns.Spelled := by
  unfold usingDirective
  split
  · dsimp only
    split
    · exact spelled
    · exact spelled.addUsing _
  · exact spelled.congr rfl rfl

theorem spelled_wordRound (steady : body.Steady room) (types : body.Names) (scopes : inner.Names)
    (sound : s.cursor.Sound) (spelled : s.ns.Spelled) (words : ∀ part ∈ scope, IsWord part)
    (word : String) : (s.wordRound body inner scope word).All (·.ns.Spelled) := by
  unfold wordRound
  dsimp only
  split
  · exact spelled_openNamespace scopes sound spelled words
  split
  · exact spelled
  refine iteInduction (motive := Round.All fun s : ScopeState => s.ns.Spelled) (fun _ => ?_) fun _ => ?_
  · exact spelled_linkage scopes sound spelled words
  split
  · exact spelled_template types sound spelled words
  split
  · exact spelled_record types sound spelled words false
  split
  · exact spelled.congr rfl rfl
  split
  · exact spelled_typedef steady types sound spelled words
  split
  · exact spelled_usingDirective spelled
  · exact spelled

theorem spelled_round (steady : body.Steady room) (types : body.Names) (scopes : inner.Names)
    (words : ∀ part ∈ scope, IsWord part) (sound : s.cursor.Sound) (spelled : s.ns.Spelled) :
    (s.round body inner scope).All (·.ns.Spelled) := by
  unfold round
  split
  case h_7 word _ => exact spelled_wordRound steady types scopes sound spelled words word
  all_goals exact spelled

end ScopeState

theorem names_innerReader (room : Nat) : (Grammar.innerReader room).Names := by
  induction room with
  | zero => exact fun body scope s sound spelled words => spelled
  | succ room ih =>
    intro body scope s sound spelled words
    have run : Grammar.innerReader (room + 1) body scope s = _ :=
      Grammar.declarations_eq room scope s
    rw [run]
    have types := steady_typeBody room
    have kept := Guard.loop_all "declarations" ScopeState.position
      (P := fun s => s.cursor.Sound ∧ s.ns.Spelled)
      (fun s ⟨sound, spelled⟩ =>
        ((ScopeState.moves_round types (steady_innerReader room) scope s sound.closed).sound sound).and
          (ScopeState.spelled_round types (names_typeBody room) ih words sound spelled))
      (s := s) ⟨sound, spelled⟩
    exact kept.2

theorem spelled_fileRound {s : ScopeState} (sound : s.cursor.Sound) (spelled : s.ns.Spelled) :
    (fileRound s).All (·.ns.Spelled) := by
  have inside : (declarations maxDepth [] s).1.ns.Spelled :=
    names_innerReader (maxDepth + 1) "" [] s sound spelled nofun
  unfold fileRound
  split
  next final limit read =>
    rw [read] at inside
    exact inside
  next final read =>
    rw [read] at inside
    split <;> exact inside

/-- Whatever a header holds, its types have words for names. -/
theorem Header.spelled_read (source : Source) : (read source).root.Spelled := by
  have sound : (start source).cursor.Sound :=
    ⟨closed_ofText source.text, Tokens.spelled_ofText source.text⟩
  have kept := Guard.loop_all "file" ScopeState.position
    (P := fun s => s.cursor.Sound ∧ s.ns.Spelled)
    (fun s ⟨sound, spelled⟩ =>
      ((moves_fileRound s sound.closed).sound sound).and (spelled_fileRound sound spelled))
    (s := start source) ⟨sound, ⟨nofun, nofun⟩⟩
  exact kept.2

namespace Namespace
variable {ns other : Namespace}

theorem mem_foldl_holdType {held types : List TypeDecl} {type : TypeDecl}
    (mem : type ∈ types.foldl holdType held) : type ∈ held ∨ type ∈ types := by
  induction types generalizing held with
  | nil => exact .inl mem
  | cons first types ih =>
    rcases ih mem with old | later
    · unfold holdType at old
      split at old
      · exact .inl old
      · rcases List.mem_append.mp old with old | new
        · exact .inl old
        · exact .inr (List.mem_singleton.mp new ▸ List.mem_cons_self)
    · exact .inr (List.mem_cons_of_mem first later)

theorem mergeChildren_keeps {P : Namespace → Prop} {others : List Namespace}
    (child : ∀ {ns : Namespace} name, P ns → P (ns.child name))
    (put : ∀ {ns new : Namespace}, P ns → P new → P (ns.putChild new))
    (merges : ∀ other ∈ others, ∀ {ns : Namespace}, P ns → P (ns.merge other).1) (holds : P ns) :
    P (ns.mergeChildren others).1 := by
  induction others generalizing ns with
  | nil => rwa [mergeChildren]
  | cons first others ih =>
    rw [mergeChildren]
    refine ih (fun other mem => merges other (List.mem_cons_of_mem first mem)) (put holds ?_)
    exact merges first List.mem_cons_self (child first.name holds)

theorem Spelled.merge (spelled : ns.Spelled) (added : other.Spelled) :
    (ns.merge other).1.Spelled := by
  induction added generalizing ns with
  | @intro other types children ih =>
    rw [merge_eq]
    refine mergeChildren_keeps (fun name own => own.child name) Spelled.putChild ih ?_
    rw [mergeShallow_fst]
    exact ⟨fun type mem => (mem_foldl_holdType mem).elim (spelled.types type) (types type),
      spelled.children⟩

end Namespace

section Resolving
variable (table : SymbolTable)

theorem SymbolTable.resolveTypes_eq (types : List TypeDecl) :
    table.resolveTypes types = types.map table.resolveType := by
  induction types with
  | nil => rw [resolveTypes, List.map_nil]
  | cons type types ih => rw [resolveTypes, ih, List.map_cons]

theorem SymbolTable.resolveNamespaces_eq (all : List Namespace) :
    table.resolveNamespaces all = all.map table.resolveNamespace := by
  induction all with
  | nil => rw [resolveNamespaces, List.map_nil]
  | cons ns rest ih => rw [resolveNamespaces, ih, List.map_cons]

theorem TypeDecl.Spelled.resolveType {d : TypeDecl} (spelled : d.Spelled) :
    (table.resolveType d).Spelled := by
  induction spelled with
  | @intro d scope nested ih =>
    obtain ⟨name, namespaces, enclosing⟩ := d
    rw [SymbolTable.resolveType]
    refine ⟨scope, fun inner mem => ?_⟩
    dsimp only at mem
    rw [SymbolTable.resolveTypes_eq] at mem
    obtain ⟨own, inside, rfl⟩ := List.mem_map.mp mem
    exact ih own inside

theorem Namespace.Spelled.resolveNamespace {ns : Namespace} (spelled : ns.Spelled) :
    (table.resolveNamespace ns).Spelled := by
  induction spelled with
  | @intro ns types children ih =>
    obtain ⟨name, own⟩ := ns
    rw [SymbolTable.resolveNamespace]
    refine ⟨fun type mem => ?_, fun child mem => ?_⟩
    · dsimp only at mem
      rw [SymbolTable.resolveTypes_eq] at mem
      obtain ⟨own, inside, rfl⟩ := List.mem_map.mp mem
      exact (types own inside).resolveType table
    · dsimp only at mem
      rw [SymbolTable.resolveNamespaces_eq] at mem
      obtain ⟨own, inside, rfl⟩ := List.mem_map.mp mem
      exact ih own inside

end Resolving

namespace TypeIndex

theorem typesEntries_eq (accessible templated : Bool) (types : List TypeDecl) :
    typesEntries accessible templated types = types.flatMap (typeEntries accessible templated) := by
  induction types with
  | nil => rw [typesEntries, List.flatMap_nil]
  | cons type types ih => rw [typesEntries, ih, List.flatMap_cons]

theorem namespacesEntries_eq (all : List Namespace) :
    namespacesEntries all = all.flatMap namespaceEntries := by
  induction all with
  | nil => rw [namespacesEntries, List.flatMap_nil]
  | cons ns rest ih => rw [namespacesEntries, ih, List.flatMap_cons]

theorem spelled_typeEntries {d : TypeDecl} (spelled : d.Spelled) (accessible templated : Bool) :
    ∀ t ∈ typeEntries accessible templated d, t.decl.Spelled := by
  induction spelled generalizing accessible templated with
  | @intro d scope nested ih =>
    obtain ⟨name, namespaces, enclosing⟩ := d
    intro t mem
    rw [typeEntries, typesEntries_eq] at mem
    rcases List.mem_cons.mp mem with rfl | inner
    · exact ⟨scope, nested⟩
    · obtain ⟨own, inside, mem⟩ := List.mem_flatMap.mp inner
      exact ih own inside _ _ t mem

theorem spelled_namespaceEntries {ns : Namespace} (spelled : ns.Spelled) :
    ∀ t ∈ namespaceEntries ns, t.decl.Spelled := by
  induction spelled with
  | @intro ns types children ih =>
    obtain ⟨name, own⟩ := ns
    intro t mem
    rw [namespaceEntries, typesEntries_eq, namespacesEntries_eq] at mem
    rcases List.mem_append.mp mem with mem | mem
    · obtain ⟨type, inside, mem⟩ := List.mem_flatMap.mp mem
      exact spelled_typeEntries (types type inside) _ _ t mem
    · obtain ⟨child, inside, mem⟩ := List.mem_flatMap.mp mem
      exact ih child inside t mem

theorem mem_firsts {seen : List String} {ts : List IndexedType} {t : IndexedType}
    (mem : t ∈ firsts seen ts) : t ∈ ts ∧ t.decl.name ≠ "" := by
  fun_induction firsts seen ts with
  | case1 => cases mem
  | case2 seen u ts _ ih => exact ⟨List.mem_cons_of_mem u (ih mem).1, (ih mem).2⟩
  | case3 seen u ts new ih =>
    rcases List.mem_cons.mp mem with rfl | later
    · refine ⟨List.mem_cons_self, fun unnamed => new ?_⟩
      simp [unnamed]
    · exact ⟨List.mem_cons_of_mem u (ih later).1, (ih later).2⟩

theorem spelled_ofRoot {root : Namespace} (spelled : root.Spelled) {name : String} {decl : TypeDecl}
    (found : (ofRoot root).decl? name = some decl) : decl.Spelled ∧ decl.name ≠ "" := by
  rw [ofRoot_eq] at found
  obtain ⟨t, got, rfl⟩ := Option.map_eq_some_iff.mp found
  obtain ⟨mem, named⟩ := mem_firsts (List.mem_of_find?_eq_some got)
  exact ⟨spelled_namespaceEntries spelled t mem, named⟩

end TypeIndex

namespace Reading
variable {v : Volume} {request : HeaderRequest} {r : Reading}

theorem root_enqueue (r : Reading) (p : Pending) : (r.enqueue p).root = r.root := by
  unfold enqueue
  split <;> rfl

theorem root_follow (includer : Path) (r : Reading) (i : Include) :
    (follow v request includer r i).root = r.root := by
  unfold follow
  split
  · rfl
  · split
    · rfl
    · exact root_enqueue r _

theorem root_foldl {α : Type} {take : Reading → α → Reading}
    (keeps : ∀ r a, (take r a).root = r.root) (as : List α) (r : Reading) :
    (as.foldl take r).root = r.root := by
  induction as generalizing r with
  | nil => rfl
  | cons a as ih => exact (ih (take r a)).trans (keeps r a)

section Induction
variable {P : Namespace → Prop}
  (merges : ∀ root source, P root → P (root.merge (Header.read source).root).1)
include merges

theorem root_step (p : Pending) (holds : P r.root) : P (step v request p r).root := by
  unfold step
  split
  · exact holds
  · refine merges _ _ ?_
    split
    · rwa [root_foldl (root_follow p.path)]
    · exact holds

theorem root_loop (fuel : Nat) (holds : P r.root) : P (loop v request fuel r).root := by
  induction fuel generalizing r with
  | zero => exact holds
  | succ fuel ih =>
    unfold loop
    split
    · exact holds
    next p queue _ => exact ih (root_step merges (r := { r with queue }) p holds)

/-- What holds of the empty tree and is kept as a header is merged holds of the tree of all. -/
theorem root_ofRequest (empty : P {}) (v : Volume) (request : HeaderRequest) :
    P (ofRequest v request).root := by
  refine root_loop merges _ ?_
  have start : (start request).root = {} := root_foldl (fun r path => root_enqueue r _) _ _
  rwa [start]

end Induction

theorem spelled_ofRequest (v : Volume) (request : HeaderRequest) :
    (ofRequest v request).root.Spelled :=
  root_ofRequest (fun _ source spelled => spelled.merge (Header.spelled_read source))
    ⟨nofun, nofun⟩ v request

end Reading

/-- The types of a header tree have names, and words for them. -/
theorem HeaderTree.spelled_read {v : Volume} {request : HeaderRequest} {tree : HeaderTree} {log : Log}
    (read : HeaderTree.read v request = (.ok tree, log)) : tree.root.Spelled := by
  unfold HeaderTree.read at read
  dsimp only at read
  split at read
  · cases read
    exact (Reading.spelled_ofRequest v request).resolveNamespace _
  · cases read

end HeaderMeta
