import HeaderMeta.Proofs.Seating.Members

/-! Declarations of a header sit where they say.

Whatever a header holds, the namespaces that a declaration states are those on the way down to it, and
the records it states are those around it, by their names; only for a record that a typedef names
after its members were read do the members state the empty name. Without such a typedef a qualified
name is the path to the declaration.
-/

set_option autoImplicit false

namespace HeaderMeta

/-- A namespace at `path` whose declarations, and those below it, state their place. -/
inductive Namespace.Seated (late : Prop) : List String → Namespace → Prop where
  | intro {path : List String} {ns : Namespace}
      (types : ∀ type ∈ ns.types, type.Seated late path [])
      (enums : ∀ e ∈ ns.enums, e.namespaces = path ∧ e.enclosing = [])
      (aliases : ∀ a ∈ ns.aliases, a.scope = path)
      (children : ∀ child ∈ ns.children, child.Seated late (path ++ [child.name])) :
      ns.Seated late path

namespace Namespace
variable {late : Prop} {path : List String} {ns new : Namespace}

namespace Seated

theorem types (seated : ns.Seated late path) : ∀ type ∈ ns.types, type.Seated late path [] := by
  cases seated
  assumption

theorem enums (seated : ns.Seated late path) :
    ∀ e ∈ ns.enums, e.namespaces = path ∧ e.enclosing = [] := by
  cases seated
  assumption

theorem aliases (seated : ns.Seated late path) : ∀ a ∈ ns.aliases, a.scope = path := by
  cases seated
  assumption

theorem children (seated : ns.Seated late path) :
    ∀ child ∈ ns.children, child.Seated late (path ++ [child.name]) := by
  cases seated
  assumption

theorem empty (name : String) : ({ name } : Namespace).Seated late path :=
  ⟨nofun, nofun, nofun, nofun⟩

end Seated

theorem name_graft (names : List String) (kept : new.name = (ns.descend names).name) :
    (ns.graft names new).name = ns.name := by
  cases names with
  | nil => exact kept
  | cons name names => rfl

namespace Seated

theorem child (seated : ns.Seated late path) (name : String) :
    (ns.child name).Seated late (path ++ [name]) := by
  unfold Namespace.child
  cases found : ns.children.find? (·.name = name) with
  | none => exact empty name
  | some own =>
    have named : own.name = name := by simpa using List.find?_some found
    exact named ▸ seated.children own (List.mem_of_find?_eq_some found)

theorem putChild (seated : ns.Seated late path) (added : new.Seated late (path ++ [new.name])) :
    (ns.putChild new).Seated late path := by
  refine ⟨seated.types, seated.enums, seated.aliases, fun child mem => ?_⟩
  rcases mem_putIn mem with rfl | old
  · exact added
  · exact seated.children child old

theorem descend (seated : ns.Seated late path) (names : List String) :
    (ns.descend names).Seated late (path ++ names) := by
  induction names generalizing ns path with
  | nil =>
    rw [List.append_nil]
    exact seated
  | cons name names ih =>
    have below := ih (seated.child name)
    rwa [List.append_assoc] at below

theorem graft (seated : ns.Seated late path) (names : List String)
    (kept : new.name = (ns.descend names).name) (added : new.Seated late (path ++ names)) :
    (ns.graft names new).Seated late path := by
  induction names generalizing ns path with
  | nil =>
    rw [List.append_nil] at added
    exact added
  | cons name names ih =>
    have named : ((ns.child name).graft names new).name = name :=
      (name_graft names kept).trans (name_child ns name)
    have below := ih (seated.child name) kept (by rwa [List.append_assoc])
    exact seated.putChild (named.symm ▸ below)

theorem addTypes (seated : ns.Seated late path) {types : List TypeDecl}
    (added : ∀ type ∈ types, type.Seated late path []) :
    { ns with types := ns.types ++ types }.Seated late path := by
  refine ⟨fun type mem => ?_, seated.enums, seated.aliases, seated.children⟩
  rcases List.mem_append.mp mem with old | new
  · exact seated.types type old
  · exact added type new

theorem addEnums (seated : ns.Seated late path) {enums : List EnumDecl}
    (added : ∀ e ∈ enums, e.namespaces = path ∧ e.enclosing = []) :
    { ns with enums := ns.enums ++ enums }.Seated late path := by
  refine ⟨seated.types, fun e mem => ?_, seated.aliases, seated.children⟩
  rcases List.mem_append.mp mem with old | new
  · exact seated.enums e old
  · exact added e new

theorem addAliases (seated : ns.Seated late path) {aliases : List AliasDecl}
    (added : ∀ a ∈ aliases, a.scope = path) :
    { ns with aliases := ns.aliases ++ aliases }.Seated late path := by
  refine ⟨seated.types, seated.enums, fun a mem => ?_, seated.children⟩
  rcases List.mem_append.mp mem with old | new
  · exact seated.aliases a old
  · exact added a new

theorem addUsing (seated : ns.Seated late path) (target : String) :
    (ns.addUsing target).Seated late path := by
  unfold Namespace.addUsing
  split
  · exact seated
  · exact ⟨seated.types, seated.enums, seated.aliases, seated.children⟩

end Seated

end Namespace

structure Namespace.Open (late : Prop) (path : List String) (name : String) (ns : Namespace) :
    Prop where
  named : ns.name = name
  seated : ns.Seated late path

def ScopeReader.Seats (origin : Cursor) (inner : ScopeReader) : Prop :=
  ∀ body scope name (s : ScopeState), origin.Onward s.cursor →
    s.ns.Open origin.NamesLate scope name →
      (inner body scope s).1.ns.Open origin.NamesLate scope name

namespace ScopeState
open Cursor
variable {s : ScopeState} {origin : Cursor} {late : Prop} {body : BodyReader} {inner : ScopeReader}
  {scope : List String} {name : String}

theorem open_record (seats : body.Seats origin) (onward : origin.Onward s.cursor)
    (opened : s.ns.Open origin.NamesLate scope name) (isTemplate : Bool) :
    (s.record body scope isTemplate).All (·.ns.Open origin.NamesLate scope name) := by
  unfold record
  split
  next => exact opened
  next decl c read =>
    have own := (Cursor.open_record seats onward read).seated
    refine ⟨opened.named, opened.seated.addTypes fun type mem => ?_⟩
    split at mem
    · cases mem
    · exact List.mem_singleton.mp mem ▸ own
  next => exact opened
  next => exact opened

theorem open_close (message : String) (start : Span) (opened : s.ns.Open late scope name) :
    (s.close message start).ns.Open late scope name := by
  unfold close
  split <;> exact opened

theorem open_openNamespace (seats : inner.Seats origin) (onward : origin.Onward s.cursor)
    (opened : s.ns.Open origin.NamesLate scope name) :
    (s.openNamespace inner scope).All (·.ns.Open origin.NamesLate scope name) := by
  have first := (onward.trans (onward_advance _)).trans (onward_attributeSpecifiers _)
  unfold openNamespace
  dsimp only
  generalize s.cursor.advance.attributeSpecifiers.2 = c at first ⊢
  have second := (first.trans (onward_goto (Tokens.ahead_qualifiedName c.rest))).trans
    (onward_attributeSpecifiers _)
  generalize c.rest.qualifiedName = words at second ⊢
  generalize (c.goto words.2).attributeSpecifiers.2 = d at second ⊢
  split
  next =>
    -- `namespace a::b` is read at the far end of the path, then everything on the way is put back
    have inside := seats "namespace" (scope ++ words.1) _ ⟨s.ns.descend words.1, d.advance⟩
      (second.trans (onward_advance d)) ⟨rfl, opened.seated.descend words.1⟩
    have named := (Namespace.name_graft words.1 inside.named).trans opened.named
    have grafted := opened.seated.graft words.1 inside.named inside.seated
    split
    · exact ⟨named, grafted⟩
    · exact open_close _ _ (s := ⟨_, _⟩) ⟨named, grafted⟩
  next => exact opened

theorem open_linkage (seats : inner.Seats origin) (onward : origin.Onward s.cursor)
    (opened : s.ns.Open origin.NamesLate scope name) :
    (s.linkage inner scope).All (·.ns.Open origin.NamesLate scope name) := by
  have entered := ((onward.trans (onward_advance _)).trans (onward_advance _)).trans
    (onward_advance _)
  have inside := seats "linkage block" scope name
    { s with cursor := s.cursor.advance.advance.advance } entered opened
  unfold linkage
  dsimp only
  split
  next =>
    split
    next final limit read =>
      rw [read] at inside
      exact inside
    next final read =>
      rw [read] at inside
      exact open_close _ _ inside
  next => exact opened

theorem open_template (seats : body.Seats origin) (onward : origin.Onward s.cursor)
    (opened : s.ns.Open origin.NamesLate scope name) :
    (s.template body scope).All (·.ns.Open origin.NamesLate scope name) := by
  have entered := onward_goto ((Tokens.ahead_advance s.cursor.rest).trans (Tokens.ahead_skipAngles _))
  unfold template
  dsimp only
  split
  · exact open_record seats (s := ⟨s.ns, _⟩) (onward.trans entered) opened true
  · exact opened

theorem open_enumeration (opened : s.ns.Open late scope name) :
    (s.enumeration scope).ns.Open late scope name := by
  refine ⟨opened.named, opened.seated.addEnums fun e mem => ?_⟩
  exact placed_enumeration (Prod.ext (Option.mem_toList.mp mem) rfl)

theorem open_typedef (seats : body.Seats origin) (onward : origin.Onward s.cursor)
    (here : s.cursor.peek = .word "typedef") (opened : s.ns.Open origin.NamesLate scope name) :
    (s.typedef body scope).All (·.ns.Open origin.NamesLate scope name) := by
  unfold typedef
  split
  next => exact opened
  next outcome c read =>
    have placed := placed_typedef seats onward here read
    refine ⟨opened.named, (opened.seated.addTypes placed.types).addAliases fun a mem => ?_⟩
    rw [placed.aliases a mem, List.append_nil]

theorem open_usingDirective (opened : s.ns.Open late scope name) :
    (s.usingDirective scope).ns.Open late scope name := by
  unfold usingDirective
  split
  · dsimp only
    split
    · exact opened
    next target =>
      refine ⟨?_, opened.seated.addUsing _⟩
      rw [← opened.named, Namespace.addUsing]
      split <;> rfl
  · refine ⟨opened.named, opened.seated.addAliases fun a mem => ?_⟩
    exact scope_usingAlias scope s.cursor a (Option.mem_toList.mp mem)

theorem open_wordRound (types : body.Seats origin) (scopes : inner.Seats origin)
    (onward : origin.Onward s.cursor) (opened : s.ns.Open origin.NamesLate scope name)
    {word : String} (here : s.cursor.peek = .word word) :
    (s.wordRound body inner scope word).All (·.ns.Open origin.NamesLate scope name) := by
  unfold wordRound
  dsimp only
  split
  · exact open_openNamespace scopes onward opened
  split
  · exact opened
  -- `split` would take apart the match inside this guard
  refine iteInduction (motive := Round.All fun s : ScopeState => s.ns.Open origin.NamesLate scope name)
    (fun _ => ?_) fun _ => ?_
  · exact open_linkage scopes onward opened
  split
  · exact open_template types onward opened
  split
  · exact open_record types onward opened false
  split
  · exact open_enumeration opened
  split
  next typedef => exact open_typedef types onward (typedef ▸ here) opened
  split
  · exact open_usingDirective opened
  · exact opened

theorem open_round (types : body.Seats origin) (scopes : inner.Seats origin)
    (onward : origin.Onward s.cursor) (opened : s.ns.Open origin.NamesLate scope name) :
    (s.round body inner scope).All (·.ns.Open origin.NamesLate scope name) := by
  unfold round
  split
  case h_7 word here => exact open_wordRound types scopes onward opened here
  all_goals exact opened

end ScopeState

section Scopes
variable {origin : Cursor}

theorem seats_innerReader (closed : origin.rest.Closed) (room : Nat) :
    (Grammar.innerReader room).Seats origin := by
  induction room with
  | zero => exact fun body scope name s onward opened => opened
  | succ room ih =>
    intro body scope name s onward opened
    have run : Grammar.innerReader (room + 1) body scope s = _ :=
      Grammar.declarations_eq room scope s
    rw [run]
    have types := steady_typeBody room
    have scopes := steady_innerReader room
    -- late names are counted from `origin` on, so every round has to know that it reads from there on
    have kept := Guard.loop_all "declarations" ScopeState.position
      (P := fun s => origin.Onward s.cursor ∧ s.ns.Open origin.NamesLate scope name)
      (fun s ⟨onward, opened⟩ =>
        ((ScopeState.moves_round types scopes scope s (onward.ahead.closed closed)).from onward).and
          (ScopeState.open_round (seats_typeBody closed room) ih onward opened))
      (s := s) ⟨onward, opened⟩
    exact kept.2

theorem open_fileRound (closed : origin.rest.Closed) {s : ScopeState} {name : String}
    (onward : origin.Onward s.cursor) (opened : s.ns.Open origin.NamesLate [] name) :
    (fileRound s).All (·.ns.Open origin.NamesLate [] name) := by
  have inside : (declarations maxDepth [] s).1.ns.Open origin.NamesLate [] name :=
    seats_innerReader closed (maxDepth + 1) "" [] name s onward opened
  unfold fileRound
  split
  next final limit read =>
    rw [read] at inside
    exact inside
  next final read =>
    rw [read] at inside
    split <;> exact inside

theorem Header.seated_root (source : Source) :
    (read source).root.Seated (start source).cursor.NamesLate [] := by
  have closed : (start source).cursor.rest.Closed := closed_ofText source.text
  have kept := Guard.loop_all "file" ScopeState.position
    (P := fun s => (start source).cursor.Onward s.cursor ∧
      s.ns.Open (start source).cursor.NamesLate [] "")
    (fun s ⟨onward, opened⟩ =>
      ((moves_fileRound s (onward.ahead.closed closed)).from onward).and
        (open_fileRound closed onward opened))
    (s := start source) ⟨.refl _, rfl, .empty ""⟩
  exact kept.2.seated

end Scopes

/-- `d` stands inside the records `records` of `type`, `type` being the outermost. -/
inductive TypeDecl.Leads : TypeDecl → List String → TypeDecl → Prop where
  | self (d : TypeDecl) : d.Leads [] d
  | inside {type inner d : TypeDecl} {records : List String} (mem : inner ∈ type.nested)
      (leads : inner.Leads records d) : type.Leads (type.name :: records) d

inductive Namespace.Leads : Namespace → List String → List String → TypeDecl → Prop where
  | here {ns : Namespace} {type d : TypeDecl} {records : List String} (mem : type ∈ ns.types)
      (leads : type.Leads records d) : ns.Leads [] records d
  | deeper {ns child : Namespace} {path records : List String} {d : TypeDecl}
      (mem : child ∈ ns.children) (leads : child.Leads path records d) :
      ns.Leads (child.name :: path) records d

section Paths
variable {path records namespaces enclosing : List String} {d type : TypeDecl} {ns : Namespace}

theorem TypeDecl.Leads.place (leads : type.Leads records d)
    (seated : type.Seated False namespaces enclosing) :
    d.namespaces = namespaces ∧ d.enclosing = enclosing ++ records := by
  induction leads generalizing enclosing with
  | self d =>
    cases seated with
    | intro label own spaces around => exact ⟨spaces, by rw [around, List.append_nil]⟩
  | inside mem leads ih =>
    cases seated with
    | intro label own spaces around enums aliases nested =>
      obtain rfl := own.resolve_right fun late => late.1
      simpa only [List.append_assoc, List.singleton_append] using ih (nested _ mem)

theorem Namespace.Leads.place (leads : ns.Leads path records d)
    (seated : ns.Seated False namespaces) :
    d.namespaces = namespaces ++ path ∧ d.enclosing = records := by
  induction leads generalizing namespaces with
  | here mem leads => simpa using leads.place (seated.types _ mem)
  | deeper mem leads ih =>
    simpa only [List.append_assoc, List.singleton_append] using ih (seated.children _ mem)

end Paths

/-- Every declaration of a header sits where it says. The types, enumerations and aliases of a
namespace state the names on the way down to it and, inside records, the names of these, outermost
first; a record is called by the empty name where a typedef names it after its members. In a header
without such a typedef the qualified name of a type is the path that leads to it. -/
theorem Header.read_seated (source : Source) :
    let late := (start source).cursor.NamesLate
    (read source).root.Seated late [] ∧
      (¬ late → ∀ path records d, (read source).root.Leads path records d →
        d.namespaces = path ∧ d.enclosing = records ∧
          d.qualifiedName = joinScope (path ++ records ++ [d.name])) := by
  intro late
  have seated := seated_root source
  refine ⟨seated, fun notLate path records d leads => ?_⟩
  have strict : (read source).root.Seated False [] := by
    rw [← eq_false notLate]
    exact seated
  obtain ⟨spaces, around⟩ := leads.place strict
  refine ⟨spaces, around, ?_⟩
  rw [TypeDecl.qualifiedName, TypeDecl.scope, TypeDecl.parentScope, spaces, around, List.nil_append]

def lateHeader : Source :=
  ⟨⟨"late.hpp"⟩, "typedef struct{struct I{};}O;"⟩

/-- Not every type of a header states its place: `I` stands in `O` and states the empty name for it,
so its qualified name is not its path. -/
theorem Header.read_misplaces_nested :
    ∃ path records d, (read lateHeader).root.Leads path records d ∧ d.enclosing ≠ records ∧
      d.qualifiedName ≠ joinScope (path ++ records ++ [d.name]) := by
  have holds : (read lateHeader).root.types.map (fun type =>
      (type.name, type.nested.map fun d => (d.name, d.enclosing, d.qualifiedName))) =
        [("O", [("I", [""], "::I")])] := by decide +kernel
  obtain ⟨type, types, same⟩ := List.map_eq_singleton_iff.mp holds
  obtain ⟨named, inside⟩ := Prod.mk.inj same
  obtain ⟨d, nested, stated⟩ := List.map_eq_singleton_iff.mp inside
  simp only [Prod.mk.injEq] at stated
  obtain ⟨own, around, qualified⟩ := stated
  have leads : (read lateHeader).root.Leads [] [type.name] d :=
    .here (types ▸ List.mem_singleton_self type)
      (.inside (nested ▸ List.mem_singleton_self d) (.self d))
  rw [named] at leads
  refine ⟨[], ["O"], d, leads, ?_, ?_⟩
  · rw [around]
    decide
  · rw [own, qualified]
    decide

end HeaderMeta
