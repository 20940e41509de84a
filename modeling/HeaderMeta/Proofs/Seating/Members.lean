import HeaderMeta.Proofs.Naming

/-! Places of the declarations inside a record.

The members of a record are read with the name that the record has then (`Open`). Only a typedef of
an unnamed record gives it another one, and then the members keep the empty name for it (`Seated`).
-/

set_option autoImplicit false

namespace HeaderMeta

/-- A type in the place it states: in `namespaces`, inside the records `enclosing`. What it declares
states the same place and calls the record by its name or, where names are given `late`, by the empty
one. -/
inductive TypeDecl.Seated (late : Prop) (namespaces : List String) : List String → TypeDecl → Prop where
  | intro {enclosing : List String} {d : TypeDecl} (label : String)
      (own : label = d.name ∨ late ∧ label = "")
      (spaces : d.namespaces = namespaces) (records : d.enclosing = enclosing)
      (enums : ∀ e ∈ d.enums, e.namespaces = namespaces ∧ e.enclosing = enclosing ++ [label])
      (aliases : ∀ a ∈ d.aliases, a.scope = namespaces ++ enclosing ++ [label])
      (nested : ∀ inner ∈ d.nested, inner.Seated late namespaces (enclosing ++ [label])) :
      d.Seated late namespaces enclosing

structure TypeDecl.Open (late : Prop) (namespaces enclosing : List String) (name : String)
    (d : TypeDecl) : Prop where
  named : d.name = name
  spaces : d.namespaces = namespaces
  records : d.enclosing = enclosing
  enums : ∀ e ∈ d.enums, e.namespaces = namespaces ∧ e.enclosing = enclosing ++ [name]
  aliases : ∀ a ∈ d.aliases, a.scope = namespaces ++ enclosing ++ [name]
  nested : ∀ inner ∈ d.nested, inner.Seated late namespaces (enclosing ++ [name])

/-- Ahead of the reader stands a typedef of a record without a name. -/
def Cursor.NamesLate (c : Cursor) : Prop :=
  ∃ d : Cursor, c.Onward d ∧ d.peek = .word "typedef" ∧
    (d.advance.rest.word?.bind RecordKey.ofWord?).isSome ∧
    (d.advance.advance.recordHead false).1.name = ""

section Types
variable {late : Prop} {namespaces enclosing : List String} {name : String} {d e : TypeDecl}

/-- Access does not matter. -/
theorem TypeDecl.Seated.withVisibility (seated : d.Seated late namespaces enclosing)
    (visibility : Visibility) : { d with visibility }.Seated late namespaces enclosing := by
  cases seated with
  | intro label own spaces records enums aliases nested =>
    exact ⟨label, own, spaces, records, enums, aliases, nested⟩

namespace TypeDecl.Open

theorem seated (opened : d.Open late namespaces enclosing name) :
    d.Seated late namespaces enclosing :=
  ⟨name, .inl opened.named.symm, opened.spaces, opened.records, opened.enums, opened.aliases,
    opened.nested⟩

theorem rename (opened : d.Open late namespaces enclosing name) {given : String}
    (own : name = given ∨ late ∧ name = "") :
    { d with name := given }.Seated late namespaces enclosing :=
  ⟨name, own, opened.spaces, opened.records, opened.enums, opened.aliases, opened.nested⟩

theorem of_bare (named : d.name = name) (spaces : d.namespaces = namespaces)
    (records : d.enclosing = enclosing) (bare : d.enums = [] ∧ d.aliases = [] ∧ d.nested = []) :
    d.Open late namespaces enclosing name := by
  obtain ⟨enums, aliases, nested⟩ := bare
  exact ⟨named, spaces, records, by simp [enums], by simp [aliases], by simp [nested]⟩

theorem innerEnclosing (opened : d.Open late namespaces enclosing name) :
    d.innerEnclosing = enclosing ++ [name] := by
  rw [TypeDecl.innerEnclosing, opened.records, opened.named]

theorem scope (opened : d.Open late namespaces enclosing name) :
    d.scope = namespaces ++ enclosing ++ [name] := by
  rw [TypeDecl.scope, TypeDecl.parentScope, opened.spaces, opened.records, opened.named]

theorem withFields (opened : d.Open late namespaces enclosing name) (fields : List Field) :
    { d with fields }.Open late namespaces enclosing name :=
  ⟨opened.named, opened.spaces, opened.records, opened.enums, opened.aliases, opened.nested⟩

theorem addEnum (opened : d.Open late namespaces enclosing name) {decl : EnumDecl}
    (placed : decl.namespaces = namespaces ∧ decl.enclosing = enclosing ++ [name]) :
    { d with enums := d.enums ++ [decl] }.Open late namespaces enclosing name := by
  refine ⟨opened.named, opened.spaces, opened.records, fun e mem => ?_, opened.aliases,
    opened.nested⟩
  rcases List.mem_append.mp mem with old | new
  · exact opened.enums e old
  · exact List.mem_singleton.mp new ▸ placed

theorem addAliases (opened : d.Open late namespaces enclosing name) {aliases : List AliasDecl}
    (placed : ∀ a ∈ aliases, a.scope = namespaces ++ enclosing ++ [name]) :
    { d with aliases := d.aliases ++ aliases }.Open late namespaces enclosing name := by
  refine ⟨opened.named, opened.spaces, opened.records, opened.enums, fun a mem => ?_,
    opened.nested⟩
  rcases List.mem_append.mp mem with old | new
  · exact opened.aliases a old
  · exact placed a new

theorem addNested (opened : d.Open late namespaces enclosing name)
    (placed : e.Seated late namespaces (enclosing ++ [name])) :
    { d with nested := d.nested ++ [e] }.Open late namespaces enclosing name := by
  refine ⟨opened.named, opened.spaces, opened.records, opened.enums, opened.aliases,
    fun inner mem => ?_⟩
  rcases List.mem_append.mp mem with old | new
  · exact opened.nested inner old
  · exact List.mem_singleton.mp new ▸ placed

end TypeDecl.Open

end Types

def BodyReader.Seats (origin : Cursor) (body : BodyReader) : Prop :=
  ∀ namespaces enclosing name decl (c : Cursor),
    origin.Onward c → decl.Open origin.NamesLate namespaces enclosing name →
      (body decl c).1.1.Open origin.NamesLate namespaces enclosing name

namespace Cursor
variable {origin c d : Cursor} {room : Nat} {body : BodyReader} {namespaces enclosing : List String}

theorem open_recordBody (seats : body.Seats origin) (onward : origin.Onward c) {start : Span}
    {name : String} {decl decl' : TypeDecl}
    (opened : decl.Open origin.NamesLate namespaces enclosing name)
    (read : recordBody body start decl c = (.ok (.definition decl'), d)) :
    decl'.Open origin.NamesLate namespaces enclosing name := by
  have inside := seats _ _ _ _ _ (onward.trans (onward_advance c)) opened
  unfold recordBody at read
  split at read
  next => cases read
  next own e read' =>
    rw [read'] at inside
    split at read
    · cases read
      exact inside
    · cases read
      exact inside

/-- A definition has the name of its head, whatever is read after it. -/
theorem open_record (seats : body.Seats origin) (onward : origin.Onward c) {isTemplate : Bool}
    {decl : TypeDecl}
    (read : c.record body namespaces enclosing isTemplate = (.ok (.definition decl), d)) :
    decl.Open origin.NamesLate namespaces enclosing (c.advance.recordHead isTemplate).1.name := by
  have head := (onward.trans (onward_advance c)).trans (onward_recordHead isTemplate c.advance)
  unfold record at read
  split at read
  next => cases read
  next key atKey =>
    dsimp only at read
    split at read
    next => split at read <;> cases read
    next => exact open_recordBody seats head (.of_bare rfl rfl rfl ⟨rfl, rfl, rfl⟩) read
    next =>
      split at read
      next bases rest readBases =>
        have after := (onward_advance _).ahead.trans (ahead_readAll readBases).1
        exact open_recordBody seats (head.trans (onward_goto after))
          (.of_bare rfl rfl rfl ⟨rfl, rfl, rfl⟩) read
      next => cases read
    next => cases read

theorem key_of_record {isTemplate : Bool} {decl : TypeDecl}
    (read : c.record body namespaces enclosing isTemplate = (.ok (.definition decl), d)) :
    (c.rest.word?.bind RecordKey.ofWord?).isSome := by
  unfold record at read
  split at read
  next => cases read
  next key atKey => rw [atKey, Option.isSome_some]

theorem scope_plainAliases (scope : List String) (parts : List DeclaratorPart) :
    ∀ a ∈ plainAliases scope parts, a.scope = scope := by
  intro a mem
  unfold plainAliases at mem
  split at mem
  · cases mem
  · split at mem
    · cases mem
    · split at mem
      · cases mem
      · obtain ⟨d, -, rfl⟩ := List.mem_map.mp mem
        rfl

theorem scope_plainTypedef (scope : List String) (c : Cursor) :
    ∀ a ∈ (plainTypedef scope c).1.aliases, a.scope = scope := by
  unfold plainTypedef
  split
  · exact nofun
  · split
    · exact nofun
    · exact scope_plainAliases scope _

theorem types_plainTypedef (scope : List String) (c : Cursor) :
    (plainTypedef scope c).1.types = [] := by
  unfold plainTypedef
  split
  · rfl
  · split <;> rfl

theorem scope_recordAliases (scope : List String) (decl : TypeDecl) (statement : Tokens) :
    ∀ a ∈ (recordAliases scope decl statement).aliases, a.scope = scope := by
  unfold recordAliases
  dsimp only
  split
  · exact nofun
  · intro a mem
    obtain ⟨d, -, rfl⟩ := List.mem_map.mp mem
    rfl

/-- The record of a typedef has its own name, or the typedef names it late. -/
theorem seated_recordAliases {late : Prop} {name : String} {decl : TypeDecl}
    (opened : decl.Open late namespaces enclosing name) (isLate : name = "" → late)
    (scope : List String) (statement : Tokens) :
    ∀ type ∈ (recordAliases scope decl statement).types, type.Seated late namespaces enclosing := by
  unfold recordAliases
  dsimp only
  split
  next => exact nofun
  next given named =>
    intro type mem
    cases List.mem_singleton.mp mem
    obtain rfl := opened.named
    split at named
    -- the members were read under the empty name, whichever name the typedef gives now
    next unnamed => exact opened.rename (.inr ⟨isLate unnamed, unnamed⟩)
    next =>
      cases named
      exact opened.rename (.inl rfl)

structure TypedefOutcome.Placed (late : Prop) (namespaces enclosing : List String)
    (outcome : TypedefOutcome) : Prop where
  types : ∀ type ∈ outcome.types, type.Seated late namespaces enclosing
  aliases : ∀ a ∈ outcome.aliases, a.scope = namespaces ++ enclosing

theorem placed_typedef (seats : body.Seats origin) (onward : origin.Onward c)
    (here : c.peek = .word "typedef") {outcome : TypedefOutcome}
    (read : c.typedef body namespaces enclosing = (.ok outcome, d)) :
    outcome.Placed origin.NamesLate namespaces enclosing := by
  have entered := onward.trans (onward_advance c)
  unfold typedef at read
  dsimp only at read
  split at read
  next => cases read
  next decl e defined =>
    have opened := open_record seats entered defined
    have isLate (unnamed : (c.advance.advance.recordHead false).1.name = "") : origin.NamesLate :=
      ⟨c, onward, here, key_of_record defined, unnamed⟩
    split at read
    next =>
      cases read
      exact ⟨nofun, nofun⟩
    next statement ends =>
      cases read
      exact ⟨seated_recordAliases opened isLate _ _, scope_recordAliases _ _ _⟩
  next =>
    cases read
    refine ⟨?_, scope_plainTypedef _ _⟩
    rw [types_plainTypedef]
    exact nofun

theorem placed_enumeration {decl : EnumDecl}
    (read : c.enumeration namespaces enclosing = (some decl, d)) :
    decl.namespaces = namespaces ∧ decl.enclosing = enclosing := by
  unfold enumeration at read
  dsimp only at read
  generalize (if (c.advance.peek == .word "class" || c.advance.peek == .word "struct") = true then
    c.advance.advance else c.advance).attributeSpecifiers.2 = e at read
  generalize (if e.rest.qualifiedName.2.atMark .colon = true then
    e.rest.qualifiedName.2.skipUnderlying else e.rest.qualifiedName.2) = rest at read
  split at read
  · cases read
    exact ⟨rfl, rfl⟩
  · split at read
    · cases read
      exact ⟨rfl, rfl⟩
    · cases read

theorem scope_usingAlias (scope : List String) (c : Cursor) :
    ∀ a ∈ (c.usingAlias scope).1, a.scope = scope := by
  unfold usingAlias
  split
  · split
    · exact nofun
    · dsimp only
      split
      · exact nofun
      · rintro a ⟨⟩
        rfl
  · exact nofun

end Cursor

namespace MemberState
open Cursor
variable {s : MemberState} {origin : Cursor} {late : Prop} {body : BodyReader}
  {namespaces enclosing : List String} {name : String}

theorem open_foldl {α : Type} {take : MemberState → α → MemberState} {as : List α}
    (keeps : ∀ s, ∀ a ∈ as, s.record.Open late namespaces enclosing name →
      (take s a).record.Open late namespaces enclosing name) {s : MemberState}
    (opened : s.record.Open late namespaces enclosing name) :
    (as.foldl take s).record.Open late namespaces enclosing name := by
  induction as generalizing s with
  | nil => exact opened
  | cons a as ih =>
    exact ih (fun s b mem => keeps s b (List.mem_cons_of_mem a mem))
      (keeps s a List.mem_cons_self opened)

theorem open_addParts {attributes : List Attribute} {start : Span} {type? : Option String}
    {first : Bool} {parts : List DeclaratorPart} {s : MemberState}
    (opened : s.record.Open late namespaces enclosing name) :
    (addParts attributes start type? first parts s).record.Open late namespaces enclosing name := by
  fun_induction addParts attributes start type? first parts s with
  | case1 | case3 => exact opened
  | case2 _ _ _ _ _ _ _ ih => exact ih opened
  | case4 _ _ _ _ _ _ _ _ _ _ _ ih => exact ih opened
  | case5 _ _ _ _ _ _ _ _ _ _ _ _ ih => exact ih (opened.withFields _)

theorem open_member (opened : s.record.Open late namespaces enclosing name) :
    s.member.record.Open late namespaces enclosing name := by
  unfold member
  dsimp only
  split
  · exact opened
  · split
    · exact opened
    · exact open_addParts opened

theorem open_trailingFields (type : String)
    (opened : s.record.Open late namespaces enclosing name) :
    (s.trailingFields type).record.Open late namespaces enclosing name := by
  unfold trailingFields
  split
  · exact opened
  · exact open_foldl (fun s f _ opened => opened.withFields _) opened

theorem open_addNested {decl : TypeDecl} (inner : decl.Seated late namespaces (enclosing ++ [name]))
    (opened : s.record.Open late namespaces enclosing name) :
    (s.addNested decl).record.Open late namespaces enclosing name :=
  opened.addNested (inner.withVisibility s.access)

theorem open_takeDefinition {decl : TypeDecl}
    (inner : decl.Seated late namespaces (enclosing ++ [name]))
    (opened : s.record.Open late namespaces enclosing name) :
    (s.takeDefinition decl).record.Open late namespaces enclosing name := by
  unfold takeDefinition
  split
  · exact open_foldl (fun s f _ opened => opened.withFields _) opened
  · exact opened
  · exact open_addNested inner opened
  · exact open_trailingFields _ (open_addNested inner opened)

theorem open_nestedRecord (seats : body.Seats origin) (onward : origin.Onward s.cursor)
    (opened : s.record.Open origin.NamesLate namespaces enclosing name) (isTemplate : Bool) :
    (s.nestedRecord body isTemplate).All
      (·.record.Open origin.NamesLate namespaces enclosing name) := by
  unfold nestedRecord
  split
  next => exact opened
  next decl c read =>
    -- the nested record is read in the place that the record around it states
    rw [opened.spaces, opened.innerEnclosing] at read
    exact open_takeDefinition (open_record seats onward read).seated opened
  next => exact opened
  next => exact open_member opened

theorem open_nestedEnum (opened : s.record.Open late namespaces enclosing name) :
    s.nestedEnum.record.Open late namespaces enclosing name := by
  unfold nestedEnum
  split
  next => exact open_member opened
  next decl c read =>
    rw [opened.spaces, opened.innerEnclosing] at read
    have added := opened.addEnum (placed_enumeration read)
    dsimp only
    split
    · exact added
    · split
      · exact added
      · exact open_trailingFields decl.name (s := ⟨_, _, _⟩) added

theorem open_nestedTypedef (seats : body.Seats origin) (onward : origin.Onward s.cursor)
    (here : s.cursor.peek = .word "typedef")
    (opened : s.record.Open origin.NamesLate namespaces enclosing name) :
    (s.nestedTypedef body).All (·.record.Open origin.NamesLate namespaces enclosing name) := by
  unfold nestedTypedef
  split
  next => exact opened
  next outcome c read =>
    rw [opened.spaces, opened.innerEnclosing] at read
    have placed := placed_typedef seats onward here read
    have added : (outcome.types.foldl addNested { s with cursor := c }).record.Open
        origin.NamesLate namespaces enclosing name :=
      open_foldl (fun s type mem opened => open_addNested (placed.types type mem) opened) opened
    exact added.addAliases (by simpa only [List.append_assoc] using placed.aliases)

theorem open_nestedAlias (opened : s.record.Open late namespaces enclosing name) :
    s.nestedAlias.record.Open late namespaces enclosing name := by
  refine opened.addAliases fun a mem => ?_
  rw [← opened.scope]
  exact scope_usingAlias s.record.scope s.cursor a (Option.mem_toList.mp mem)

theorem open_nestedTemplate (seats : body.Seats origin) (onward : origin.Onward s.cursor)
    (opened : s.record.Open origin.NamesLate namespaces enclosing name) :
    (s.nestedTemplate body).All (·.record.Open origin.NamesLate namespaces enclosing name) := by
  have entered := onward_goto ((Tokens.ahead_advance s.cursor.rest).trans (Tokens.ahead_skipAngles _))
  unfold nestedTemplate
  dsimp only
  split
  · exact open_nestedRecord seats (s := s.goto _) (onward.trans entered) opened true
  · exact opened

theorem open_wordRound (seats : body.Seats origin) (onward : origin.Onward s.cursor)
    (opened : s.record.Open origin.NamesLate namespaces enclosing name) {word : String}
    (here : s.cursor.peek = .word word) :
    (s.wordRound body word).All (·.record.Open origin.NamesLate namespaces enclosing name) := by
  unfold wordRound
  dsimp only
  split
  next => exact opened
  split
  · exact open_nestedRecord seats onward opened false
  split
  · exact open_nestedTemplate seats onward opened
  split
  · exact open_nestedEnum opened
  split
  next typedef => exact open_nestedTypedef seats onward (typedef ▸ here) opened
  split
  · exact open_nestedAlias opened
  split
  · exact opened
  split
  · exact opened
  · exact open_member opened

theorem open_round (seats : body.Seats origin) (onward : origin.Onward s.cursor)
    (opened : s.record.Open origin.NamesLate namespaces enclosing name) :
    (s.round body).All (·.record.Open origin.NamesLate namespaces enclosing name) := by
  unfold round
  split
  case h_6 =>
    split
    · exact open_member opened
    · exact opened
  case h_7 word here => exact open_wordRound seats onward opened here
  case h_5 => exact open_member opened
  all_goals exact opened

end MemberState

theorem Round.Moves.from {σ : Type} {room : Nat} {cursor : σ → Cursor} {s : σ} {round : Round σ}
    {origin : Cursor} (moves : round.Moves room cursor s) (onward : origin.Onward (cursor s)) :
    round.All fun t => origin.Onward (cursor t) := by
  cases round with
  | again next => exact onward.trans moves.toOnward
  | done final => exact onward.trans moves
  | refused final limit => exact onward.trans moves.1

theorem seats_typeBody {origin : Cursor} (closed : origin.rest.Closed) (room : Nat) :
    BodyReader.Seats origin (typeBody room) := by
  induction room with
  | zero => exact fun _ _ _ _ _ _ opened => opened
  | succ room ih =>
    intro namespaces enclosing name decl c onward opened
    have steady := steady_typeBody room
    have kept := Guard.loop_all "member list" (fun s : MemberState => s.cursor.rest.length)
      (P := fun s => origin.Onward s.cursor ∧
        s.record.Open origin.NamesLate namespaces enclosing name)
      (fun s ⟨onward, opened⟩ =>
        ((MemberState.moves_round steady s (onward.ahead.closed closed)).from onward).and
          (MemberState.open_round ih onward opened))
      (s := ⟨decl, decl.key.defaultVisibility, c⟩) ⟨onward, opened⟩
    exact kept.2

end HeaderMeta
