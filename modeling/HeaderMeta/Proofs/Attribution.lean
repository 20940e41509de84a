import HeaderMeta.Proofs.Seating
import HeaderMeta.Proofs.Resolution.Reading

/-! What reading the members of a record adds to it.

The head of a record stays as it was read: members only add to it (`TypeDecl.Extends`). An attribute that
is recorded comes from an attribute list that was read to its end, because nothing is declared once the
file has ended. So what holds of attributes that are read holds of all that a header records
(`Header.attributed_read`).
-/

set_option autoImplicit false

namespace HeaderMeta

section Types
variable {good : Attribute → Prop} {d e : TypeDecl}

/-- All attributes of a type, its fields and the types inside it are good. -/
inductive TypeDecl.Attributed (good : Attribute → Prop) : TypeDecl → Prop where
  | intro {d : TypeDecl} (own : ∀ a ∈ d.attributes, good a)
      (fields : ∀ f ∈ d.fields, ∀ a ∈ f.attributes, good a)
      (nested : ∀ inner ∈ d.nested, inner.Attributed good) : d.Attributed good

/-- A record with members added to it, whose attributes are good. -/
inductive TypeDecl.Extends (good : Attribute → Prop) (d : TypeDecl) : TypeDecl → Prop where
  | refl : d.Extends good d
  | field {e : TypeDecl} {f : Field} (own : ∀ a ∈ f.attributes, good a) (more : d.Extends good e) :
      d.Extends good { e with fields := e.fields ++ [f] }
  | nested {e inner : TypeDecl} (own : inner.Attributed good) (more : d.Extends good e) :
      d.Extends good { e with nested := e.nested ++ [inner] }
  | enums {e : TypeDecl} (enums : List EnumDecl) (more : d.Extends good e) :
      d.Extends good { e with enums }
  | aliases {e : TypeDecl} (aliases : List AliasDecl) (more : d.Extends good e) :
      d.Extends good { e with aliases }

namespace TypeDecl

theorem Attributed.own (all : d.Attributed good) : ∀ a ∈ d.attributes, good a := by
  cases all
  assumption

theorem Attributed.fields (all : d.Attributed good) : ∀ f ∈ d.fields, ∀ a ∈ f.attributes, good a := by
  cases all
  assumption

theorem Attributed.nested (all : d.Attributed good) : ∀ inner ∈ d.nested, inner.Attributed good := by
  cases all
  assumption

theorem Attributed.congr (all : d.Attributed good) (attributes : e.attributes = d.attributes)
    (fields : e.fields = d.fields) (nested : e.nested = d.nested) : e.Attributed good :=
  ⟨attributes ▸ all.own, fields ▸ all.fields, nested ▸ all.nested⟩

theorem Extends.bases (extended : d.Extends good e) : e.bases = d.bases := by
  induction extended with
  | refl => rfl
  | field _ _ ih | nested _ _ ih | enums _ _ ih | aliases _ _ ih => exact ih

theorem Extends.head (extended : d.Extends good e) :
    e.key = d.key ∧ e.name = d.name ∧ e.attributes = d.attributes := by
  induction extended with
  | refl => exact ⟨rfl, rfl, rfl⟩
  | field _ _ ih | nested _ _ ih | enums _ _ ih | aliases _ _ ih => exact ih

theorem Extends.attributed (extended : d.Extends good e) (all : d.Attributed good) :
    e.Attributed good := by
  induction extended with
  | refl => exact all
  | field own _ ih =>
    refine ⟨ih.own, fun f mem => ?_, ih.nested⟩
    rcases List.mem_append.mp mem with old | new
    · exact ih.fields f old
    · exact List.mem_singleton.mp new ▸ own
  | nested own _ ih =>
    refine ⟨ih.own, ih.fields, fun inner mem => ?_⟩
    rcases List.mem_append.mp mem with old | new
    · exact ih.nested inner old
    · exact List.mem_singleton.mp new ▸ own
  | enums _ _ ih | aliases _ _ ih => exact ih.congr rfl rfl rfl

end TypeDecl

end Types

/-- A reader at `origin` reads good attributes only, up to the end of the file. -/
def Cursor.ReadsGood (good : Attribute → Prop) (origin : Cursor) : Prop :=
  ∀ c, origin.Onward c →
    (∀ a ∈ c.attributeSpecifiers.1, good a) ∨ c.attributeSpecifiers.2.peek = .eof

/-- A reader of bodies, started by a reader at `origin`, that adds members with good attributes. -/
def BodyReader.Adds (good : Attribute → Prop) (origin : Cursor) (body : BodyReader) : Prop :=
  ∀ (decl : TypeDecl) (c : Cursor), origin.Onward c → decl.Extends good (body decl c).1.1

namespace Cursor
variable {good : Attribute → Prop} {origin c d : Cursor} {body : BodyReader}

theorem attributeSpecifiers_eof (ended : c.peek = .eof) : c.attributeSpecifiers = ([], c) := by
  have noList : c.rest.atAttributes = false := by
    simp [Tokens.atAttributes, Tokens.atMark, show c.rest.peek = .eof from ended]
  have noSpecifier : atSpecifier c.rest = false := by
    simp [atSpecifier, Tokens.word?, show c.rest.peek = .eof from ended, Token.word?]
  rw [attributeSpecifiers, dif_neg (by simp [noList]), dif_neg (by simp [noSpecifier])]

theorem decorators_eof (ended : c.peek = .eof) : c.decorators = ([], c) := by
  have none : atDecorator c.rest = false := by
    simp [atDecorator, Tokens.word?, show c.rest.peek = .eof from ended, Token.word?]
  rw [decorators, dif_neg (by simp [none])]

theorem qualifiedName_eof {ts : Tokens} (ended : ts.peek = .eof) : ts.qualifiedName = ([], ts) := by
  match ts with
  | [] => rfl
  | ⟨token, span⟩ :: rest =>
    obtain rfl : token = .eof := ended
    rfl

theorem good_decorators (reads : origin.ReadsGood good) (onward : origin.Onward c) :
    (∀ a ∈ c.decorators.1, good a) ∨ c.decorators.2.peek = .eof := by
  fun_induction decorators c with
  | case1 c atMacro own more ih =>
    have entered := onward.trans (onward_goto (ahead_skipMacro c.rest))
    rcases reads _ entered with first | ended
    · refine (ih (entered.trans (onward_attributeSpecifiers _))).imp_left fun rest a mem => ?_
      exact (List.mem_append.mp mem).elim (first a) (rest a)
    · right
      dsimp only [more]
      rw [decorators_eof ended]
      exact ended
  | case2 => exact .inl (List.forall_mem_nil _)

theorem good_recordHead (reads : origin.ReadsGood good) (onward : origin.Onward c)
    (isTemplate : Bool) :
    (∀ a ∈ (c.recordHead isTemplate).1.attributes, good a) ∨
      (c.recordHead isTemplate).2.peek = .eof := by
  have first := onward.trans (onward_attributeSpecifiers c)
  have ends (ended : c.attributeSpecifiers.2.decorators.2.peek = .eof) :
      (c.recordHead isTemplate).2.peek = .eof := by
    have named : c.attributeSpecifiers.2.decorators.2.rest.qualifiedName = _ := qualifiedName_eof ended
    have final : c.attributeSpecifiers.2.decorators.2.rest.atWord "final" = false := by
      simp [Tokens.atWord, show Tokens.peek _ = .eof from ended]
    unfold recordHead
    dsimp only
    rw [named]
    simpa [final, peek] using ended
  rcases reads c onward with own | ended
  · refine (good_decorators reads first).imp (fun more a mem => ?_) ends
    exact (List.mem_append.mp mem).elim (own a) (more a)
  · exact .inr (ends (by rw [decorators_eof ended]; exact ended))

variable {start : Span} {decl decl' : TypeDecl} {namespaces enclosing : List String}

theorem definition_of_recordBody {body : BodyReader} {outcome : RecordOutcome}
    (read : (recordBody body start decl c).1 = .ok outcome) : ∃ d, outcome = .definition d := by
  unfold recordBody at read
  split at read
  next => cases read
  next => split at read <;> exact ⟨_, (Except.ok.inj read).symm⟩

theorem extends_recordBody (adds : body.Adds good origin) (onward : origin.Onward c)
    (read : recordBody body start decl c = (.ok (.definition decl'), d)) :
    decl.Extends good decl' := by
  have inside := adds decl c.advance (onward.trans (onward_advance c))
  unfold recordBody at read
  split at read
  next => cases read
  next own e read' =>
    rw [read'] at inside
    split at read
    · cases read
      exact inside
    · cases read
      exact inside

/-- A definition is its head with members added. -/
theorem attributed_record (reads : origin.ReadsGood good) (adds : body.Adds good origin)
    (onward : origin.Onward c) {isTemplate : Bool}
    (read : c.record body namespaces enclosing isTemplate = (.ok (.definition decl), d)) :
    decl.Attributed good := by
  have entered := onward.trans (onward_advance c)
  have head := entered.trans (onward_recordHead isTemplate c.advance)
  have attributes := good_recordHead reads entered isTemplate
  unfold record at read
  split at read
  next => cases read
  next key atKey =>
    dsimp only at read
    split at read
    next => split at read <;> cases read
    next brace =>
      have own := attributes.resolve_right (by simp [brace])
      exact (extends_recordBody adds head read).attributed ⟨own, nofun, nofun⟩
    next colon =>
      have own := attributes.resolve_right (by simp [colon])
      split at read
      next bases rest readBases =>
        have after := (onward_advance _).ahead.trans (ahead_readAll readBases).1
        exact (extends_recordBody adds (head.trans (onward_goto after)) read).attributed
          ⟨own, nofun, nofun⟩
      next => cases read
    next => cases read

theorem attributed_typedef (reads : origin.ReadsGood good) (adds : body.Adds good origin)
    (onward : origin.Onward c) {outcome : TypedefOutcome}
    (read : c.typedef body namespaces enclosing = (.ok outcome, d)) :
    ∀ type ∈ outcome.types, type.Attributed good := by
  have entered := onward.trans (onward_advance c)
  unfold typedef at read
  dsimp only at read
  split at read
  next => cases read
  next decl e defined =>
    have own := attributed_record reads adds entered defined
    split at read
    next =>
      cases read
      exact nofun
    next statement ends =>
      cases read
      intro type mem
      unfold recordAliases at mem
      dsimp only at mem
      split at mem
      · cases mem
      · obtain rfl := List.mem_singleton.mp mem
        exact own.congr rfl rfl rfl
  next =>
    cases read
    rw [types_plainTypedef]
    exact nofun

end Cursor

namespace MemberState
open Cursor
variable {good : Attribute → Prop} {origin : Cursor} {d : TypeDecl} {s : MemberState}
  {body : BodyReader}

theorem extends_foldl {α : Type} {take : MemberState → α → MemberState} {as : List α}
    (keeps : ∀ s, ∀ a ∈ as, d.Extends good s.record → d.Extends good (take s a).record)
    {s : MemberState} (extended : d.Extends good s.record) :
    d.Extends good (as.foldl take s).record := by
  induction as generalizing s with
  | nil => exact extended
  | cons a as ih =>
    exact ih (fun s b mem => keeps s b (List.mem_cons_of_mem a mem))
      (keeps s a List.mem_cons_self extended)

theorem extends_addParts {attributes : List Attribute} (own : ∀ a ∈ attributes, good a)
    {start : Span} {type? : Option String} {first : Bool} {parts : List DeclaratorPart}
    {s : MemberState} (extended : d.Extends good s.record) :
    d.Extends good (addParts attributes start type? first parts s).record := by
  fun_induction addParts attributes start type? first parts s with
  | case1 | case3 => exact extended
  | case2 _ _ _ _ _ _ _ ih => exact ih extended
  | case4 _ _ _ _ _ _ _ _ _ _ _ ih => exact ih extended
  | case5 _ _ _ _ _ _ _ _ _ _ _ _ ih => exact ih (.field own extended)

theorem takeStatement_eof {ts : Tokens} (ended : ts.peek = .eof) : ts.takeStatement = .error ts := by
  match ts with
  | [] => rfl
  | ⟨token, span⟩ :: rest =>
    obtain rfl : token = .eof := ended
    rfl

theorem extends_member (reads : origin.ReadsGood good) (onward : origin.Onward s.cursor)
    (extended : d.Extends good s.record) : d.Extends good s.member.record := by
  have attributes := reads _ onward
  unfold member
  dsimp only
  split
  · exact extended
  · split
    · exact extended
    next statement taken =>
      refine extends_addParts (attributes.resolve_right fun ended => ?_) extended
      rw [takeStatement_eof ended] at taken
      cases taken

theorem extends_trailingFields (type : String) (extended : d.Extends good s.record) :
    d.Extends good (s.trailingFields type).record := by
  unfold trailingFields
  split
  · exact extended
  · refine extends_foldl (fun s f mem extended => .field ?_ extended) extended
    obtain ⟨part, -, read⟩ := List.mem_filterMap.mp mem
    obtain ⟨⟨type, d⟩, -, rfl⟩ := Option.map_eq_some_iff.mp read
    exact nofun

theorem extends_addNested {decl : TypeDecl} (inner : decl.Attributed good)
    (extended : d.Extends good s.record) : d.Extends good (s.addNested decl).record :=
  .nested (inner.congr rfl rfl rfl) extended

theorem extends_takeDefinition {decl : TypeDecl} (inner : decl.Attributed good)
    (extended : d.Extends good s.record) : d.Extends good (s.takeDefinition decl).record := by
  unfold takeDefinition
  split
  · refine extends_foldl (fun s f mem extended => ?_) extended
    exact .field (f := { f with visibility := _ }) (inner.fields f mem) extended
  · exact extended
  · exact extends_addNested inner extended
  · exact extends_trailingFields _ (extends_addNested inner extended)

section Rounds
variable {room : Nat} (closed : origin.rest.Closed) (reads : origin.ReadsGood good)
  (onward : origin.Onward s.cursor)
include closed reads onward

theorem extends_nestedRecord (steady : body.Steady room) (adds : body.Adds good origin)
    (extended : d.Extends good s.record) (isTemplate : Bool) :
    (s.nestedRecord body isTemplate).All (d.Extends good ·.record) := by
  have taken := taken_record steady (onward.ahead.closed closed) s.record.namespaces
    s.record.innerEnclosing isTemplate
  unfold nestedRecord
  split
  next => exact extended
  next decl c read =>
    exact extends_takeDefinition (attributed_record reads adds onward read) extended
  next => exact extended
  next c read =>
    rw [read] at taken
    exact extends_member (s := { s with cursor := c }) reads (onward.trans taken.onward) extended

theorem extends_nestedEnum (inside : s.cursor.rest.peek ≠ .eof)
    (extended : d.Extends good s.record) : d.Extends good s.nestedEnum.record := by
  have enumerated := enumerated_enumeration (onward.ahead.closed closed) inside s.record.namespaces
    s.record.innerEnclosing
  unfold nestedEnum
  split
  next c read =>
    rw [read] at enumerated
    exact extends_member (s := { s with cursor := c }) reads (onward.trans enumerated.onward) extended
  next decl c read =>
    dsimp only
    split
    · exact .enums _ extended
    · split
      · exact .enums _ extended
      · exact extends_trailingFields decl.name (s := ⟨_, _, _⟩) (.enums _ extended)

omit closed in
theorem extends_nestedTypedef (adds : body.Adds good origin) (extended : d.Extends good s.record) :
    (s.nestedTypedef body).All (d.Extends good ·.record) := by
  unfold nestedTypedef
  split
  next => exact extended
  next outcome c read =>
    have types := attributed_typedef reads adds onward read
    have added : d.Extends good (outcome.types.foldl addNested { s with cursor := c }).record :=
      extends_foldl (fun s type mem extended => extends_addNested (types type mem) extended) extended
    exact .aliases _ added

theorem extends_nestedTemplate (steady : body.Steady room) (adds : body.Adds good origin)
    (extended : d.Extends good s.record) :
    (s.nestedTemplate body).All (d.Extends good ·.record) := by
  have entered := onward_goto ((Tokens.ahead_advance s.cursor.rest).trans (Tokens.ahead_skipAngles _))
  unfold nestedTemplate
  dsimp only
  split
  · exact extends_nestedRecord (s := s.goto _) closed reads (onward.trans entered) steady adds extended true
  · exact extended

theorem extends_wordRound (steady : body.Steady room) (adds : body.Adds good origin)
    (extended : d.Extends good s.record) {word : String} (here : s.cursor.rest.peek = .word word) :
    (s.wordRound body word).All (d.Extends good ·.record) := by
  unfold wordRound
  dsimp only
  split
  next => exact extended
  split
  · exact extends_nestedRecord closed reads onward steady adds extended false
  split
  · exact extends_nestedTemplate closed reads onward steady adds extended
  split
  · exact extends_nestedEnum closed reads onward (by simp [here]) extended
  split
  · exact extends_nestedTypedef reads onward adds extended
  split
  · exact .aliases _ extended
  split
  · exact extended
  split
  · exact extended
  · exact extends_member reads onward extended

theorem extends_round (steady : body.Steady room) (adds : body.Adds good origin)
    (extended : d.Extends good s.record) :
    (s.round body).All (d.Extends good ·.record) := by
  unfold round
  split
  case h_6 =>
    split
    · exact extends_member reads onward extended
    · exact extended
  case h_7 word here => exact extends_wordRound closed reads onward steady adds extended here
  case h_5 => exact extends_member reads onward extended
  all_goals exact extended

end Rounds

end MemberState

theorem adds_typeBody {good : Attribute → Prop} {origin : Cursor} (reads : origin.ReadsGood good)
    (closed : origin.rest.Closed) (room : Nat) : BodyReader.Adds good origin (typeBody room) := by
  induction room with
  | zero => exact fun decl c onward => .refl
  | succ room ih =>
    intro decl c onward
    have steady := steady_typeBody room
    have kept := Guard.loop_all "member list" (fun s : MemberState => s.cursor.rest.length)
      (P := fun s => origin.Onward s.cursor ∧ decl.Extends good s.record)
      (fun s ⟨onward, extended⟩ =>
        ((MemberState.moves_round steady s (onward.ahead.closed closed)).from onward).and
          (MemberState.extends_round closed reads onward steady ih extended))
      (s := ⟨decl, decl.key.defaultVisibility, c⟩) ⟨onward, .refl⟩
    exact kept.2

/-- A namespace whose types, and those below it, have good attributes. -/
inductive Namespace.Attributed (good : Attribute → Prop) : Namespace → Prop where
  | intro {ns : Namespace} (types : ∀ type ∈ ns.types, type.Attributed good)
      (children : ∀ child ∈ ns.children, child.Attributed good) : ns.Attributed good

namespace Namespace
variable {good : Attribute → Prop} {ns new : Namespace}

theorem Attributed.types (all : ns.Attributed good) : ∀ type ∈ ns.types, type.Attributed good := by
  cases all
  assumption

theorem Attributed.children (all : ns.Attributed good) :
    ∀ child ∈ ns.children, child.Attributed good := by
  cases all
  assumption

theorem Attributed.congr (all : ns.Attributed good) (types : new.types = ns.types)
    (children : new.children = ns.children) : new.Attributed good :=
  ⟨types ▸ all.types, children ▸ all.children⟩

theorem Attributed.child (all : ns.Attributed good) (name : String) : (ns.child name).Attributed good := by
  unfold Namespace.child
  cases found : ns.children.find? (·.name = name) with
  | none => exact ⟨nofun, nofun⟩
  | some own => exact all.children own (List.mem_of_find?_eq_some found)

theorem Attributed.putChild (all : ns.Attributed good) (added : new.Attributed good) :
    (ns.putChild new).Attributed good := by
  refine ⟨all.types, fun child mem => ?_⟩
  rcases mem_putIn mem with rfl | old
  · exact added
  · exact all.children child old

theorem Attributed.descend (all : ns.Attributed good) (path : List String) :
    (ns.descend path).Attributed good := by
  induction path generalizing ns with
  | nil => exact all
  | cons name path ih => exact ih (all.child name)

theorem Attributed.graft (all : ns.Attributed good) (path : List String)
    (added : new.Attributed good) : (ns.graft path new).Attributed good := by
  induction path generalizing ns with
  | nil => exact added
  | cons name path ih => exact all.putChild (ih (all.child name))

theorem Attributed.append (all : ns.Attributed good) {types : List TypeDecl}
    (added : ∀ type ∈ types, type.Attributed good) :
    ({ ns with types := ns.types ++ types } : Namespace).Attributed good :=
  ⟨fun type mem => (List.mem_append.mp mem).elim (all.types type) (added type), all.children⟩

end Namespace

/-- A reader of scopes, started by a reader at `origin`, that adds types with good attributes. -/
def ScopeReader.Adds (good : Attribute → Prop) (origin : Cursor) (inner : ScopeReader) : Prop :=
  ∀ body scope (s : ScopeState), origin.Onward s.cursor → s.ns.Attributed good →
    (inner body scope s).1.ns.Attributed good

namespace ScopeState
open Cursor
variable {good : Attribute → Prop} {origin : Cursor} {s : ScopeState} {body : BodyReader}
  {inner : ScopeReader} {scope : List String}

theorem attributed_close (message : String) (start : Span) (all : s.ns.Attributed good) :
    (s.close message start).ns.Attributed good := by
  unfold close
  split <;> exact all

section Rounds
variable (reads : origin.ReadsGood good) (onward : origin.Onward s.cursor)
include onward

theorem attributed_openNamespace (adds : inner.Adds good origin) (all : s.ns.Attributed good) :
    (s.openNamespace inner scope).All (·.ns.Attributed good) := by
  have first := (onward.trans (onward_advance _)).trans (onward_attributeSpecifiers _)
  unfold openNamespace
  dsimp only
  generalize s.cursor.advance.attributeSpecifiers.2 = c at first ⊢
  have second := (first.trans (onward_goto (Tokens.ahead_qualifiedName c.rest))).trans
    (onward_attributeSpecifiers _)
  generalize c.rest.qualifiedName = words at second ⊢
  generalize (c.goto words.2).attributeSpecifiers.2 = d at second ⊢
  split
  next =>
    have inside := adds "namespace" (scope ++ words.1) ⟨s.ns.descend words.1, d.advance⟩
      (second.trans (onward_advance d)) (all.descend words.1)
    have grafted := all.graft words.1 inside
    split
    · exact grafted
    · exact attributed_close _ _ (s := ⟨_, _⟩) grafted
  next => exact all

theorem attributed_linkage (adds : inner.Adds good origin) (all : s.ns.Attributed good) :
    (s.linkage inner scope).All (·.ns.Attributed good) := by
  have entered := ((onward.trans (onward_advance _)).trans (onward_advance _)).trans
    (onward_advance _)
  have inside := adds "linkage block" scope
    { s with cursor := s.cursor.advance.advance.advance } entered all
  unfold linkage
  dsimp only
  split
  next =>
    split
    next final limit read =>
      rw [read] at inside
      exact inside
    next final read =>
      rw [read] at inside
      exact attributed_close _ _ inside
  next => exact all

include reads

theorem attributed_record (adds : body.Adds good origin) (all : s.ns.Attributed good)
    (isTemplate : Bool) : (s.record body scope isTemplate).All (·.ns.Attributed good) := by
  unfold record
  split
  next => exact all
  next decl c read =>
    have own := Cursor.attributed_record reads adds onward read
    refine all.append fun type mem => ?_
    split at mem
    · cases mem
    · exact List.mem_singleton.mp mem ▸ own
  next => exact all
  next => exact all

theorem attributed_template (adds : body.Adds good origin) (all : s.ns.Attributed good) :
    (s.template body scope).All (·.ns.Attributed good) := by
  have entered := onward_goto ((Tokens.ahead_advance s.cursor.rest).trans (Tokens.ahead_skipAngles _))
  unfold template
  dsimp only
  split
  · exact attributed_record (s := ⟨s.ns, _⟩) reads (onward.trans entered) adds all true
  · exact all

theorem attributed_typedef (adds : body.Adds good origin) (all : s.ns.Attributed good) :
    (s.typedef body scope).All (·.ns.Attributed good) := by
  unfold typedef
  split
  next => exact all
  next outcome c read =>
    exact (all.append (Cursor.attributed_typedef reads adds onward read)).congr rfl rfl

omit reads onward in
theorem attributed_usingDirective (all : s.ns.Attributed good) :
    (s.usingDirective scope).ns.Attributed good := by
  unfold usingDirective
  split
  · dsimp only
    split
    · exact all
    · unfold Namespace.addUsing
      split
      · exact all
      · exact all.congr rfl rfl
  · exact all.congr rfl rfl

theorem attributed_wordRound (types : body.Adds good origin) (scopes : inner.Adds good origin)
    (all : s.ns.Attributed good) (word : String) :
    (s.wordRound body inner scope word).All (·.ns.Attributed good) := by
  unfold wordRound
  dsimp only
  split
  · exact attributed_openNamespace onward scopes all
  split
  · exact all
  refine iteInduction (motive := Round.All fun s : ScopeState => s.ns.Attributed good) (fun _ => ?_)
    fun _ => ?_
  · exact attributed_linkage onward scopes all
  split
  · exact attributed_template reads onward types all
  split
  · exact attributed_record reads onward types all false
  split
  · exact all.congr rfl rfl
  split
  · exact attributed_typedef reads onward types all
  split
  · exact attributed_usingDirective all
  · exact all

theorem attributed_round (types : body.Adds good origin) (scopes : inner.Adds good origin)
    (all : s.ns.Attributed good) : (s.round body inner scope).All (·.ns.Attributed good) := by
  unfold round
  split
  case h_7 word _ => exact attributed_wordRound reads onward types scopes all word
  all_goals exact all

end Rounds

end ScopeState

section Files
variable {good : Attribute → Prop} {origin : Cursor}

theorem adds_innerReader (reads : origin.ReadsGood good) (closed : origin.rest.Closed) (room : Nat) :
    (Grammar.innerReader room).Adds good origin := by
  induction room with
  | zero => exact fun body scope s onward all => all
  | succ room ih =>
    intro body scope s onward all
    have run : Grammar.innerReader (room + 1) body scope s = _ :=
      Grammar.declarations_eq room scope s
    rw [run]
    have types := steady_typeBody room
    have scopes := steady_innerReader room
    have kept := Guard.loop_all "declarations" ScopeState.position
      (P := fun s => origin.Onward s.cursor ∧ s.ns.Attributed good)
      (fun s ⟨onward, all⟩ =>
        ((ScopeState.moves_round types scopes scope s (onward.ahead.closed closed)).from onward).and
          (ScopeState.attributed_round reads onward (adds_typeBody reads closed room) ih all))
      (s := s) ⟨onward, all⟩
    exact kept.2

theorem attributed_fileRound (reads : origin.ReadsGood good) (closed : origin.rest.Closed)
    {s : ScopeState} (onward : origin.Onward s.cursor) (all : s.ns.Attributed good) :
    (fileRound s).All (·.ns.Attributed good) := by
  have inside : (declarations maxDepth [] s).1.ns.Attributed good :=
    adds_innerReader reads closed (maxDepth + 1) "" [] s onward all
  unfold fileRound
  split
  next final limit read =>
    rw [read] at inside
    exact inside
  next final read =>
    rw [read] at inside
    split <;> exact inside

/-- All attributes that a header records are good, if those are that are read. -/
theorem Header.attributed_read (source : Source) (reads : (start source).cursor.ReadsGood good) :
    (read source).root.Attributed good := by
  have closed : (start source).cursor.rest.Closed := closed_ofText source.text
  have kept := Guard.loop_all "file" ScopeState.position
    (P := fun s => (start source).cursor.Onward s.cursor ∧ s.ns.Attributed good)
    (fun s ⟨onward, all⟩ =>
      ((moves_fileRound s (onward.ahead.closed closed)).from onward).and
        (attributed_fileRound reads closed onward all))
    (s := start source) ⟨.refl _, ⟨nofun, nofun⟩⟩
  exact kept.2

theorem TypeDecl.Attributed.walk {d : TypeDecl} (all : d.Attributed good) :
    ∀ t ∈ d.walk, t.Attributed good := by
  induction all with
  | @intro d own fields nested ih =>
    intro t mem
    obtain ⟨⟩ := d
    rw [TypeDecl.walk] at mem
    rcases List.mem_cons.mp mem with rfl | inner
    · exact ⟨own, fields, nested⟩
    · obtain ⟨own, inside, mem⟩ := TypeDecl.mem_walkAll.mp inner
      exact ih own inside t mem

theorem Namespace.Attributed.walk {ns : Namespace} (all : ns.Attributed good) :
    ∀ t ∈ ns.walk, t.Attributed good := by
  have scopes : ∀ s ∈ ns.scopes, s.2.Attributed good := by
    induction all with
    | @intro ns types children ih =>
      intro s mem
      rw [scopes_eq] at mem
      rcases List.mem_cons.mp mem with rfl | below
      · exact ⟨types, children⟩
      · obtain ⟨child, inside, mem⟩ := List.mem_flatMap.mp below
        obtain ⟨own, inner, rfl⟩ := List.mem_map.mp mem
        exact ih child inside own inner
  intro t mem
  rw [walk_eq] at mem
  obtain ⟨s, space, mem⟩ := List.mem_flatMap.mp mem
  obtain ⟨d, inside, mem⟩ := TypeDecl.mem_walkAll.mp mem
  exact ((scopes s space).types d inside).walk t mem

end Files

end HeaderMeta
