import HeaderMeta.Proofs.Bodies.Files

/-! The three bodies generated for a type agree.

A type has a reflector of mutable objects, one of constant objects and a prototype.
`BodyEntries.of` lists what a body enters: the identity of the type, its members, the metadata of its
attributes and its bases. All three enter the same (`Artifact.generate_bodies`).
-/

set_option autoImplicit false

namespace HeaderMeta

section Splitting
variable {α : Type} [DecidableEq α] {x : α} {xs : List α}

theorem takeWhile_ne_append (absent : x ∉ xs) (rest : List α) :
    (xs ++ x :: rest).takeWhile (· ≠ x) = xs := by
  have all : ∀ y ∈ xs, decide (y ≠ x) = true :=
    fun y mem => decide_eq_true (ne_of_mem_of_not_mem mem absent)
  rw [List.takeWhile_append_of_pos all]
  simp

theorem dropWhile_ne_append (absent : x ∉ xs) (rest : List α) :
    (xs ++ x :: rest).dropWhile (· ≠ x) = x :: rest := by
  have all : ∀ y ∈ xs, decide (y ≠ x) = true :=
    fun y mem => decide_eq_true (ne_of_mem_of_not_mem mem absent)
  rw [List.dropWhile_append_of_pos all]
  simp

omit [DecidableEq α] in
theorem split_after {tail before after : List α} (split : xs ++ tail = before ++ x :: after)
    (absent : x ∉ xs) : ∃ middle, before = xs ++ middle ∧ tail = middle ++ x :: after := by
  rcases List.append_eq_append_iff.mp split with later | ⟨middle, lead, rest⟩
  · exact later
  · cases middle with
    | nil => exact ⟨[], by simpa using lead.symm, rest.symm⟩
    | cons y middle =>
      cases rest
      exact absurd (by simp [lead]) absent

end Splitting

/-! Metadata objects read from their definitions. -/

namespace MetadataEntry

/-- Split a definition at its first brace, and what stands before that at its first blank. -/
def ofDefinition (text : String) : MetadataEntry :=
  let before := text.toList.takeWhile (· ≠ '\x7b')
  let behind := text.toList.dropWhile (· ≠ '\x7b')
  { type := String.ofList (before.takeWhile (· ≠ ' '))
    var := String.ofList ((before.dropWhile (· ≠ ' ')).drop 1)
    arguments := String.ofList (behind.drop 1).dropLast }

def Plain (name : String) : Prop :=
  ' ' ∉ name.toList ∧ '\x7b' ∉ name.toList

instance (name : String) : Decidable (Plain name) :=
  inferInstanceAs (Decidable (_ ∧ _))

theorem ofDefinition_definition {e : MetadataEntry} (type : Plain e.type)
    (var : '\x7b' ∉ e.var.toList) : ofDefinition e.definition = e := by
  have before : '\x7b' ∉ e.type.toList ++ ' ' :: e.var.toList := by
    simp [type.2, var]
  have shape : e.definition.toList =
      (e.type.toList ++ ' ' :: e.var.toList) ++ '\x7b' :: (e.arguments.toList ++ ['\x7d']) := by
    simp [definition]
  unfold ofDefinition
  dsimp only
  rw [shape, takeWhile_ne_append before, dropWhile_ne_append before, takeWhile_ne_append type.1,
    dropWhile_ne_append type.1]
  simp

theorem not_mem_attributeVariable {name : String} (plain : '\x7b' ∉ name.toList) (repeats : Nat) :
    '\x7b' ∉ (attributeVariable name repeats).toList := by
  unfold attributeVariable
  split
  · simp [plain]
  · have digits : '\x7b' ∉ Nat.toDigits 10 repeats := by
      intro mem
      have digit := Nat.isDigit_of_mem_toDigits (by decide) (by decide) mem
      simp [Char.isDigit] at digit
    simp [plain, digits]

theorem ofDefinition_ofAttribute {a : Attribute} (plain : Plain a.qualifiedName) (repeats : Nat) :
    ofDefinition (ofAttribute repeats a).definition = ofAttribute repeats a := by
  have name : '\x7b' ∉ a.name.toList := by
    intro mem
    apply plain.2
    unfold Attribute.qualifiedName
    split <;> simp [mem]
  have type : Plain (ofAttribute repeats a).type := by
    constructor <;> simp [ofAttribute, plain.1, plain.2]
  exact ofDefinition_definition type (not_mem_attributeVariable name repeats)

end MetadataEntry

namespace Statement

/-- Objects that are defined and at once appended to the list of this block. -/
def entriesIn (toMember : Bool) : List Statement → List (String × String)
  | .define definition :: .append list var :: rest =>
    if list = toMember then (definition, var) :: entriesIn toMember rest
    else entriesIn toMember rest
  | _ :: rest => entriesIn toMember rest
  | [] => []

def lookedUp? : Statement → Option String
  | memberAt name => some name
  | _ => none

def blockOf (inner : List Statement) : MetadataBlock (String × String) :=
  let member := inner.findSome? lookedUp?
  ⟨member, entriesIn member.isSome inner⟩

def blocks : List Statement → List (MetadataBlock (String × String))
  | [] => []
  | .opened :: rest => blockOf (rest.takeWhile (· ≠ .closed)) :: blocks rest
  | _ :: rest => blocks rest

end Statement

structure BodyEntries where
  typeIds : List String
  typeNames : List String
  members : List (String × EntryKind)
  blocks : List (MetadataBlock (String × String))
  bases : List BaseLink

def BodyEntries.of (body : List Statement) : BodyEntries where
  typeIds := body.filterMap fun | .typeId name => some name | _ => none
  typeNames := body.filterMap fun | .typeName name => some name | _ => none
  members := body.filterMap fun | .member name kind => some (name, kind) | _ => none
  blocks := Statement.blocks body
  bases := body.filterMap fun | .base link => some link | _ => none

def MetadataBlock.spelled (b : MetadataBlock MetadataEntry) : MetadataBlock (String × String) :=
  ⟨b.member, b.entries.map fun e => (e.definition, e.var)⟩

def MetadataBlock.parsed (b : MetadataBlock (String × String)) : MetadataBlock MetadataEntry :=
  ⟨b.member, b.entries.map fun e => .ofDefinition e.1⟩

section Blocks

theorem blocks_append {lead : List Statement} (none : .opened ∉ lead) (rest : List Statement) :
    Statement.blocks (lead ++ rest) = Statement.blocks rest := by
  induction lead with
  | nil => rfl
  | cons s lead ih =>
    rw [List.mem_cons, not_or] at none
    rw [List.cons_append, Statement.blocks, ih none.2]
    exact fun same => none.1 same.symm

theorem entriesIn_statements (toMember : Bool) (entries : List MetadataEntry) :
    Statement.entriesIn toMember (entries.flatMap (·.statements toMember)) =
      entries.map fun e => (e.definition, e.var) := by
  induction entries with
  | nil => rfl
  | cons e entries ih =>
    rw [List.flatMap_cons, MetadataEntry.statements, List.cons_append, List.singleton_append,
      Statement.entriesIn, if_pos rfl, ih, List.map_cons]

theorem findSome?_statements (toMember : Bool) (entries : List MetadataEntry) :
    (entries.flatMap (·.statements toMember)).findSome? Statement.lookedUp? = none := by
  apply List.findSome?_eq_none_iff.mpr
  intro s mem
  obtain ⟨e, -, said⟩ := List.mem_flatMap.mp mem
  rcases List.mem_pair.mp said with rfl | rfl <;> rfl

theorem mem_inner {b : MetadataBlock MetadataEntry} {s : Statement}
    (mem : s ∈ b.member.toList.map .memberAt ++ b.entries.flatMap (·.statements b.member.isSome)) :
    (∃ name, s = .memberAt name ∧ b.member = some name) ∨ (∃ text, s = .define text) ∨
      ∃ list var, s = .append list var := by
  rcases List.mem_append.mp mem with looked | entered
  · obtain ⟨name, own, rfl⟩ := List.mem_map.mp looked
    exact .inl ⟨name, rfl, Option.mem_toList.mp own⟩
  · obtain ⟨e, -, said⟩ := List.mem_flatMap.mp entered
    rcases List.mem_pair.mp said with rfl | rfl
    · exact .inr (.inl ⟨_, rfl⟩)
    · exact .inr (.inr ⟨_, _, rfl⟩)

theorem blocks_statements (b : MetadataBlock MetadataEntry) (rest : List Statement) :
    Statement.blocks (b.statements ++ rest) = b.spelled :: Statement.blocks rest := by
  let inner := b.member.toList.map Statement.memberAt ++
    b.entries.flatMap (·.statements b.member.isSome)
  have notOpened : Statement.opened ∉ inner ++ [.closed] := by
    intro mem
    rcases List.mem_append.mp mem with inside | last
    · rcases mem_inner inside with ⟨_, same, _⟩ | ⟨_, same⟩ | ⟨_, _, same⟩ <;> cases same
    · cases List.mem_singleton.mp last
  -- no block is opened or closed inside, so the block ends at its own brace
  have taken : (inner ++ .closed :: rest).takeWhile (· ≠ Statement.closed) = inner := by
    apply takeWhile_ne_append
    intro inside
    rcases mem_inner inside with ⟨_, same, _⟩ | ⟨_, same⟩ | ⟨_, _, same⟩ <;> cases same
  have read : Statement.blockOf inner = b.spelled := by
    have looked : inner.findSome? Statement.lookedUp? = b.member := by
      rw [List.findSome?_append, findSome?_statements]
      cases b.member <;> rfl
    have entered : Statement.entriesIn b.member.isSome inner =
        b.entries.map fun e => (e.definition, e.var) := by
      rw [← entriesIn_statements b.member.isSome]
      cases same : b.member <;> simp [inner, same, Statement.entriesIn]
    unfold Statement.blockOf
    dsimp only
    rw [looked, entered]
    rfl
  have shape : b.statements ++ rest = .opened :: (inner ++ .closed :: rest) := by
    simp [MetadataBlock.statements, inner]
  have skipped := blocks_append notOpened rest
  rw [List.append_assoc, List.singleton_append] at skipped
  rw [shape, Statement.blocks, taken, read, skipped]

theorem blocks_flatMap (bs : List (MetadataBlock MetadataEntry)) (rest : List Statement) :
    Statement.blocks (bs.flatMap (·.statements) ++ rest) =
      bs.map (·.spelled) ++ Statement.blocks rest := by
  induction bs with
  | nil => rfl
  | cons b bs ih =>
    rw [List.flatMap_cons, List.append_assoc, blocks_statements, ih, List.map_cons,
      List.cons_append]

theorem filterMap_blocks {β : Type} {f : Statement → Option β}
    (looked : ∀ name, f (.memberAt name) = none) (defined : ∀ text, f (.define text) = none)
    (appended : ∀ list var, f (.append list var) = none) (opened : f .opened = none)
    (closed : f .closed = none) (bs : List (MetadataBlock MetadataEntry)) :
    (bs.flatMap (·.statements)).filterMap f = [] := by
  apply List.filterMap_eq_nil_iff.mpr
  intro s mem
  obtain ⟨b, -, said⟩ := List.mem_flatMap.mp mem
  rcases List.mem_append.mp said with said | last
  · rcases List.mem_cons.mp said with rfl | inside
    · exact opened
    · rcases mem_inner inside with ⟨name, rfl, _⟩ | ⟨text, rfl⟩ | ⟨list, var, rfl⟩
      · exact looked name
      · exact defined text
      · exact appended list var
  · rw [List.mem_singleton.mp last]
    exact closed

end Blocks

namespace EmitTarget
variable (t : EmitTarget)

theorem entries_statements :
    BodyEntries.of t.statements =
      { typeIds := [t.qualifiedName]
        typeNames := [t.qualifiedName]
        members :=
          if t.isFull then
            t.classification.emitted.map fun m => (m.field.name, m.memberClass.entryKind)
          else []
        blocks := if t.isFull then t.metadataBlocks.map (·.spelled) else []
        bases := if t.isFull then t.classification.bases else [] } := by
  unfold statements
  by_cases full : t.isFull = true
  · have blocks : Statement.blocks
        ([.typeId t.qualifiedName, .typeName t.qualifiedName] ++
          (t.classification.emitted.map (fun m => .member m.field.name m.memberClass.entryKind) ++
            t.metadataBlocks.flatMap (·.statements) ++ t.classification.bases.map .base)) =
        t.metadataBlocks.map (·.spelled) := by
      rw [List.append_assoc, blocks_append (by simp), blocks_append (by simp), blocks_flatMap]
      have none : Statement.opened ∉ t.classification.bases.map .base := by simp
      have bases := blocks_append none []
      rw [List.append_nil] at bases
      simp [bases, Statement.blocks]
    simp only [full, if_true, BodyEntries.of, blocks, List.filterMap_append]
    -- each of the other lists is taken from its own part of the body
    rw [filterMap_blocks, filterMap_blocks, filterMap_blocks, filterMap_blocks]
    all_goals simp [List.filterMap_map]
  · simp [full, BodyEntries.of, Statement.blocks]

theorem mem_emitted_of_memberAt {name : String}
    (mem : .memberAt name ∈ t.metadataBlocks.flatMap (·.statements)) :
    ∃ m ∈ t.classification.emitted, m.field.name = name := by
  obtain ⟨b, isBlock, said⟩ := List.mem_flatMap.mp mem
  have own : b.member = some name := by
    rcases List.mem_append.mp said with said | last
    · rcases List.mem_cons.mp said with same | inside
      · cases same
      · rcases mem_inner inside with ⟨_, same, own⟩ | ⟨_, same⟩ | ⟨_, _, same⟩ <;> cases same
        exact own
    · cases List.mem_singleton.mp last
  obtain ⟨owner, isOwner, rfl⟩ := List.mem_map.mp (List.mem_filter.mp isBlock).1
  rcases List.mem_cons.mp isOwner with rfl | isField
  · cases own
  · obtain ⟨m, emitted, rfl⟩ := List.mem_map.mp isField
    exact ⟨m, emitted, Option.some.inj own⟩

theorem member_before {before after : List Statement} {name : String}
    (split : t.statements = before ++ .memberAt name :: after) :
    ∃ kind, .member name kind ∈ before := by
  unfold statements at split
  by_cases full : t.isFull = true
  · rw [if_pos full, List.append_assoc, ← List.append_assoc] at split
    -- the identity and the members stand before the look-up, which is part of a block
    obtain ⟨middle, rfl, tail⟩ := split_after split (by simp)
    have mem : .memberAt name ∈ t.metadataBlocks.flatMap (·.statements) ++
        t.classification.bases.map .base := by
      simp [tail]
    have inBlock : .memberAt name ∈ t.metadataBlocks.flatMap (·.statements) := by
      rcases List.mem_append.mp mem with inBlock | isBase
      · exact inBlock
      · obtain ⟨_, _, same⟩ := List.mem_map.mp isBase
        cases same
    obtain ⟨m, emitted, rfl⟩ := t.mem_emitted_of_memberAt inBlock
    refine ⟨m.memberClass.entryKind, List.mem_append_left _ (List.mem_append_right _ ?_)⟩
    exact List.mem_map.mpr ⟨m, emitted, rfl⟩
  · rw [if_neg full] at split
    have mem : Statement.memberAt name ∈ before ++ .memberAt name :: after := by simp
    rw [← split] at mem
    simp at mem

theorem parsed_metadataBlocks
    (plain : ∀ owner ∈ t.attributeOwners, ∀ a ∈ owner.2, a.isEmitted = true →
      MetadataEntry.Plain a.qualifiedName) :
    (t.metadataBlocks.map (·.spelled)).map (·.parsed) = t.metadataBlocks := by
  have same : ∀ b ∈ t.metadataBlocks, b.spelled.parsed = b := by
    intro b mem
    obtain ⟨owner, isOwner, rfl⟩ := List.mem_map.mp (List.mem_filter.mp mem).1
    have each : ∀ e ∈ metadata owner.2, MetadataEntry.ofDefinition e.definition = e := by
      intro e entered
      obtain ⟨i, bound, rfl⟩ := List.mem_mapIdx.mp entered
      have emitted := List.mem_filter.mp (List.getElem_mem bound)
      exact MetadataEntry.ofDefinition_ofAttribute
        (plain owner isOwner _ emitted.1 emitted.2) _
    simp only [MetadataBlock.spelled, MetadataBlock.parsed, List.map_map]
    congr 1
    exact (List.map_congr_left each).trans (List.map_id _)
  rw [List.map_map]
  exact (List.map_congr_left same).trans (List.map_id _)

end EmitTarget

/-- A public field of an arithmetic type, an enumeration, a type of the standard library, or a record
that is no template instance, aliases looked through. -/
def Field.isShown (f : Field) : Bool :=
  f.visibility = .pub &&
    match f.type.kind.canonical with
    | .primitive _ | .enumeration _ => true
    | .record name args => isStdName name || args.isNone
    | .synonym _ _ | .templated | .pointer | .reference | .array | .bitfield | .unresolved => false

theorem Field.isEmitted_memberClass (f : Field) : f.memberClass.isEmitted = f.isShown := by
  unfold memberClass isShown
  by_cases shown : f.visibility = .pub
  · rw [if_pos shown, TypeKind.memberClass]
    cases kind : f.type.kind.canonical with
    | record name args =>
      cases std : isStdName name <;> cases args <;> simp [shown, std, MemberClass.isEmitted]
    | _ => simp [shown, MemberClass.isEmitted]
  · simp [shown, MemberClass.isEmitted]

theorem Classification.emitted_ofType (decl : TypeDecl) (verdicts : Verdicts) :
    (ofType decl verdicts).emitted.map (·.field) = decl.fields.filter Field.isShown := by
  unfold emitted ofType
  induction decl.fields with
  | nil => rfl
  | cons f fields ih =>
    have own : Member.isEmitted ⟨f, f.memberClass⟩ = f.isShown := f.isEmitted_memberClass
    rw [List.map_cons, List.filter_cons, List.filter_cons, own]
    split
    · rw [List.map_cons, ih]
    · exact ih

/-- The three bodies generated for a type agree, read statement by statement from the files. Each
enters the type under its qualified name and, for a reflectable type only, the emitted members of the
classification, the metadata of the emitted attributes of the type and of those members, and the
bases; and it looks no member up that it has not entered. -/
theorem Artifact.generate_bodies (emit : EmitConfig) (dir : Path) (decl : TypeDecl)
    (verdict : Verdict) (c : Classification) (stem : String) :
    let target : EmitTarget :=
      { decl, verdict, classification := c, stem
        sourceInclude := relativeInclude decl.path dir }
    let files := target.code emit
    let body (m : Maker) := m.read (m.body target)
    ((Artifact.generate emit dir decl verdict c stem).map fun a => (a.kind, a.content)) =
        ArtifactKind.all.map (fun kind => (kind, (files kind).text)) ∧
      (∀ kind, kind.isHeader = false → (files kind).Legible →
        Code.ofText (files kind).text = files kind) ∧
      (files .reflectorImpl).functions =
        [.reflector .mutable, .reflector .constant].map (fun m =>
          (Maker.head m emit decl.qualifiedName, m.body target)) ∧
      (files .prototypeImpl).functions =
        [(Maker.prototype.head emit decl.qualifiedName, Maker.prototype.body target)] ∧
      (∀ m,
        BodyEntries.of (body m) =
          { typeIds := [decl.qualifiedName]
            typeNames := [decl.qualifiedName]
            members :=
              if verdict = .reflectable then
                c.emitted.map fun x => (x.field.name, x.memberClass.entryKind)
              else []
            blocks := if verdict = .reflectable then target.metadataBlocks.map (·.spelled) else []
            bases := if verdict = .reflectable then c.bases else [] } ∧
        ((∀ owner ∈ target.attributeOwners, ∀ a ∈ owner.2, a.isEmitted = true →
            MetadataEntry.Plain a.qualifiedName) →
          (BodyEntries.of (body m)).blocks.map (·.parsed) =
            if verdict = .reflectable then target.metadataBlocks else []) ∧
        ∀ before name after, body m = before ++ .memberAt name :: after →
          ∃ kind, .member name kind ∈ before) ∧
      ∀ verdicts, c = Classification.ofType decl verdicts →
        c.emitted.map (·.field) = decl.fields.filter Field.isShown := by
  intro target files body
  have full : target.isFull = true ↔ verdict = .reflectable := decide_eq_true_iff
  have said (m : Maker) : body m = target.statements := (m.says_body target).read
  have reading := target.entries_statements
  simp only [full] at reading
  refine ⟨rfl, fun kind => target.ofText_implementation emit, target.functions_reflectorImpl emit,
    target.functions_prototypeImpl emit, fun m => ?_, ?_⟩
  · rw [said m]
    refine ⟨reading, fun plain => ?_, fun before name after => target.member_before⟩
    rw [reading]
    split
    · exact target.parsed_metadataBlocks plain
    · rfl
  · rintro verdicts rfl
    exact Classification.emitted_ofType decl verdicts

def measured : TypeDecl :=
  { name := "M", key := .struct, path := ⟨"m.h"⟩
    fields := [{ name := "x", type := ⟨"int", .primitive "int"⟩, visibility := .pub
                 attributes := [⟨none, "range", some "0,\n1", {}⟩] }] }

theorem Artifact.generate_bodies_measured :
    let target : EmitTarget :=
      { decl := measured, verdict := .reflectable, classification := .ofType measured {}
        stem := "M", sourceInclude := relativeInclude measured.path ⟨"."⟩ }
    let file := target.code {} .prototypeImpl
    let entries := BodyEntries.of (Maker.prototype.read (Maker.prototype.body target))
    (file.Legible ∧ Code.ofText file.text = file) ∧
      entries.blocks.map (·.parsed) =
        [⟨some "x", [⟨"range_attribute", "range_attr", "0,\n1"⟩]⟩] := by
  intro target file entries
  have bodies := Artifact.generate_bodies {} ⟨"."⟩ measured .reflectable (.ofType measured {}) "M"
  have legible : file.Legible := by decide +kernel
  have plain : ∀ owner ∈ target.attributeOwners, ∀ a ∈ owner.2, a.isEmitted = true →
      MetadataEntry.Plain a.qualifiedName := by decide +kernel
  have parsed := (bodies.2.2.2.2.1 .prototype).2.1 plain
  exact ⟨⟨legible, bodies.2.1 .prototypeImpl rfl legible⟩, parsed.trans (by decide +kernel)⟩

end HeaderMeta
