import HeaderMeta.Proofs.Grammar.Records

/-! Reading a forest of declarations.

A namespace that is opened again goes on from what it holds, so the reader is followed from a scope
that already stands for a forest: reading `ds` turns `spaceOf pre` into `spaceOf (pre ++ ds)`.
-/

set_option autoImplicit false

namespace HeaderMeta

namespace Namespace

theorem unplacedAll_eq_map (all : List Namespace) :
    Namespace.unplacedAll all = all.map Namespace.unplaced := by
  induction all with
  | nil => rfl
  | cons ns rest ih => rw [Namespace.unplacedAll, ih, List.map_cons]

@[simp] theorem name_unplaced (ns : Namespace) : ns.unplaced.name = ns.name := by
  obtain ⟨⟩ := ns
  simp [unplaced]

@[simp] theorem children_unplaced (ns : Namespace) :
    ns.unplaced.children = ns.children.map Namespace.unplaced := by
  obtain ⟨⟩ := ns
  simp [unplaced, unplacedAll_eq_map]

theorem unplaced_child (ns : Namespace) (name : String) :
    (ns.child name).unplaced = ns.unplaced.child name := by
  have empty : Namespace.unplaced { name } = { name } := by simp [unplaced, unplacedAll]
  simp only [child, children_unplaced, List.find?_map, Function.comp_def, name_unplaced]
  cases ns.children.find? (·.name = name) <;> simp [empty]

theorem map_putIn (new : Namespace) (all : List Namespace) :
    (putIn new all).map Namespace.unplaced = putIn new.unplaced (all.map Namespace.unplaced) := by
  induction all with
  | nil => rfl
  | cons ns rest ih =>
    simp only [putIn, List.map_cons, name_unplaced]
    split <;> simp [ih]

theorem unplaced_putChild (ns new : Namespace) :
    (ns.putChild new).unplaced = ns.unplaced.putChild new.unplaced := by
  obtain ⟨⟩ := ns
  simp [putChild, unplaced, unplacedAll_eq_map, map_putIn]

def grown (ns : Namespace) (types : List TypeDecl) (enums : List EnumDecl)
    (aliases : List AliasDecl) : Namespace :=
  { ns with
    types := ns.types ++ types, enums := ns.enums ++ enums, aliases := ns.aliases ++ aliases }

theorem unplaced_grown (ns : Namespace) (types : List TypeDecl) (enums : List EnumDecl)
    (aliases : List AliasDecl) :
    (ns.grown types enums aliases).unplaced =
      ns.unplaced.grown (types.map TypeDecl.unplaced) (enums.map EnumDecl.unplaced)
        (aliases.map AliasDecl.unplaced) := by
  obtain ⟨⟩ := ns
  simp [grown, unplaced]

/-- Putting a namespace in place of the one of its name, or at the end. -/
theorem putIn_map {names : List String} (distinct : names.Nodup) {f : String → Namespace}
    (named : ∀ n, (f n).name = n) (new : Namespace) :
    putIn new (names.map f) =
      if new.name ∈ names then names.map fun n => if n = new.name then new else f n
      else names.map f ++ [new] := by
  induction names with
  | nil => rfl
  | cons n names ih =>
    obtain ⟨fresh, others⟩ := List.nodup_cons.mp distinct
    by_cases same : n = new.name
    · have elsewhere : names.map (fun m => if m = new.name then new else f m) = names.map f :=
        List.map_congr_left fun m mem => if_neg fun (equal : m = new.name) =>
          fresh (same.trans equal.symm ▸ mem)
      simp [putIn, named, same, elsewhere]
    · simp [putIn, named, same, Ne.symm same, ih others]
      split <;> simp

end Namespace

namespace Grammar

section Spaces
variable {path : Path} {scope : List String} {name : String} {ds : List DeclForm}

theorem nodup_eraseDups (names : List String) : names.eraseDups.Nodup := by
  induction length : names.length using Nat.strongRecOn generalizing names with
  | ind size ih =>
    cases names with
    | nil => exact List.nodup_nil
    | cons n names =>
      have shorter : (names.filter fun m => !m == n).length < size := by
        have := List.length_filter_le (fun m => !m == n) names
        simp only [List.length_cons] at length
        omega
      rw [List.eraseDups_cons, List.nodup_cons]
      exact ⟨by simp, ih _ shorter _ rfl⟩

theorem spaceOf_eq (path : Path) (scope : List String) (name : String) (ds : List DeclForm) :
    spaceOf path scope name ds =
      { name
        types := ds.flatMap (DeclForm.types ⟨path, scope, []⟩)
        enums := ds.flatMap (DeclForm.enums ⟨path, scope, []⟩)
        aliases := ds.flatMap (DeclForm.aliases ⟨path, scope, []⟩)
        children := (openedIn ds).map fun n => spaceOf path (scope ++ [n]) n (bodyOf n ds) } := by
  rw [spaceOf]
  simp

@[simp] theorem name_spaceOf : (spaceOf path scope name ds).name = name := by
  rw [spaceOf]

theorem spaceOf_nil : spaceOf path scope name [] = { name } := by
  rw [spaceOf_eq]
  rfl

theorem bodyOf_eq_nil {n : String} (closed : n ∉ openedIn ds) : bodyOf n ds = [] := by
  refine List.flatMap_eq_nil_iff.mpr fun d mem => ?_
  cases d with
  | space n' body =>
    exact if_neg fun same => closed (mem_openedIn.mpr ⟨n', body, mem, same⟩)
  | _ => rfl

theorem child_spaceOf (n : String) :
    (spaceOf path scope name ds).child n = spaceOf path (scope ++ [n]) n (bodyOf n ds) := by
  have named : ((openedIn ds).map fun n => spaceOf path (scope ++ [n]) n (bodyOf n ds)).find?
      (·.name = n) = ((openedIn ds).find? (· = n)).map fun n =>
        spaceOf path (scope ++ [n]) n (bodyOf n ds) := by
    simp only [List.find?_map, Function.comp_def, name_spaceOf]
  rw [spaceOf_eq path scope name ds, Namespace.child, named]
  by_cases opened : n ∈ openedIn ds
  · have found : (openedIn ds).find? (· = n) = some n := by
      cases first : (openedIn ds).find? (· = n) with
      | none => exact absurd (decide_eq_true rfl) (List.find?_eq_none.mp first n opened)
      | some m => simpa using List.find?_some first
    rw [found]
    rfl
  · have missing : (openedIn ds).find? (· = n) = none :=
      List.find?_eq_none.mpr fun m mem same => opened (of_decide_eq_true same ▸ mem)
    rw [missing, bodyOf_eq_nil opened, spaceOf_nil]
    rfl

theorem openedIn_append_plain {d : DeclForm} (pre : List DeclForm) (plain : d.opened = []) :
    openedIn (pre ++ [d]) = openedIn pre := by
  simp [openedIn, plain]

theorem eraseDups_append_singleton (names : List String) (n : String) :
    (names ++ [n]).eraseDups =
      if n ∈ names then names.eraseDups else names.eraseDups ++ [n] := by
  rw [List.eraseDups_append]
  by_cases mem : n ∈ names
  · simp [List.removeAll, mem]
  · simp [List.removeAll, mem, List.eraseDups_cons]

theorem openedIn_append_space (pre body : List DeclForm) (n : Name) :
    openedIn (pre ++ [DeclForm.space n body]) =
      if n.text ∈ openedIn pre then openedIn pre else openedIn pre ++ [n.text] := by
  have last : [DeclForm.space n body].flatMap DeclForm.opened = [n.text] := rfl
  simp only [openedIn, List.flatMap_append, last, eraseDups_append_singleton, List.mem_eraseDups]

theorem nodup_openedIn (ds : List DeclForm) : (openedIn ds).Nodup :=
  nodup_eraseDups _

theorem bodyOf_append (n : String) (pre ds : List DeclForm) :
    bodyOf n (pre ++ ds) = bodyOf n pre ++ bodyOf n ds :=
  List.flatMap_append

theorem spaceOf_append {d : DeclForm} (pre : List DeclForm) (plain : d.opened = [])
    (empty : ∀ n, d.partOf n = []) :
    spaceOf path scope name (pre ++ [d]) =
      (spaceOf path scope name pre).grown (d.types ⟨path, scope, []⟩) (d.enums ⟨path, scope, []⟩)
        (d.aliases ⟨path, scope, []⟩) := by
  have bodies (n : String) : bodyOf n [d] = [] := by simp [bodyOf, empty]
  rw [spaceOf_eq path scope name (pre ++ [d]), spaceOf_eq path scope name pre]
  simp [Namespace.grown, openedIn_append_plain pre plain, bodyOf_append, bodies]

theorem spaceOf_append_space (pre body : List DeclForm) (n : Name) :
    spaceOf path scope name (pre ++ [DeclForm.space n body]) =
      (spaceOf path scope name pre).putChild
        (spaceOf path (scope ++ [n.text]) n.text (bodyOf n.text pre ++ body)) := by
  have here : bodyOf n.text [.space n body] = body := by simp [bodyOf, DeclForm.partOf]
  have elsewhere {m : String} (other : m ≠ n.text) : bodyOf m [.space n body] = [] := by
    simp [bodyOf, DeclForm.partOf, Ne.symm other]
  have children : (openedIn (pre ++ [.space n body])).map
      (fun m => spaceOf path (scope ++ [m]) m (bodyOf m (pre ++ [.space n body]))) =
      Namespace.putIn (spaceOf path (scope ++ [n.text]) n.text (bodyOf n.text pre ++ body))
        ((openedIn pre).map fun m => spaceOf path (scope ++ [m]) m (bodyOf m pre)) := by
    rw [Namespace.putIn_map (nodup_openedIn pre) (fun _ => name_spaceOf), openedIn_append_space]
    simp only [name_spaceOf]
    -- only the child of that name grows, or it is a new one at the end
    have same (m : String) : spaceOf path (scope ++ [m]) m (bodyOf m (pre ++ [.space n body])) =
        if m = n.text then spaceOf path (scope ++ [n.text]) n.text (bodyOf n.text pre ++ body)
        else spaceOf path (scope ++ [m]) m (bodyOf m pre) := by
      split
      · rename_i equal
        rw [equal, bodyOf_append, here]
      · rename_i other
        rw [bodyOf_append, elsewhere other, List.append_nil]
    split
    · exact List.map_congr_left fun m _ => same m
    · rename_i fresh
      rw [List.map_append, List.map_singleton, same n.text, if_pos rfl]
      refine congrArg (· ++ _) (List.map_congr_left fun m mem => ?_)
      have other : m ≠ n.text := fun equal => fresh (equal ▸ mem)
      rw [same m, if_neg other]
  rw [spaceOf_eq path scope name (pre ++ [DeclForm.space n body]), spaceOf_eq path scope name pre,
    children]
  simp [Namespace.putChild, DeclForm.types, DeclForm.enums, DeclForm.aliases]

end Spaces

section Declarations
variable {rest : Tokens}

def innerReader : (room : Nat) → ScopeReader
  | 0 => fun body _ s => (s, some (.depth body))
  | room + 1 => fun _ => declarations room

theorem declarations_eq (room : Nat) (scope : List String) (s : ScopeState) :
    declarations room scope s =
      Guard.loop "declarations" ScopeState.position
        (ScopeState.round (typeBody room) (innerReader room) scope) s := by
  cases room <;> rw [declarations] <;> rfl

/-- Where a scope ends: at the brace that closes it or at the end of the file. -/
def ScopeEnd (stop : Tokens) : Prop :=
  ∃ t us, stop = t :: us ∧ (t.token = .mark .closeBrace ∨ t.token = .eof)

/-- Scopes are read when `room` bodies may be opened. -/
def ScopeReads (room : Nat) : Prop :=
  ∀ (scope : List String) (name : String) (pre ds : List DeclForm) (s : ScopeState) (stop : Tokens),
    declDepth ds ≤ room → ds.length < maxIterations → declsSmall ds = true → ScopeEnd stop →
    Covers s.cursor.source (declPieces ds) s.cursor.rest stop →
    s.ns.unplaced = spaceOf s.cursor.source.path scope name pre →
    ∃ final, declarations room scope s = (final, none) ∧ final.cursor = s.cursor.goto stop ∧
      final.ns.unplaced = spaceOf s.cursor.source.path scope name (pre ++ ds)

/-- One round has read a declaration: the scope holds it behind what it held before. -/
def ReadsDecl (scope : List String) (name : String) (pre : List DeclForm) (s : ScopeState)
    (d : DeclForm) (rest : Tokens) (round : Round ScopeState) : Prop :=
  ∃ next, round = .again next ∧ next.cursor = s.cursor.goto rest ∧
    next.ns.unplaced = spaceOf s.cursor.source.path scope name (pre ++ [d])

section Rounds
variable {room : Nat} {scope : List String} {label : String} {pre : List DeclForm} {s : ScopeState}

theorem finishDeclaration_semicolon {c : Cursor} {s : Span} (remains : rest ≠ []) :
    (c.goto (⟨.mark .semicolon, s⟩ :: rest)).finishDeclaration = c.goto rest := by
  simp [Cursor.finishDeclaration, Cursor.eat, Tokens.eat, remains]

/-- A round that adds what a declaration denotes has read it. -/
theorem readsDecl_of_grown {d : DeclForm} {round : Round ScopeState} (types : List TypeDecl)
    (enums : List EnumDecl) (aliases : List AliasDecl)
    (held : s.ns.unplaced = spaceOf s.cursor.source.path scope label pre) (plain : d.opened = [])
    (empty : ∀ n, d.partOf n = [])
    (again : round = .again ⟨s.ns.grown types enums aliases, s.cursor.goto rest⟩)
    (typed : types.map TypeDecl.unplaced = d.types ⟨s.cursor.source.path, scope, []⟩)
    (enumerated : enums.map EnumDecl.unplaced = d.enums ⟨s.cursor.source.path, scope, []⟩)
    (aliased : aliases.map AliasDecl.unplaced = d.aliases ⟨s.cursor.source.path, scope, []⟩) :
    ReadsDecl scope label pre s d rest round := by
  refine ⟨_, again, rfl, ?_⟩
  rw [Namespace.unplaced_grown, held, typed, enumerated, aliased, spaceOf_append pre plain empty]

theorem round_enumDecl {e : EnumForm}
    (covers : Covers s.cursor.source (DeclForm.enumeration e).pieces s.cursor.rest rest)
    (remains : rest ≠ []) (held : s.ns.unplaced = spaceOf s.cursor.source.path scope label pre)
    (body : BodyReader) (inner : ScopeReader) :
    ReadsDecl scope label pre s (.enumeration e) rest (s.round body inner scope) := by
  simp only [DeclForm.pieces] at covers
  obtain ⟨mid, declared, closing⟩ := covers_append.mp covers
  obtain ⟨s₁, us, rfl, same⟩ := covers_mark.mp closing
  obtain rfl := covers_nil.mp same
  obtain ⟨decl, read, denoted⟩ := enumeration_eq declared (by simp) scope [] s.cursor.source.path
  obtain ⟨s₂, vs, tokens, -⟩ := covers_word.mp declared
  have started : s.round body inner scope = .again (s.enumeration scope) := by
    simp [ScopeState.round, ScopeState.wordRound, Cursor.peek, tokens, RecordKey.ofWord?]
  have finished := finishDeclaration_semicolon (c := s.cursor) (s := s₁) remains
  refine readsDecl_of_grown [] [decl] [] held rfl (fun _ => rfl) (started.trans ?_) rfl
    (by simp [denoted, DeclForm.enums]) rfl
  simp [ScopeState.enumeration, read, finished, Namespace.grown]

theorem round_synonym {name : Name} {target : ScopedName}
    (covers : Covers s.cursor.source (DeclForm.synonym name target).pieces s.cursor.rest rest)
    (remains : rest ≠ []) (held : s.ns.unplaced = spaceOf s.cursor.source.path scope label pre)
    (body : BodyReader) (inner : ScopeReader) :
    ReadsDecl scope label pre s (.synonym name target) rest (s.round body inner scope) := by
  obtain ⟨decl, read, denoted⟩ := usingAlias_eq covers remains scope
  simp only [DeclForm.pieces] at covers
  obtain ⟨s₁, us, tokens, named⟩ := covers_word.mp covers
  obtain ⟨s₂, vs, rfl, -⟩ := covers_word.mp named
  have started : s.round body inner scope = .again (s.usingDirective scope) := by
    simp [ScopeState.round, ScopeState.wordRound, Cursor.peek, tokens, RecordKey.ofWord?]
  have aliased : s.cursor.rest.peekAt 1 ≠ .word "namespace" := by
    simpa [tokens] using name.ne (w := "namespace") (by decide)
  refine readsDecl_of_grown [] [] [decl] held rfl (fun _ => rfl) (started.trans ?_) rfl rfl
    (by simp [denoted, DeclForm.aliases])
  simp [ScopeState.usingDirective, aliased, read, ScopeState.addAliases, Namespace.grown]

theorem round_recordDecl {head : HeadForm} {members : List MemberForm}
    (covers : Covers s.cursor.source (DeclForm.record head members).pieces s.cursor.rest rest)
    (remains : rest ≠ []) (shallow : memberDepth members < room)
    (few : members.length < maxIterations) (small : membersSmall members = true)
    (held : s.ns.unplaced = spaceOf s.cursor.source.path scope label pre) (inner : ScopeReader) :
    ReadsDecl scope label pre s (.record head members) rest (s.round (typeBody room) inner scope) := by
  simp only [DeclForm.pieces] at covers
  obtain ⟨mid, defined, closing⟩ := covers_append.mp covers
  obtain ⟨s₁, us, rfl, same⟩ := covers_mark.mp closing
  obtain rfl := covers_nil.mp same
  obtain ⟨decl, read, named, isPublic, denoted⟩ :=
    record_definition (bodyReads room) defined (by simp) shallow few small scope []
  obtain ⟨s₂, vs, tokens, -⟩ := covers_word.mp defined
  have started : s.round (typeBody room) inner scope = s.record (typeBody room) scope false := by
    cases key : head.key <;>
      simp [ScopeState.round, ScopeState.wordRound, Cursor.peek, tokens, key, RecordKey.word,
        RecordKey.ofWord?]
  have isNamed : decl.name ≠ "" := named ▸ head.name.text_ne_empty
  have finished := finishDeclaration_semicolon (c := s.cursor) (s := s₁) remains
  have unplaced : decl.unplaced = recordDecl ⟨s.cursor.source.path, scope, []⟩ head members := by
    have same : { decl with visibility := .pub } = decl := by
      obtain ⟨⟩ := decl
      cases isPublic
      rfl
    exact same ▸ denoted .pub
  refine readsDecl_of_grown [decl] [] [] held rfl (fun _ => rfl) (started.trans ?_)
    (by simp [unplaced, DeclForm.types]) rfl rfl
  rw [ScopeState.record, read]
  simp [ScopeState.addTypes, isNamed, finished, Namespace.grown]

/-- A namespace is read into the child of its name, which may hold something already. -/
theorem round_space (scopes : ScopeReads room) {name : Name} {body : List DeclForm}
    (covers : Covers s.cursor.source (DeclForm.space name body).pieces s.cursor.rest rest)
    (remains : rest ≠ []) (shallow : declDepth body ≤ room) (few : body.length < maxIterations)
    (small : declsSmall body = true)
    (held : s.ns.unplaced = spaceOf s.cursor.source.path scope label pre) (types : BodyReader) :
    ReadsDecl scope label pre s (.space name body) rest (s.round types (innerReader (room + 1)) scope) := by
  simp only [DeclForm.pieces] at covers
  obtain ⟨s₁, us, tokens, named⟩ := covers_word.mp covers
  obtain ⟨s₂, vs, rfl, inner⟩ := covers_word.mp named
  obtain ⟨s₃, ws, rfl, listed⟩ := covers_mark.mp inner
  obtain ⟨mid, declared, closing⟩ := covers_append.mp listed
  obtain ⟨s₄, xs, rfl, same⟩ := covers_mark.mp closing
  obtain rfl := covers_nil.mp same
  have started : s.round types (innerReader (room + 1)) scope =
      s.openNamespace (innerReader (room + 1)) scope := by
    simp [ScopeState.round, ScopeState.wordRound, Cursor.peek, tokens]
  have entered : s.cursor.advance = s.cursor.goto (⟨.word name.text, s₂⟩ :: ⟨.mark .openBrace, s₃⟩ :: ws) := by
    simp [Cursor.advance, tokens]
  have noSpecifiers : (s.cursor.goto (⟨.word name.text, s₂⟩ :: ⟨.mark .openBrace, s₃⟩ :: ws)).attributeSpecifiers =
      ([], s.cursor.goto (⟨.word name.text, s₂⟩ :: ⟨.mark .openBrace, s₃⟩ :: ws)) :=
    attributeSpecifiers_none (by simp [Tokens.atAttributes]) (name.not_atSpecifier _ _)
  have noneBefore : (s.cursor.goto (⟨.mark .openBrace, s₃⟩ :: ws)).attributeSpecifiers =
      ([], s.cursor.goto (⟨.mark .openBrace, s₃⟩ :: ws)) :=
    attributeSpecifiers_none (by simp [Tokens.atAttributes])
      (by simp [Cursor.atSpecifier, Tokens.word?, Token.word?])
  have parts : Tokens.qualifiedName (⟨.word name.text, s₂⟩ :: ⟨.mark .openBrace, s₃⟩ :: ws) =
      ([name.text], ⟨.mark .openBrace, s₃⟩ :: ws) := qualifiedName_name name s₂ rfl
  have opened : (s.cursor.goto (⟨.mark .openBrace, s₃⟩ :: ws)).advance = s.cursor.goto ws := by
    simp [Cursor.advance, declared.ne_nil]
  have child : (s.ns.child name.text).unplaced =
      spaceOf s.cursor.source.path (scope ++ [name.text]) name.text (bodyOf name.text pre) := by
    rw [Namespace.unplaced_child, held, child_spaceOf]
  -- the body is read into the child, on top of what an earlier namespace of that name has left there
  obtain ⟨final, run, stopped, read⟩ := scopes (scope ++ [name.text]) name.text (bodyOf name.text pre)
    body ⟨s.ns.child name.text, s.cursor.goto ws⟩ _ shallow few small ⟨_, _, rfl, .inl rfl⟩ declared child
  have closed : final.cursor.eat .closeBrace = (true, s.cursor.goto xs) := by
    rw [stopped]
    simp [Cursor.eat, Tokens.eat, remains]
  refine ⟨⟨s.ns.putChild final.ns, s.cursor.goto xs⟩, ?_, rfl, ?_⟩
  · have inside : innerReader (room + 1) "namespace" (scope ++ [name.text])
        ⟨s.ns.child name.text, s.cursor.goto ws⟩ = (final, none) := run
    rw [started, ScopeState.openNamespace]
    simp [entered, noSpecifiers, parts, noneBefore, opened, Namespace.descend, Namespace.graft,
      inside, ScopeState.close, closed]
  · rw [Namespace.unplaced_putChild, held, read, spaceOf_append_space]
    rfl

theorem round_decl (scopes : ∀ r, room = r + 1 → ScopeReads r) {d : DeclForm}
    (covers : Covers s.cursor.source d.pieces s.cursor.rest rest) (remains : rest ≠ [])
    (shallow : d.depth ≤ room) (small : d.small = true)
    (held : s.ns.unplaced = spaceOf s.cursor.source.path scope label pre) :
    ReadsDecl scope label pre s d rest (s.round (typeBody room) (innerReader room) scope) := by
  cases d with
  | space name body =>
    simp only [DeclForm.small, Bool.and_eq_true, decide_eq_true_eq] at small
    obtain ⟨r, rfl⟩ : ∃ r, room = r + 1 := ⟨room - 1, by simp [DeclForm.depth] at shallow; omega⟩
    exact round_space (scopes r rfl) covers remains (Nat.le_of_succ_le_succ shallow) small.1 small.2
      held _
  | record head members =>
    simp only [DeclForm.small, Bool.and_eq_true, decide_eq_true_eq] at small
    exact round_recordDecl covers remains shallow small.1 small.2 held _
  | enumeration e => exact round_enumDecl covers remains held _ _
  | synonym name target => exact round_synonym covers remains held _ _

theorem declPieces_ne_nil (d : DeclForm) : d.pieces ≠ [] := by
  cases d <;> simp [DeclForm.pieces]

end Rounds

/-- The loop over a scope when `left` is still to come. -/
structure DeclsLeft (room : Nat) (scope : List String) (label : String) (c : Cursor) (stop : Tokens)
    (all left : List DeclForm) (s : ScopeState) : Prop where
  cursor : s.cursor = c.goto s.cursor.rest
  covers : Covers c.source (declPieces left) s.cursor.rest stop
  shallow : declDepth left ≤ room
  small : declsSmall left = true
  held : ∃ read, s.ns.unplaced = spaceOf c.source.path scope label read ∧ read ++ left = all

theorem DeclsLeft.again {room : Nat} (scopes : ∀ r, room = r + 1 → ScopeReads r)
    {scope : List String} {label : String} {c : Cursor} {stop : Tokens} (remains : stop ≠ [])
    {all left : List DeclForm} {d : DeclForm} {s : ScopeState}
    (before : DeclsLeft room scope label c stop all (d :: left) s) :
    ∃ next, s.round (typeBody room) (innerReader room) scope = .again next ∧
      next.position < s.position ∧ DeclsLeft room scope label c stop all left next := by
  obtain ⟨cursor, covers, shallow, small, read, held, whole⟩ := before
  obtain ⟨mid, first, others⟩ := covers_append.mp covers
  have source : s.cursor.source = c.source := by rw [cursor]; rfl
  simp only [declDepth, Nat.max_le] at shallow
  simp only [declsSmall, Bool.and_eq_true] at small
  obtain ⟨next, round, moved, holds⟩ := round_decl scopes (source.symm ▸ first)
    (others.ne_nil remains) shallow.1 small.1 (source.symm ▸ held)
  refine ⟨next, round, ?_, ?_, ?_, shallow.2, small.2, read ++ [d], source ▸ holds, ?_⟩
  · rw [ScopeState.position, moved]
    exact first.length_lt (declPieces_ne_nil d)
  · rw [moved, cursor]
    rfl
  · rw [moved]
    exact others
  · rw [List.append_assoc, List.singleton_append, whole]

theorem scopeReads (room : Nat) : ScopeReads room := by
  induction room using Nat.strongRecOn with
  | ind room ih =>
    intro scope label pre ds s stop shallow few small ends covers held
    have scopes : ∀ r, room = r + 1 → ScopeReads r := fun r same => ih r (by omega)
    obtain ⟨t, us, rfl, closes⟩ := ends
    have start : DeclsLeft room scope label s.cursor (t :: us) (pre ++ ds) ds s :=
      ⟨rfl, covers, shallow, small, pre, held, rfl⟩
    have stops {state : ScopeState}
        (ended : DeclsLeft room scope label s.cursor (t :: us) (pre ++ ds) [] state) :
        state.round (typeBody room) (innerReader room) scope = .done state := by
      rcases closes with brace | eof
      · simp [ScopeState.round, Cursor.peek, covers_nil.mp ended.covers, brace]
      · simp [ScopeState.round, Cursor.peek, covers_nil.mp ended.covers, eof]
    obtain ⟨final, run, ended⟩ :
        ∃ final, Guard.loop "declarations" ScopeState.position
            (ScopeState.round (typeBody room) (innerReader room) scope) s = (final, none) ∧
          DeclsLeft room scope label s.cursor (t :: us) (pre ++ ds) [] final :=
      Guard.loop_of_list _ (DeclsLeft.again scopes (by simp)) stops few start
    obtain ⟨read, holds, whole⟩ := ended.held
    refine ⟨final, (declarations_eq room scope s).trans run, ?_, ?_⟩
    · rw [ended.cursor, covers_nil.mp ended.covers]
    · rw [holds, ← whole, List.append_nil]

end Declarations

section Files

/-- Reading undoes printing: from the text of a forest comes the tree it denotes, places apart, and
nothing is reported. -/
theorem read_renderForest (path : Path) (l : Layout) (ds : List DeclForm)
    (shallow : declDepth ds ≤ maxDepth) (few : ds.length < maxIterations)
    (small : declsSmall ds = true) :
    (Header.read ⟨path, renderForest l ds⟩).root.unplaced = denoteForest path ds ∧
      (Header.read ⟨path, renderForest l ds⟩).diagnostics = [] := by
  obtain ⟨ts, span, lexed, covers⟩ := lexing_render path l (declPieces ds)
  let source : Source := ⟨path, renderForest l ds⟩
  have empty : (⟨{}, ⟨source, ts, []⟩⟩ : ScopeState).ns.unplaced = spaceOf path [] "" [] := by
    rw [spaceOf_nil]
    simp [Namespace.unplaced, Namespace.unplacedAll]
  obtain ⟨final, run, stopped, holds⟩ := scopeReads maxDepth [] "" [] ds ⟨{}, ⟨source, ts, []⟩⟩ _ shallow
    few small ⟨_, _, rfl, .inr rfl⟩ covers empty
  have file : fileRound ⟨{}, ⟨source, ts, []⟩⟩ = .done final := by
    rw [fileRound, run]
    simp [Cursor.peek, stopped]
  have looped := Guard.loop_of_done "file" ScopeState.position file
  have lexedSource : Lexing.ofText source.text = ⟨ts, [], []⟩ := lexed
  have read : Header.read source = ⟨final.ns, [], []⟩ := by
    rw [Header.read]
    simp only [lexedSource, List.map_nil, looped, stopped]
    rfl
  rw [read]
  exact ⟨holds, rfl⟩

theorem read_renderForest_reopened :
    let point : DeclForm :=
      .record ⟨.cls, [⟨⟨[], ⟨"reflect", by decide, by decide⟩⟩, some ⟨[1, -2], {}⟩⟩],
          ⟨"Point", by decide, by decide⟩, [⟨none, ⟨[⟨"core", by decide, by decide⟩], ⟨"Shape", by decide, by decide⟩⟩⟩]⟩
        [.access .pub,
          .fields [] ⟨[], ⟨"real", by decide, by decide⟩⟩ (.plain ⟨"x", by decide, by decide⟩)
            [.pointer ⟨"next", by decide, by decide⟩, .bitfield ⟨"flags", by decide, by decide⟩ 3]]
    let ds : List DeclForm :=
      [.space ⟨"geo", by decide, by decide⟩ [point],
        .space ⟨"geo", by decide, by decide⟩
          [.synonym ⟨"Pt", by decide, by decide⟩ ⟨[], ⟨"Point", by decide, by decide⟩⟩]]
    declDepth ds ≤ maxDepth ∧ ds.length < maxIterations ∧ declsSmall ds = true ∧
      (Header.read ⟨⟨"geo.hpp"⟩, renderForest {} ds⟩).root.unplaced = denoteForest ⟨"geo.hpp"⟩ ds ∧
      (Header.read ⟨⟨"geo.hpp"⟩, renderForest {} ds⟩).diagnostics = [] := by
  intro point ds
  have shallow : declDepth ds ≤ maxDepth := by decide
  have few : ds.length < maxIterations := by decide
  have small : declsSmall ds = true := by decide
  exact ⟨shallow, few, small, read_renderForest ⟨"geo.hpp"⟩ {} ds shallow few small⟩

end Files

end Grammar

end HeaderMeta
