import HeaderMeta.Proofs.Grammar.Fields

/-! Reading record definitions.

One round of the member loop reads one member (`round_member`); the loop reads them all, and by
induction on the room left, records inside records too (`typeBody_eq`).
-/

set_option autoImplicit false

namespace HeaderMeta

namespace Guard
variable {σ α : Type} {name : String} {position : σ → Nat} {step : σ → Round σ}
  (Left : List α → σ → Prop)

/-- A loop that takes an entry off a list in each round ends with the list. -/
theorem loopFrom_of_list
    (again : ∀ {x xs s}, Left (x :: xs) s →
      ∃ next, step s = .again next ∧ position next < position s ∧ Left xs next)
    (done : ∀ {s}, Left [] s → step s = .done s) {xs : List α} {s : σ} {left : Nat}
    {last : Option Nat} (room : xs.length < left) (moved : ∀ p ∈ last, position s < p)
    (start : Left xs s) :
    ∃ final, loopFrom name position step left last s = (final, none) ∧ Left [] final := by
  induction xs generalizing s left last with
  | nil =>
    obtain ⟨left, rfl⟩ : ∃ n, left = n + 1 := ⟨left - 1, by simp at room; omega⟩
    have fresh : last ≠ some (position s) := fun same => Nat.lt_irrefl _ (moved _ same)
    exact ⟨s, by simp [loopFrom, fresh, done start], start⟩
  | cons x xs ih =>
    obtain ⟨left, rfl⟩ : ∃ n, left = n + 1 := ⟨left - 1, by simp at room; omega⟩
    have fresh : last ≠ some (position s) := fun same => Nat.lt_irrefl _ (moved _ same)
    obtain ⟨next, stepped, nearer, rest⟩ := again start
    obtain ⟨final, run, ended⟩ := @ih next left (some (position s)) (by simpa using room)
      (by simpa using nearer) rest
    exact ⟨final, by simp [loopFrom, fresh, stepped, run], ended⟩

theorem loop_of_list
    (again : ∀ {x xs s}, Left (x :: xs) s →
      ∃ next, step s = .again next ∧ position next < position s ∧ Left xs next)
    (done : ∀ {s}, Left [] s → step s = .done s) {xs : List α} {s : σ}
    (few : xs.length < maxIterations) (start : Left xs s) :
    ∃ final, loop name position step s = (final, none) ∧ Left [] final :=
  loopFrom_of_list Left again done few (by simp) start

theorem loop_of_done (name : String) (position : σ → Nat) {s final : σ}
    (done : step s = .done final) :
    loop name position step s = (final, none) := by
  obtain ⟨n, rounds⟩ : ∃ n, maxIterations = n + 1 := ⟨999999, rfl⟩
  rw [loop, rounds, loopFrom]
  simp [done]

end Guard

namespace Grammar

variable {source : Source} {ts rest : Tokens}

theorem Covers.length_le {ps : List Piece} (covers : Covers source ps ts rest) :
    rest.length ≤ ts.length := by
  induction covers with
  | nil => exact Nat.le_refl _
  | cons _ _ ih =>
    rw [List.length_append]
    omega

theorem Covers.length_lt {ps : List Piece} (covers : Covers source ps ts rest) (some : ps ≠ []) :
    rest.length < ts.length := by
  cases covers with
  | nil => exact absurd rfl some
  | cons first more =>
    have := more.length_le
    cases first <;> simp only [List.length_append, List.length_cons] <;> omega

section Heads

structure IsHead (h : HeadForm) (site : Site) (decl : TypeDecl) : Prop where
  name : decl.name = h.name.text
  site : (⟨decl.path, decl.namespaces, decl.enclosing⟩ : Site) = site
  key : decl.key = h.key
  attributes : decl.attributes.map Attribute.unplaced = h.attributes.map AttributeForm.denote
  bases : decl.bases = h.bases.map (BaseForm.denote h.key)
  isTemplate : decl.isTemplate = false
  visibility : decl.visibility = .pub
  fields : decl.fields = []
  nested : decl.nested = []
  enums : decl.enums = []
  aliases : decl.aliases = []

theorem not_atDecorator {m : Mark} {name : String} {s₁ s₂ : Span}
    (either : m = .colon ∨ m = .openBrace) :
    Cursor.atDecorator (⟨.word name, s₁⟩ :: ⟨.mark m, s₂⟩ :: ts) = false := by
  rcases either with rfl | rfl <;> simp [Cursor.atDecorator]

theorem decorators_none {c : Cursor} (none : Cursor.atDecorator c.rest = false) :
    c.decorators = ([], c) := by
  rw [Cursor.decorators]
  simp [none]

/-- What is written between the key of a record and its bases or body. -/
theorem recordHead_eq {c : Cursor} {as : List AttributeForm} {name : Name} {m : Mark} {s : Span}
    (covers : Covers c.source (attributePieces as ++ [name.piece]) c.rest (⟨.mark m, s⟩ :: rest))
    (either : m = .colon ∨ m = .openBrace) :
    ∃ attributes span, c.recordHead false =
        (⟨name.text, attributes, false, span⟩, c.goto (⟨.mark m, s⟩ :: rest)) ∧
      attributes.map Attribute.unplaced = as.map AttributeForm.denote := by
  obtain ⟨mid, attributed, named⟩ := covers_append.mp covers
  obtain ⟨s₁, us, rfl, same⟩ := covers_word.mp named
  obtain rfl := covers_nil.mp same
  obtain ⟨read, specifiers, denoted⟩ := attributeSpecifiers_eq attributed (by simp)
    (by simp [Tokens.atAttributes]) (name.not_atSpecifier _ _)
  have plain := decorators_none (c := c.goto (⟨.word name.text, s₁⟩ :: ⟨.mark m, s⟩ :: rest))
    (not_atDecorator either)
  have parts : Tokens.qualifiedName (⟨.word name.text, s₁⟩ :: ⟨.mark m, s⟩ :: rest) =
      ([name.text], ⟨.mark m, s⟩ :: rest) :=
    qualifiedName_name name s₁ (by rcases either with rfl | rfl <;> rfl)
  refine ⟨read, s₁, ?_, denoted⟩
  rcases either with rfl | rfl <;>
    simp [Cursor.recordHead, specifiers, plain, parts, Tokens.atWord, Cursor.here]

theorem ofWord?_word (k : RecordKey) : RecordKey.ofWord? k.word = some k := by
  cases k <;> rfl

theorem record_eq {c : Cursor} {h : HeadForm} {s : Span}
    (covers : Covers c.source h.pieces c.rest (⟨.mark .openBrace, s⟩ :: rest)) (body : BodyReader)
    (namespaces enclosing : List String) :
    ∃ decl start, c.record body namespaces enclosing false =
        Cursor.recordBody body start decl (c.goto (⟨.mark .openBrace, s⟩ :: rest)) ∧
      IsHead h ⟨c.source.path, namespaces, enclosing⟩ decl := by
  obtain ⟨key, as, name, bases⟩ := h
  obtain ⟨s₁, us, tokens, inner⟩ := covers_word.mp covers
  have keyed : c.rest.word?.bind RecordKey.ofWord? = some key := by
    rw [tokens]
    exact ofWord?_word key
  have entered : c.advance = c.goto us := by
    simp [Cursor.advance, tokens, inner.ne_nil]
  cases bases with
  | nil =>
    obtain ⟨read, span, head, denoted⟩ := recordHead_eq (c := c.goto us) inner (.inr rfl)
    refine ⟨{ name := name.text, namespaces, enclosing, key, path := c.source.path, span
              attributes := read },
      c.here, ?_, ⟨rfl, rfl, rfl, denoted, rfl, rfl, rfl, rfl, rfl, rfl, rfl⟩⟩
    simp [Cursor.record, keyed, entered, head, Cursor.peek, name.text_ne_empty]
  | cons b bs =>
    -- the clause of the bases is cut off the head
    have split : Covers c.source ((attributePieces as ++ [name.piece]) ++
        .mark .colon :: separated ((b :: bs).map BaseForm.pieces)) us
          (⟨.mark .openBrace, s⟩ :: rest) := by
      simpa [basePieces] using inner
    obtain ⟨mid, headed, based⟩ := covers_append.mp split
    obtain ⟨s₂, vs, rfl, listed⟩ := covers_mark.mp based
    obtain ⟨read, span, head, denoted⟩ := recordHead_eq (c := c.goto us) headed (.inl rfl)
    have all := readAll_eq listed key
    have past : Tokens.advance (⟨.mark .colon, s₂⟩ :: vs) = vs :=
      Tokens.advance_cons (listed.ne_nil (by simp))
    refine ⟨{ name := name.text, namespaces, enclosing, key, path := c.source.path, span
              attributes := read, bases := (b :: bs).map (BaseForm.denote key) },
      c.here, ?_, ⟨rfl, rfl, rfl, denoted, rfl, rfl, rfl, rfl, rfl, rfl, rfl⟩⟩
    simp [Cursor.record, keyed, entered, head, Cursor.peek, past, all, name.text_ne_empty]

end Heads

section Members

/-- A record with more fields, nested records and enumerations, given without their places. -/
def Gains (decl after : TypeDecl) (fields : List Field) (nested : List TypeDecl)
    (enums : List EnumDecl) : Prop :=
  ∃ fs ns es,
    after = { decl with
      fields := decl.fields ++ fs, nested := decl.nested ++ ns, enums := decl.enums ++ es } ∧
    fs.map Field.unplaced = fields ∧ ns.map TypeDecl.unplaced = nested ∧
    es.map EnumDecl.unplaced = enums

theorem Gains.refl (decl : TypeDecl) : Gains decl decl [] [] [] := by
  obtain ⟨⟩ := decl
  exact ⟨[], [], [], by simp, rfl, rfl, rfl⟩

theorem Gains.trans {decl middle after : TypeDecl} {fields fields' : List Field}
    {nested nested' : List TypeDecl} {enums enums' : List EnumDecl}
    (first : Gains decl middle fields nested enums) (second : Gains middle after fields' nested' enums') :
    Gains decl after (fields ++ fields') (nested ++ nested') (enums ++ enums') := by
  obtain ⟨fs, ns, es, rfl, rfl, rfl, rfl⟩ := first
  obtain ⟨fs', ns', es', rfl, rfl, rfl, rfl⟩ := second
  exact ⟨fs ++ fs', ns ++ ns', es ++ es', by simp, by simp, by simp, by simp⟩

theorem unplacedAll_eq_map (types : List TypeDecl) :
    TypeDecl.unplacedAll types = types.map TypeDecl.unplaced := by
  induction types with
  | nil => rfl
  | cons type types ih => rw [TypeDecl.unplacedAll, ih, List.map_cons]

def memberSite (path : Path) (decl : TypeDecl) : Site :=
  ⟨path, decl.namespaces, decl.innerEnclosing⟩

/-- A record that has gained its members is the one denoted. -/
theorem IsHead.unplaced_of_gains {h : HeadForm} {site : Site} {decl after : TypeDecl}
    (head : IsHead h site decl) {members : List MemberForm} {nested : List TypeDecl}
    (gains : Gains decl after (fieldsIn h.key.defaultVisibility members) nested
      (enumsIn (site.inside h.name.text) members)) (access : Visibility) :
    TypeDecl.unplaced { after with visibility := access } = h.denote site access members nested := by
  obtain ⟨fs, ns, es, rfl, fields, rfl, enums⟩ := gains
  obtain ⟨⟩ := decl
  obtain ⟨rfl, rfl, rfl, attributes, rfl, rfl, rfl, rfl, rfl, rfl, rfl⟩ := head
  simp_all [TypeDecl.unplaced, HeadForm.denote, unplacedAll_eq_map]

/-- Member lists are read when `room` bodies may be opened. -/
def BodyReads (room : Nat) : Prop :=
  ∀ (decl : TypeDecl) (c : Cursor) {members : List MemberForm} {s : Span} {rest : Tokens},
    memberDepth members < room → members.length < maxIterations → membersSmall members = true →
    Covers c.source (memberPieces members) c.rest (⟨.mark .closeBrace, s⟩ :: rest) →
    ∃ after, typeBody room decl c = ((after, c.goto (⟨.mark .closeBrace, s⟩ :: rest)), none) ∧
      Gains decl after (fieldsIn decl.key.defaultVisibility members)
        (nestedIn (memberSite c.source.path decl) decl.key.defaultVisibility members)
        (enumsIn (memberSite c.source.path decl) members)

/-- A record definition is read up to the semicolon. -/
theorem record_definition {room : Nat} (bodies : BodyReads room) {c : Cursor} {h : HeadForm}
    {members : List MemberForm}
    (covers : Covers c.source (h.pieces ++ braced (memberPieces members)) c.rest rest)
    (remains : rest ≠ []) (shallow : memberDepth members < room)
    (few : members.length < maxIterations) (small : membersSmall members = true)
    (namespaces enclosing : List String) :
    ∃ decl, c.record (typeBody room) namespaces enclosing false =
        (.ok (.definition decl), c.goto rest) ∧
      decl.name = h.name.text ∧ decl.visibility = .pub ∧
      ∀ access, TypeDecl.unplaced { decl with visibility := access } =
        let site : Site := ⟨c.source.path, namespaces, enclosing⟩
        h.denote site access members
          (nestedIn (site.inside h.name.text) h.key.defaultVisibility members) := by
  obtain ⟨mid, headed, body⟩ := covers_append.mp covers
  obtain ⟨s, us, rfl, inner⟩ := covers_mark.mp body
  obtain ⟨_, listed, closing⟩ := covers_append.mp inner
  obtain ⟨s', vs, rfl, same⟩ := covers_mark.mp closing
  obtain rfl := covers_nil.mp same
  obtain ⟨decl, start, record, head⟩ := record_eq headed (typeBody room) namespaces enclosing
  have entered : (c.goto (⟨.mark .openBrace, s⟩ :: us)).advance = c.goto us := by
    simp [Cursor.advance, listed.ne_nil]
  obtain ⟨after, read, gains⟩ := bodies decl (c.goto us) shallow few small listed
  -- the members are read at the place inside the record
  have site : memberSite c.source.path decl =
      Site.inside ⟨c.source.path, namespaces, enclosing⟩ h.name.text := by
    obtain ⟨-, sameNamespaces, sameEnclosing⟩ := Site.mk.inj head.site
    simp [memberSite, Site.inside, TypeDecl.innerEnclosing, sameNamespaces, sameEnclosing, head.name]
  rw [Cursor.source_goto, site, head.key] at gains
  have closed : (c.goto (⟨.mark .closeBrace, s'⟩ :: vs)).eat .closeBrace = (true, c.goto vs) := by
    simp [Cursor.eat, Tokens.eat, remains]
  refine ⟨after, ?_, ?_, ?_, fun access => head.unplaced_of_gains gains access⟩
  · rw [record, Cursor.recordBody, entered, read]
    simp only [Cursor.goto_goto, closed]
  · obtain ⟨_, _, _, rfl, -⟩ := gains
    exact head.name
  · obtain ⟨_, _, _, rfl, -⟩ := gains
    exact head.visibility

theorem Name.ofWord?_key (n : Name) : RecordKey.ofWord? n.text = none := by
  simp [RecordKey.ofWord?, n.ne (w := "struct") (by decide), n.ne (w := "class") (by decide),
    n.ne (w := "union") (by decide)]

section Rounds
variable {room : Nat} {s : MemberState}

def ReadsMember (s : MemberState) (m : MemberForm) (rest : Tokens) (round : Round MemberState) : Prop :=
  ∃ next, round = .again next ∧ next.cursor = s.cursor.goto rest ∧
    next.access = m.accessAfter s.access ∧
    Gains s.record next.record (m.declared s.access)
      (m.nested (memberSite s.cursor.source.path s.record) s.access)
      (m.enums (memberSite s.cursor.source.path s.record))

theorem round_access {v : Visibility}
    (covers : Covers s.cursor.source (MemberForm.access v).pieces s.cursor.rest rest)
    (remains : rest ≠ []) (body : BodyReader) :
    ReadsMember s (.access v) rest (s.round body) := by
  simp only [MemberForm.pieces] at covers
  obtain ⟨s₁, us, tokens, inner⟩ := covers_word.mp covers
  obtain ⟨s₂, vs, rfl, same⟩ := covers_mark.mp inner
  obtain rfl := covers_nil.mp same
  refine ⟨{ s with access := v, cursor := s.cursor.goto vs }, ?_, rfl, rfl, Gains.refl s.record⟩
  simp [MemberState.round, MemberState.wordRound, Cursor.peek, Cursor.advance, tokens, ofWord?_name,
    remains]

theorem round_enumeration {e : EnumForm}
    (covers : Covers s.cursor.source (MemberForm.enumeration e).pieces s.cursor.rest rest)
    (remains : rest ≠ []) (body : BodyReader) :
    ReadsMember s (.enumeration e) rest (s.round body) := by
  simp only [MemberForm.pieces] at covers
  obtain ⟨mid, declared, closing⟩ := covers_append.mp covers
  obtain ⟨s₁, us, rfl, same⟩ := covers_mark.mp closing
  obtain rfl := covers_nil.mp same
  obtain ⟨decl, read, denoted⟩ := enumeration_eq declared (by simp) s.record.namespaces
    s.record.innerEnclosing s.cursor.source.path
  obtain ⟨s₂, vs, tokens, -⟩ := covers_word.mp declared
  have closed : (s.cursor.goto (⟨.mark .semicolon, s₁⟩ :: us)).eat .semicolon =
      (true, s.cursor.goto us) := by
    simp [Cursor.eat, Tokens.eat, remains]
  have started : s.round body = .again s.nestedEnum := by
    simp [MemberState.round, MemberState.wordRound, Cursor.peek, tokens, Visibility.ofWord?,
      RecordKey.ofWord?]
  refine ⟨_, started, ?_, ?_, ?_⟩
  · simp [MemberState.nestedEnum, read, closed]
  · simp [MemberState.nestedEnum, read, closed, MemberForm.accessAfter]
  · refine ⟨[], [], [decl], ?_, rfl, rfl, ?_⟩
    · simp [MemberState.nestedEnum, read, closed]
    · simp [MemberForm.enums, denoted, memberSite]

theorem takeDefinition_named {decl : TypeDecl} {c : Cursor} (named : decl.name ≠ "")
    (closed : s.cursor.eat .semicolon = (true, c)) :
    s.takeDefinition decl = { s with cursor := c }.addNested decl := by
  unfold MemberState.takeDefinition
  rw [closed]
  split <;> simp_all

theorem round_record (bodies : BodyReads room) {head : HeadForm} {members : List MemberForm}
    (covers : Covers s.cursor.source (MemberForm.record head members).pieces s.cursor.rest rest)
    (remains : rest ≠ []) (shallow : memberDepth members < room)
    (few : members.length < maxIterations) (small : membersSmall members = true) :
    ReadsMember s (.record head members) rest (s.round (typeBody room)) := by
  simp only [MemberForm.pieces] at covers
  obtain ⟨mid, defined, closing⟩ := covers_append.mp covers
  obtain ⟨s₁, us, rfl, same⟩ := covers_mark.mp closing
  obtain rfl := covers_nil.mp same
  obtain ⟨decl, read, named, -, denoted⟩ := record_definition bodies defined (by simp) shallow few small
    s.record.namespaces s.record.innerEnclosing
  obtain ⟨s₂, vs, tokens, -⟩ := covers_word.mp defined
  have started : s.round (typeBody room) = s.nestedRecord (typeBody room) false := by
    cases key : head.key <;>
      simp [MemberState.round, MemberState.wordRound, Cursor.peek, tokens, key, RecordKey.word,
        Visibility.ofWord?, RecordKey.ofWord?]
  have closed : (s.cursor.goto (⟨.mark .semicolon, s₁⟩ :: us)).eat .semicolon =
      (true, s.cursor.goto us) := by
    simp [Cursor.eat, Tokens.eat, remains]
  have taken := takeDefinition_named (s := { s with cursor := s.cursor.goto (⟨.mark .semicolon, s₁⟩ :: us) })
    (named ▸ head.name.text_ne_empty) closed
  refine ⟨{ s with cursor := s.cursor.goto us }.addNested decl, ?_, rfl, rfl, [],
    [{ decl with visibility := s.access }], [], ?_, rfl, ?_, rfl⟩
  · rw [started, MemberState.nestedRecord, read]
    exact congrArg Round.again taken
  · simp [MemberState.addNested]
  · simp [denoted, MemberForm.nested, memberSite]

/-- A member that starts with a plain name, no parameter list following, may be a field. -/
theorem round_name {name : Name} {span : Span} {us : Tokens}
    (tokens : s.cursor.rest = ⟨.word name.text, span⟩ :: us) (noParen : us.peek ≠ .mark .openParen)
    (body : BodyReader) : s.round body = .again s.member := by
  have notStart : name.text ∉ MemberState.nonFieldStarts := by simpa using name.not_nonFieldStart
  have next : us.peekAt 0 ≠ .mark .openParen := noParen
  simp [MemberState.round, MemberState.wordRound, Cursor.peek, tokens, name.ofWord?_visibility,
    name.ofWord?_key, notStart, next, name.ne (w := "template") (by decide),
    name.ne (w := "enum") (by decide), name.ne (w := "typedef") (by decide),
    name.ne (w := "using") (by decide)]

theorem round_fields {as : List AttributeForm} {type : ScopedName} {first : DeclaratorForm}
    {more : List DeclaratorForm}
    (covers : Covers s.cursor.source (MemberForm.fields as type first more).pieces s.cursor.rest rest)
    (body : BodyReader) :
    ReadsMember s (.fields as type first more) rest (s.round body) := by
  obtain ⟨fields, read, denoted⟩ := member_fields covers
  have started : s.round body = .again s.member := by
    simp only [MemberForm.pieces, List.append_assoc] at covers
    obtain ⟨mid, attributed, statement⟩ := covers_append.mp covers
    cases as with
    | nil =>
      obtain rfl := covers_nil.mp attributed
      obtain ⟨name, span, us, tokens, noParen⟩ := fieldPieces_head statement
      exact round_name tokens noParen body
    | cons a as =>
      obtain ⟨s₁, s₂, us, tokens, -⟩ := covers_openList.mp attributed
      simp [MemberState.round, Cursor.peek, tokens, Tokens.atAttributes]
  refine ⟨_, started, ?_, ?_, fields, [], [], ?_, denoted, rfl, rfl⟩
  · rw [read]; rfl
  · rw [read]; rfl
  · simp [read, withFields, MemberState.goto]

theorem round_member (bodies : BodyReads room) {m : MemberForm}
    (covers : Covers s.cursor.source m.pieces s.cursor.rest rest) (remains : rest ≠ [])
    (shallow : m.depth ≤ room) (small : m.small = true) :
    ReadsMember s m rest (s.round (typeBody room)) := by
  cases m with
  | access v => exact round_access covers remains _
  | record head members =>
    simp only [MemberForm.small, Bool.and_eq_true, decide_eq_true_eq] at small
    exact round_record bodies covers remains shallow small.1 small.2
  | enumeration e => exact round_enumeration covers remains _
  | fields as type first more => exact round_fields covers _

theorem pieces_ne_nil (m : MemberForm) : m.pieces ≠ [] := by
  cases m <;> simp [MemberForm.pieces]

end Rounds

theorem Gains.memberSite_eq {decl after : TypeDecl} {fields : List Field} {nested : List TypeDecl}
    {enums : List EnumDecl} (gains : Gains decl after fields nested enums) (path : Path) :
    memberSite path after = memberSite path decl := by
  obtain ⟨_, _, _, rfl, -⟩ := gains
  rfl

/-- The member loop when `left` is still to come: what was read and what is left is the whole. -/
structure MembersLeft (room : Nat) (decl : TypeDecl) (c : Cursor) (stop : Tokens)
    (members left : List MemberForm) (s : MemberState) : Prop where
  cursor : s.cursor = c.goto s.cursor.rest
  covers : Covers c.source (memberPieces left) s.cursor.rest stop
  shallow : memberDepth left ≤ room
  small : membersSmall left = true
  gains : ∃ fields nested enums, Gains decl s.record fields nested enums ∧
    fields ++ fieldsIn s.access left = fieldsIn decl.key.defaultVisibility members ∧
    nested ++ nestedIn (memberSite c.source.path decl) s.access left =
      nestedIn (memberSite c.source.path decl) decl.key.defaultVisibility members ∧
    enums ++ enumsIn (memberSite c.source.path decl) left =
      enumsIn (memberSite c.source.path decl) members

theorem MembersLeft.again {room : Nat} (bodies : BodyReads room) {decl : TypeDecl} {c : Cursor}
    {stop : Tokens} (remains : stop ≠ []) {members left : List MemberForm} {m : MemberForm}
    {s : MemberState} (before : MembersLeft room decl c stop members (m :: left) s) :
    ∃ next, s.round (typeBody room) = .again next ∧
      next.cursor.rest.length < s.cursor.rest.length ∧
      MembersLeft room decl c stop members left next := by
  obtain ⟨cursor, covers, shallow, small, fields, nested, enums, gains, allFields, allNested, allEnums⟩ :=
    before
  obtain ⟨mid, first, others⟩ := covers_append.mp covers
  have source : s.cursor.source = c.source := by rw [cursor]; rfl
  simp only [memberDepth, Nat.max_le] at shallow
  simp only [membersSmall, Bool.and_eq_true] at small
  obtain ⟨next, round, moved, access, gained⟩ := round_member bodies (source.symm ▸ first)
    (others.ne_nil remains) shallow.1 small.1
  refine ⟨next, round, ?_, ?_, ?_, shallow.2, small.2, _, _, _, gains.trans gained, ?_, ?_, ?_⟩
  · rw [moved]
    exact first.length_lt (pieces_ne_nil m)
  · rw [moved, cursor]
    rfl
  · rw [moved]
    exact others
  · rw [← allFields, access]
    simp [fieldsIn]
  · rw [← allNested, access, source, gains.memberSite_eq]
    simp [nestedIn]
  · rw [← allEnums, source, gains.memberSite_eq]
    simp [enumsIn]

theorem bodyReads_succ {room : Nat} (bodies : BodyReads room) : BodyReads (room + 1) := by
  intro decl c members s rest shallow few small covers
  have start : MembersLeft room decl c (⟨.mark .closeBrace, s⟩ :: rest) members members
      ⟨decl, decl.key.defaultVisibility, c⟩ :=
    ⟨rfl, covers, Nat.le_of_lt_succ shallow, small, [], [], [], .refl decl, rfl, rfl, rfl⟩
  have stops {state : MemberState}
      (ended : MembersLeft room decl c (⟨.mark .closeBrace, s⟩ :: rest) members [] state) :
      state.round (typeBody room) = .done state := by
    simp [MemberState.round, Cursor.peek, covers_nil.mp ended.covers]
  obtain ⟨final, run, ended⟩ :
      ∃ final, Guard.loop "member list" (fun s : MemberState => s.cursor.rest.length)
          (MemberState.round (typeBody room)) ⟨decl, decl.key.defaultVisibility, c⟩ = (final, none) ∧
        MembersLeft room decl c (⟨.mark .closeBrace, s⟩ :: rest) members [] final :=
    Guard.loop_of_list _ (MembersLeft.again bodies (by simp)) stops few start
  obtain ⟨fields, nested, enums, gains, allFields, allNested, allEnums⟩ := ended.gains
  refine ⟨final.record, ?_, ?_⟩
  · have stopped : final.cursor = c.goto (⟨.mark .closeBrace, s⟩ :: rest) := by
      rw [ended.cursor, covers_nil.mp ended.covers]
    simp only [typeBody, run, stopped]
  · simp only [fieldsIn, nestedIn, enumsIn, List.flatMap_nil, List.append_nil] at allFields allNested allEnums
    rwa [allFields, allNested, allEnums] at gains

theorem bodyReads (room : Nat) : BodyReads room := by
  induction room with
  | zero =>
    intro decl c members s rest shallow
    exact absurd shallow (Nat.not_lt_zero _)
  | succ room ih => exact bodyReads_succ ih

end Members

end Grammar

end HeaderMeta
