import HeaderMeta.Proofs.Positions.Records

/-! Member lists read by positions. -/

set_option autoImplicit false

namespace HeaderMeta

namespace Round
variable {σ τ : Type}

def map (f : σ → τ) : Round σ → Round τ
  | again state => again (f state)
  | done state => done (f state)
  | refused state limit => refused (f state) limit

def state : Round σ → σ
  | again state | done state | refused state _ => state

end Round

structure Members where
  record : TypeDecl
  access : Visibility

namespace Members

def addField (m : Members) (field : Field) : Members :=
  { m with record := { m.record with fields := m.record.fields ++ [field] } }

def hoist (m : Members) (fields : List Field) : Members :=
  fields.foldl
    (fun m f => m.addField { f with visibility := if m.access = .pub then f.visibility else m.access })
    m

def addNested (m : Members) (decl : TypeDecl) : Members :=
  { m with
    record := { m.record with nested := m.record.nested ++ [{ decl with visibility := m.access }] } }

end Members

namespace MemberState

def members (s : MemberState) : Members :=
  ⟨s.record, s.access⟩

def keywordRound (body : BodyReader) (word : String) (s : MemberState) : Round MemberState :=
  if (RecordKey.ofWord? word).isSome then s.nestedRecord body false
  else if word = "template" then s.nestedTemplate body
  else if word = "enum" then .again s.nestedEnum
  else if word = "typedef" then s.nestedTypedef body
  else if word = "using" then .again s.nestedAlias
  else if nonFieldStarts.contains word then .again s.skip
  else if word = s.record.name && s.cursor.rest.peekAt 1 == .mark .openParen then .again s.skip
  else .again s.member

theorem wordRound_eq (body : BodyReader) (word : String) (s : MemberState) :
    s.wordRound body word =
      match Visibility.ofWord? word, s.cursor.rest.peekAt 1 with
      | some access, .mark .colon => .again { s with access, cursor := s.cursor.advance.advance }
      | _, _ => s.keywordRound body word := rfl

end MemberState

namespace TokenFile

section Walks
variable (file : TokenFile)

def loopFrom {σ : Type} (name : String) (step : σ → Walk (Round σ)) :
    (left : Nat) → (last : Option Nat) → σ → Walk (σ × Option Limit)
  | 0, _, s => return (s, some (.iterations name maxIterations))
  | left + 1, last, s => do
    let pos ← file.place
    if last = some pos then return (s, some (.stalled name))
    else
      match ← step s with
      | .again next => loopFrom name step left (some pos) next
      | .done final => return (final, none)
      | .refused final limit => return (final, some limit)

def loop {σ : Type} (name : String) (step : σ → Walk (Round σ)) (s : σ) : Walk (σ × Option Limit) :=
  file.loopFrom name step maxIterations none s

/-- Walk over a body with the depth counter one up. It is taken down again in any case. -/
def nested {α : Type} (body : String) (unread : α) (walk : Walk (α × Option Limit)) :
    Walk (α × Option Limit) := do
  match ← enter body with
  | some limit => return (unread, some limit)
  | none => do
    let outcome ← walk
    leave
    return outcome

def again {σ : Type} (walk : Walk σ) : Walk (Round σ) := do
  return .again (← walk)

def skipMember (m : Members) : Walk Members := do
  file.skipDeclaration
  return m

def addParts (attributes : List Attribute) (start : Span) (type? : Option String) :
    (first : Bool) → List DeclaratorPart → Members → Walk Members
  | _, [], m => return m
  | first, part :: parts, m => do
    match ← part.tokens.declarator? part.bitfield with
    | none => do
      let span := (part.tokens.head?.map Placed.span).getD start
      file.warn ("Unrecognized member declaration in '" ++ m.record.name ++ "'") span
      addParts attributes start type? false parts m
    | some (type, d) =>
      if first && spell type = "" then do
        file.warn ("Member '" ++ d.name ++ "' has no type") d.span
        return m
      else
        let type? := if first then some (spell type) else type?
        match type? with
        | none => addParts attributes start none false parts m
        | some spelling =>
          addParts attributes start type? false parts
            (m.addField
              { name := d.name, type := { spelling, kind := d.kind }, visibility := m.access
                attributes, span := d.span })

/-- Whether what stands here is no field. -/
def atNoField : Walk Bool := do
  let next ← file.look 0
  if next.word?.any MemberState.nonFieldStarts.contains || next == .mark .tilde then return true
  else file.declaresFunction

def member (m : Members) : Walk Members := do
  let start ← file.span
  let attributes ← file.attributeSpecifiers
  if ← file.atNoField then file.skipMember m
  else
    match ← file.takeStatement with
    | none => do
      file.warn ("Incomplete member declaration in '" ++ m.record.name ++ "'") start
      return m
    | some statement =>
      file.addParts attributes start none true (DeclaratorPart.split statement) m

def trailingFields (type : String) (m : Members) : Walk Members := do
  match ← file.takeStatement with
  | none => return m
  | some statement => do
    let parts ← DeclaratorPart.declared? true (DeclaratorPart.split statement)
    let fields := parts.map fun (_, d) =>
      ({ name := d.name, type := { spelling := type, kind := d.kind }, visibility := m.access
         span := d.span } : Field)
    return fields.foldl Members.addField m

def takeDefinition (decl : TypeDecl) (m : Members) : Walk Members := do
  if decl.name = "" then do
    if ← file.eat .semicolon then return m.hoist decl.fields else file.skipMember m
  else do
    if ← file.eat .semicolon then return m.addNested decl
    else file.trailingFields decl.name (m.addNested decl)

def nestedRecord (body : BodyWalk) (isTemplate : Bool) (m : Members) : Walk (Round Members) := do
  let start ← file.place
  match ← file.record body m.record.namespaces m.record.innerEnclosing isTemplate with
  | .error limit => return .refused m limit
  | .ok (.definition decl) => again (file.takeDefinition decl m)
  | .ok .forward => return .again m
  | .ok .notDefinition => do
    file.seek start
    again (file.member m)

def nestedEnum (m : Members) : Walk Members := do
  let start ← file.place
  match ← file.enumeration m.record.namespaces m.record.innerEnclosing with
  | none => do
    file.seek start
    file.member m
  | some decl => do
    let m := { m with record := { m.record with enums := m.record.enums ++ [decl] } }
    if ← file.eat .semicolon then return m
    else if decl.name = "" then file.skipMember m
    else file.trailingFields decl.name m

def nestedTypedef (body : BodyWalk) (m : Members) : Walk (Round Members) := do
  match ← file.typedef body m.record.namespaces m.record.innerEnclosing with
  | .error limit => return .refused m limit
  | .ok outcome =>
    let m := outcome.types.foldl Members.addNested m
    return .again { m with record := { m.record with aliases := m.record.aliases ++ outcome.aliases } }

def nestedAlias (m : Members) : Walk Members := do
  let alias? ← file.usingAlias m.record.scope
  return { m with record := { m.record with aliases := m.record.aliases ++ alias?.toList } }

def nestedTemplate (body : BodyWalk) (m : Members) : Walk (Round Members) := do
  file.bump
  file.skipAngles
  match (← file.look 0).word?.bind RecordKey.ofWord? with
  | some _ => file.nestedRecord body true m
  | none => again (file.skipMember m)

def memberKeyword (body : BodyWalk) (word : String) (m : Members) : Walk (Round Members) := do
  let next ← file.look 1
  if (RecordKey.ofWord? word).isSome then file.nestedRecord body false m
  else if word = "template" then file.nestedTemplate body m
  else if word = "enum" then again (file.nestedEnum m)
  else if word = "typedef" then file.nestedTypedef body m
  else if word = "using" then again (file.nestedAlias m)
  else if MemberState.nonFieldStarts.contains word then again (file.skipMember m)
  else if word = m.record.name && next == .mark .openParen then again (file.skipMember m)
  else again (file.member m)

def memberWord (body : BodyWalk) (word : String) (m : Members) : Walk (Round Members) := do
  match Visibility.ofWord? word, ← file.look 1 with
  | some access, .mark .colon => do
    file.bump
    file.bump
    return .again { m with access }
  | _, _ => file.memberKeyword body word m

def unexpectedMember (m : Members) : Walk Members := do
  let next ← file.look 0
  let span ← file.span
  file.warn ("Skipped unexpected '" ++ next.spelling ++ "' in '" ++ m.record.name ++ "'") span
  file.skipMember m

def memberRound (body : BodyWalk) (m : Members) : Walk (Round Members) := do
  match ← file.look 0 with
  | .eof | .mark .closeBrace => return .done m
  | .mark .semicolon => do
    file.bump
    return .again m
  | .mark .tilde => again (file.skipMember m)
  | .mark .colonColon => again (file.member m)
  | .mark .openBracket => do
    if (← file.look 0) == .mark .openBracket && (← file.look 1) == .mark .openBracket then
      again (file.member m)
    else again (file.unexpectedMember m)
  | .word word => file.memberWord body word m
  | _ => again (file.unexpectedMember m)

/-- Walk over the members of a record. The depth counter decides whether the body may be opened;
`levels` bounds how deep the walk itself goes. -/
def typeBody : (levels : Nat) → BodyWalk
  | 0 => fun _ => failure
  | levels + 1 => fun decl =>
    nested "type body" decl do
      let (m, limit) ← file.loop "member list" (file.memberRound (typeBody levels))
        ⟨decl, decl.key.defaultVisibility⟩
      return (m.record, limit)

end Walks

variable {file : TokenFile} {d : Depth} {c e : Cursor}

section Loops
variable {σ τ : Type} (view : σ → τ) (cursor : σ → Cursor)

theorem runs_again {walk : Walk τ} {s : σ} (run : file.Runs d walk c (view s) (cursor s)) :
    file.Runs d (again walk) c ((Round.again s).map view) (cursor (Round.again s).state) :=
  run.bind fun holds => .pure holds _

/-- A position tells how much is left. -/
theorem position_inj {n : Nat} {ts : Tokens} (within : n ≤ file.tokens.length)
    (ahead : file.tokens.Ahead ts) :
    file.tokens.length - n = file.position ts ↔ n = ts.length := by
  have := ahead.length_le
  unfold position
  omega

/-- Where each round ends as the walk over it does, so does the loop. -/
theorem runs_loopFrom {walk : τ → Walk (Round τ)} {step : σ → Round σ} (name : String)
    (rounds : ∀ s, file.Holds (cursor s) →
      file.Runs d (walk (view s)) (cursor s) ((step s).map view) (cursor (step s).state))
    (left : Nat) (last : Option Nat) (within : ∀ n ∈ last, n ≤ file.tokens.length) (s : σ)
    (holds : file.Holds (cursor s)) :
    let run := Guard.loopFrom name (fun s => (cursor s).rest.length) step left last s
    file.Runs d (file.loopFrom name walk left (last.map (file.tokens.length - ·)) (view s)) (cursor s)
      (view run.1, run.2) (cursor run.1) := by
  induction left generalizing last s with
  | zero => exact .pure holds _
  | succ left ih =>
    -- the walk counts places from the front, the reader counts the tokens that are left
    have stands : last.map (file.tokens.length - ·) = some (file.position (cursor s).rest) ↔
        last = some (cursor s).rest.length := by
      cases last with
      | none => simp
      | some n => simpa using position_inj (within n rfl) holds.ahead
    have begun : ∀ n ∈ some (cursor s).rest.length, n ≤ file.tokens.length := by
      simpa using holds.ahead.length_le
    have round := rounds s holds
    refine (runs_place holds).bind fun holds => ?_
    unfold Guard.loopFrom
    by_cases stalled : last = some (cursor s).rest.length
    · simp only [if_pos stalled]
      exact .yes (stands.mpr stalled) (.pure holds _)
    · simp only [if_neg stalled]
      refine .no (mt stands.mp stalled) <| round.bind fun holds => ?_
      generalize step s = r at holds ⊢
      cases r with
      | again next => exact ih (some (cursor s).rest.length) begun next holds
      | done final => exact .pure holds _
      | refused final limit => exact .pure holds _

theorem runs_loop {walk : τ → Walk (Round τ)} {step : σ → Round σ} (name : String)
    (rounds : ∀ s, file.Holds (cursor s) →
      file.Runs d (walk (view s)) (cursor s) ((step s).map view) (cursor (step s).state))
    (s : σ) (holds : file.Holds (cursor s)) :
    let run := Guard.loop name (fun s => (cursor s).rest.length) step s
    file.Runs d (file.loop name walk (view s)) (cursor s) (view run.1, run.2) (cursor run.1) :=
  runs_loopFrom view cursor name rounds maxIterations none nofun s holds

end Loops

section Nesting
variable {α : Type} {body : String} {unread : α} {walk : Walk (α × Option Limit)}

theorem enter_full (full : maxDepth ≤ d.depth) (body : String) (c : Cursor) :
    enter body (file.seat d c) = some (some (.depth body), file.seat d c) := by
  have refused : (file.seat d c).depth.enter body = .error (.depth body) := if_pos full
  simp only [enter, bind, StateT.bind, get, getThe, MonadStateOf.get, StateT.get, pure, Option.bind_some]
  rw [refused]
  rfl

theorem enter_below (below : d.depth < maxDepth) (body : String) (c : Cursor) :
    enter body (file.seat d c) = some (none, file.seat ⟨d.depth + 1⟩ c) := by
  have opened : (file.seat d c).depth.enter body = .ok ⟨d.depth + 1⟩ := if_neg (Nat.not_le.mpr below)
  simp only [enter, bind, StateT.bind, get, getThe, MonadStateOf.get, StateT.get, pure, Option.bind_some]
  rw [opened]
  rfl

/-- At the greatest depth a body is not opened, and the counter stays. -/
theorem runs_nested_full (full : maxDepth ≤ d.depth) (holds : file.Holds c) :
    file.Runs d (nested body unread walk) c (unread, some (.depth body)) c where
  run := by
    change (enter body (file.seat d c)).bind _ = _
    rw [enter_full full]
    rfl
  holds := holds

/-- Below it the walk over the body sees the counter one up, and afterwards it is as before. -/
theorem runs_nested {outcome : α × Option Limit} (below : d.depth < maxDepth)
    (run : file.Runs ⟨d.depth + 1⟩ walk c outcome e) :
    file.Runs d (nested body unread walk) c outcome e where
  run := by
    change (enter body (file.seat d c)).bind _ = _
    rw [enter_below below, Option.bind_some]
    change (walk (file.seat ⟨d.depth + 1⟩ c)).bind _ = _
    rw [run.run]
    rfl
  holds := run.holds

end Nesting

section Restored
variable {body : BodyReader} {namespaces enclosing : List String}

theorem recordBody_ne_notDefinition (start : Span) (decl : TypeDecl) (c : Cursor) :
    (Cursor.recordBody body start decl c).1 ≠ .ok .notDefinition := by
  unfold Cursor.recordBody
  split
  · nofun
  · split
    · nofun
    · nofun

/-- A key that starts no definition is found again where it stood. -/
theorem rest_record {isTemplate : Bool}
    (read : c.record body namespaces enclosing isTemplate = (.ok .notDefinition, e)) :
    e.rest = c.rest := by
  unfold Cursor.record at read
  split at read
  · cases read
    rfl
  · dsimp only at read
    split at read
    · split at read
      · cases read
        rfl
      · cases read
    · exact absurd (congrArg Prod.fst read) (recordBody_ne_notDefinition _ _ _)
    · split at read
      · exact absurd (congrArg Prod.fst read) (recordBody_ne_notDefinition _ _ _)
      · cases read
        rfl
    · cases read
      rfl

theorem rest_enumeration (read : c.enumeration namespaces enclosing = (none, e)) : e.rest = c.rest := by
  unfold Cursor.enumeration at read
  dsimp only at read
  generalize (if (c.advance.peek == .word "class" || c.advance.peek == .word "struct") = true then
    c.advance.advance else c.advance) = headed at read
  generalize headed.attributeSpecifiers.2 = f at read
  generalize f.rest.qualifiedName = name at read
  generalize (if name.2.atMark .colon = true then name.2.skipUnderlying else name.2) = rest at read
  split at read
  · cases read
  · split at read
    · cases read
    · cases read
      rfl

end Restored

abbrev MemberRuns (file : TokenFile) (d : Depth) (walk : Walk Members) (c : Cursor) (s : MemberState) :
    Prop :=
  file.Runs d walk c s.members s.cursor

abbrev MemberRounds (file : TokenFile) (d : Depth) (walk : Walk (Round Members)) (c : Cursor)
    (r : Round MemberState) : Prop :=
  file.Runs d walk c (r.map MemberState.members) r.state.cursor

section Members
variable {s : MemberState} {walk : BodyWalk} {body : BodyReader}

theorem MemberRuns.branch {first second : Walk Members} {r s : MemberState} {p q : Prop} [Decidable p]
    [Decidable q] (same : p ↔ q) (yes : q → file.MemberRuns d first c r)
    (no : ¬q → file.MemberRuns d second c s) :
    file.MemberRuns d (if p then first else second) c (if q then r else s) :=
  Runs.select MemberState.members MemberState.cursor same yes no

theorem MemberRounds.branch {first second : Walk (Round Members)} {r s : Round MemberState} {p q : Prop}
    [Decidable p] [Decidable q] (same : p ↔ q) (yes : q → file.MemberRounds d first c r)
    (no : ¬q → file.MemberRounds d second c s) :
    file.MemberRounds d (if p then first else second) c (if q then r else s) :=
  Runs.select (Round.map MemberState.members) (fun r => r.state.cursor) same yes no

theorem MemberRuns.again {walk : Walk Members} {s : MemberState} (run : file.MemberRuns d walk c s) :
    file.MemberRounds d (again walk) c (.again s) :=
  runs_again MemberState.members MemberState.cursor run

theorem runs_skipMember (holds : file.Holds s.cursor) :
    file.MemberRuns d (file.skipMember s.members) s.cursor s.skip :=
  (runs_skipDeclaration holds).bind fun holds => .pure holds _

theorem runs_addParts (attributes : List Attribute) (start : Span) (type? : Option String)
    (first : Bool) (parts : List DeclaratorPart) (s : MemberState) (holds : file.Holds s.cursor) :
    file.MemberRuns d (file.addParts attributes start type? first parts s.members) s.cursor
      (MemberState.addParts attributes start type? first parts s) := by
  induction parts generalizing type? first s with
  | nil => exact .pure holds _
  | cons part parts ih =>
    refine (Runs.lift holds (Tokens.declarator?_eq part.tokens part.bitfield)).bind fun holds => ?_
    unfold MemberState.addParts Declarator.ofPart?
    cases Declarator.ofTokens? part.tokens part.bitfield with
    | none => exact (runs_warn holds _ _).bind fun holds => ih type? false (s.warn _ _) holds
    | some read =>
      obtain ⟨type, declared⟩ := read
      refine MemberRuns.branch .rfl (fun _ => ?_) fun _ => ?_
      · exact (runs_warn holds _ _).bind fun holds => .pure holds _
      · dsimp only
        cases (if first then some (spell type) else type?) with
        | none => exact ih none false s holds
        | some spelling => exact ih _ false (s.addField _) holds

theorem runs_atNoField (holds : file.Holds c) :
    file.Runs d file.atNoField c
      (c.rest.word?.any MemberState.nonFieldStarts.contains || c.rest.atMark .tilde ||
        c.rest.declaresFunction) c := by
  refine (runs_look holds 0).bind fun holds => ?_
  by_cases word : (c.rest.word?.any MemberState.nonFieldStarts.contains || c.rest.atMark .tilde) = true
  · rw [word]
    exact .yes word (.pure holds true)
  · rw [eq_false_of_ne_true word, Bool.false_or]
    exact .no word (runs_declaresFunction holds)

theorem runs_member (holds : file.Holds s.cursor) :
    file.MemberRuns d (file.member s.members) s.cursor s.member := by
  unfold MemberState.member
  refine (runs_span holds).bind fun holds => (runs_attributeSpecifiers holds).bind fun holds => ?_
  generalize s.cursor.attributeSpecifiers = read at holds ⊢
  obtain ⟨attributes, e⟩ := read
  dsimp only at holds ⊢
  refine (runs_atNoField holds).bind fun holds => MemberRuns.branch .rfl (fun _ => ?_) fun _ => ?_
  · exact runs_skipMember (s := { s with cursor := e }) holds
  · have taken := runs_takeStatement (d := d) holds
    cases read : e.rest.takeStatement with
    | error rest =>
      rw [read] at taken
      exact taken.bind fun holds => (runs_warn holds _ _).bind fun holds => .pure holds _
    | ok statement =>
      rw [read] at taken
      exact taken.bind fun holds => runs_addParts _ _ none true _
        (MemberState.goto { s with cursor := e } statement.rest) holds

theorem foldl_members {α : Type} {f : MemberState → α → MemberState} {g : Members → α → Members}
    (same : ∀ s a, (f s a).members = g s.members a ∧ (f s a).cursor = s.cursor) (as : List α)
    (s : MemberState) :
    (as.foldl f s).members = as.foldl g s.members ∧ (as.foldl f s).cursor = s.cursor := by
  induction as generalizing s with
  | nil => exact ⟨rfl, rfl⟩
  | cons a as ih =>
    obtain ⟨members, cursor⟩ := same s a
    obtain ⟨restMembers, restCursor⟩ := ih (f s a)
    exact ⟨restMembers.trans (by rw [members]; rfl), restCursor.trans cursor⟩

theorem members_hoist (fields : List Field) (s : MemberState) :
    (s.hoist fields).members = s.members.hoist fields ∧ (s.hoist fields).cursor = s.cursor := by
  unfold MemberState.hoist Members.hoist
  apply foldl_members
  exact fun _ _ => ⟨rfl, rfl⟩

theorem runs_trailingFields (type : String) (holds : file.Holds s.cursor) :
    file.MemberRuns d (file.trailingFields type s.members) s.cursor (s.trailingFields type) := by
  have taken := runs_takeStatement (d := d) holds
  unfold MemberState.trailingFields
  cases read : s.cursor.rest.takeStatement with
  | error rest =>
    rw [read] at taken
    exact taken.bind fun holds => .pure holds _
  | ok statement =>
    rw [read] at taken
    refine taken.bind fun holds => (Runs.lift holds (DeclaratorPart.declared?_eq true _)).bind
      fun holds => ?_
    have added (fields : List Field) := foldl_members (f := MemberState.addField)
      (g := Members.addField) (fun _ _ => ⟨rfl, rfl⟩) fields (s.goto statement.rest)
    dsimp only
    rw [(added _).1, (added _).2, List.map_filterMap]
    exact .pure holds _

theorem runs_takeDefinition (decl : TypeDecl) (holds : file.Holds s.cursor) :
    file.MemberRuns d (file.takeDefinition decl s.members) s.cursor (s.takeDefinition decl) := by
  have eaten := runs_eat (d := d) holds .semicolon
  unfold MemberState.takeDefinition
  rcases eat_cases s.cursor .semicolon with read | read
  all_goals
    rw [read] at eaten ⊢
    by_cases unnamed : decl.name = ""
  · rw [unnamed]
    obtain ⟨members, cursor⟩ := members_hoist decl.fields { s with cursor := s.cursor.advance }
    refine .yes unnamed <| eaten.bind fun holds => .yes rfl ?_
    change file.Runs d _ _ (MemberState.hoist _ _).members (MemberState.hoist _ _).cursor
    rw [members, cursor]
    exact .pure holds _
  · refine .no unnamed <| eaten.bind fun holds => .yes rfl ?_
    simp only []
    exact .pure holds _
  · rw [unnamed]
    exact .yes unnamed <| eaten.bind fun holds => .no nofun (runs_skipMember holds)
  · refine .no unnamed <| eaten.bind fun holds => .no nofun ?_
    simp only []
    exact runs_trailingFields (s := s.addNested decl) _ holds

theorem runs_nestedRecord (bodies : BodyRuns file d walk body) (isTemplate : Bool)
    (holds : file.Holds s.cursor) :
    file.MemberRounds d (file.nestedRecord walk isTemplate s.members) s.cursor
      (s.nestedRecord body isTemplate) := by
  refine (runs_place holds).bind fun held => (runs_record bodies _ _ isTemplate holds).bind fun holds => ?_
  unfold MemberState.nestedRecord
  dsimp only [MemberState.members] at holds ⊢
  cases read : s.cursor.record body s.record.namespaces s.record.innerEnclosing isTemplate with
  | mk outcome e =>
    rw [read] at holds
    cases outcome with
    | error limit => exact .pure holds _
    | ok outcome =>
      cases outcome with
      | definition decl => exact (runs_takeDefinition (s := { s with cursor := e }) decl holds).again
      | forward => exact .pure holds _
      | notDefinition =>
        refine (runs_seek holds held.ahead).bind fun holds => ?_
        rw [← rest_record read] at holds ⊢
        exact (runs_member (s := { s with cursor := e }) holds).again

theorem runs_nestedEnum (holds : file.Holds s.cursor) :
    file.MemberRuns d (file.nestedEnum s.members) s.cursor s.nestedEnum := by
  refine (runs_place holds).bind fun held => (runs_enumeration _ _ holds).bind fun holds => ?_
  unfold MemberState.nestedEnum
  dsimp only [MemberState.members] at holds ⊢
  cases read : s.cursor.enumeration s.record.namespaces s.record.innerEnclosing with
  | mk decl? e =>
    rw [read] at holds
    cases decl? with
    | none =>
      refine (runs_seek holds held.ahead).bind fun holds => ?_
      rw [← rest_enumeration read] at holds ⊢
      exact runs_member (s := { s with cursor := e }) holds
    | some decl =>
      have eaten := runs_eat (d := d) holds .semicolon
      dsimp only at eaten ⊢
      generalize e.eat .semicolon = read at eaten ⊢
      obtain ⟨closed, e⟩ := read
      refine eaten.bind fun holds => ?_
      cases closed with
      | true => exact .yes rfl (.pure holds _)
      | false =>
        refine .no nofun <| MemberRuns.branch .rfl (fun _ => ?_) fun _ => ?_
        · exact runs_skipMember (s := ⟨_, s.access, e⟩) holds
        · exact runs_trailingFields (s := ⟨_, s.access, e⟩) _ holds

theorem runs_nestedTypedef (bodies : BodyRuns file d walk body) (holds : file.Holds s.cursor) :
    file.MemberRounds d (file.nestedTypedef walk s.members) s.cursor (s.nestedTypedef body) := by
  refine (runs_typedef bodies _ _ holds).bind fun holds => ?_
  unfold MemberState.nestedTypedef
  dsimp only [MemberState.members] at holds ⊢
  generalize s.cursor.typedef body s.record.namespaces s.record.innerEnclosing = read at holds ⊢
  obtain ⟨outcome, e⟩ := read
  cases outcome with
  | error limit => exact .pure holds _
  | ok outcome =>
    obtain ⟨members, cursor⟩ := foldl_members (f := MemberState.addNested) (g := Members.addNested)
      (fun _ _ => ⟨rfl, rfl⟩) outcome.types { s with cursor := e }
    change _ = List.foldl Members.addNested ⟨s.record, s.access⟩ outcome.types at members
    dsimp only [Round.state]
    rw [← members, cursor]
    exact .pure holds _

theorem runs_nestedAlias (holds : file.Holds s.cursor) :
    file.MemberRuns d (file.nestedAlias s.members) s.cursor s.nestedAlias :=
  (runs_usingAlias _ holds).bind fun holds => .pure holds _

theorem runs_nestedTemplate (bodies : BodyRuns file d walk body) (holds : file.Holds s.cursor) :
    file.MemberRounds d (file.nestedTemplate walk s.members) s.cursor (s.nestedTemplate body) := by
  refine (runs_bump holds).bind fun holds => (runs_skipAngles holds).bind fun holds => ?_
  refine (runs_look holds 0).bind fun holds => ?_
  unfold MemberState.nestedTemplate
  dsimp only
  rw [show ((s.cursor.advance.goto s.cursor.advance.rest.skipAngles).rest.peekAt 0).word? =
    (s.goto s.cursor.rest.advance.skipAngles).cursor.rest.word? from rfl]
  cases (s.goto s.cursor.rest.advance.skipAngles).cursor.rest.word?.bind RecordKey.ofWord? with
  | some key => exact runs_nestedRecord (s := s.goto _) bodies true holds
  | none => exact (runs_skipMember (s := s.goto _) holds).again

theorem runs_memberKeyword (bodies : BodyRuns file d walk body) (word : String)
    (holds : file.Holds s.cursor) :
    file.MemberRounds d (file.memberKeyword walk word s.members) s.cursor (s.keywordRound body word) := by
  refine (runs_look holds 1).bind fun holds => ?_
  refine MemberRounds.branch .rfl (fun _ => runs_nestedRecord bodies false holds) fun _ => ?_
  refine MemberRounds.branch .rfl (fun _ => runs_nestedTemplate bodies holds) fun _ => ?_
  refine MemberRounds.branch .rfl (fun _ => (runs_nestedEnum holds).again) fun _ => ?_
  refine MemberRounds.branch .rfl (fun _ => runs_nestedTypedef bodies holds) fun _ => ?_
  refine MemberRounds.branch .rfl (fun _ => (runs_nestedAlias holds).again) fun _ => ?_
  refine MemberRounds.branch .rfl (fun _ => (runs_skipMember holds).again) fun _ => ?_
  refine MemberRounds.branch .rfl (fun _ => (runs_skipMember holds).again) fun _ => ?_
  exact (runs_member holds).again

theorem runs_memberWord (bodies : BodyRuns file d walk body) (word : String)
    (holds : file.Holds s.cursor) :
    file.MemberRounds d (file.memberWord walk word s.members) s.cursor (s.wordRound body word) := by
  have others := runs_memberKeyword bodies word holds
  refine (runs_look holds 1).bind fun holds => ?_
  rw [MemberState.wordRound_eq]
  generalize s.cursor.rest.peekAt 1 = next
  cases Visibility.ofWord? word with
  | none => exact others
  | some access =>
    cases next with
    | mark m =>
      cases m with
      | colon =>
        exact (runs_bump holds).bind fun holds => (runs_bump holds).bind fun holds => .pure holds _
      | _ => exact others
    | _ => exact others

theorem runs_unexpectedMember (holds : file.Holds s.cursor) :
    file.MemberRuns d (file.unexpectedMember s.members) s.cursor s.unexpected := by
  refine (runs_look holds 0).bind fun holds => (runs_span holds).bind fun holds => ?_
  exact (runs_warn holds _ _).bind fun holds => runs_skipMember (s := s.warn _ _) holds

theorem runs_memberRound (bodies : BodyRuns file d walk body) (holds : file.Holds s.cursor) :
    file.MemberRounds d (file.memberRound walk s.members) s.cursor (s.round body) := by
  refine (runs_look holds 0).bind fun holds => ?_
  unfold MemberState.round
  rw [show s.cursor.peek = s.cursor.rest.peekAt 0 from rfl]
  generalize s.cursor.rest.peekAt 0 = token
  cases token with
  | eof => exact .pure holds _
  | word word => exact runs_memberWord bodies word holds
  | mark m =>
    cases m with
    | closeBrace => exact .pure holds _
    | semicolon => exact (runs_bump holds).bind fun holds => .pure holds _
    | tilde => exact (runs_skipMember holds).again
    | colonColon => exact (runs_member holds).again
    | openBracket =>
      refine (runs_look holds 0).bind fun holds => (runs_look holds 1).bind fun holds => ?_
      exact MemberRounds.branch .rfl (fun _ => (runs_member holds).again)
        fun _ => (runs_unexpectedMember holds).again
    | _ => exact (runs_unexpectedMember holds).again
  | _ => exact (runs_unexpectedMember holds).again

end Members

section Bodies

/-- While fewer bodies are open than may be, the walk over a record reads what `typeBody` reads with
as many more bodies to open. -/
theorem runs_typeBody {levels room : Nat} (deep : room < levels) (depth : d.depth + room = maxDepth) :
    BodyRuns file d (file.typeBody levels) (HeaderMeta.typeBody room) := by
  induction levels generalizing room d with
  | zero => exact absurd deep (Nat.not_lt_zero room)
  | succ levels ih =>
    intro decl c holds
    cases room with
    | zero => exact runs_nested_full (Nat.le_of_eq depth.symm) holds
    | succ room =>
      have bodies : BodyRuns file ⟨d.depth + 1⟩ (file.typeBody levels) (HeaderMeta.typeBody room) :=
        ih (Nat.lt_of_succ_lt_succ deep) (by simp only; omega)
      refine runs_nested (by omega) ?_
      exact (runs_loop MemberState.members MemberState.cursor "member list"
        (fun s holds => runs_memberRound bodies holds) ⟨decl, decl.key.defaultVisibility, c⟩ holds).bind
        fun holds => .pure holds _

end Bodies

end TokenFile

end HeaderMeta
