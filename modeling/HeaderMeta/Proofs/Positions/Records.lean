import HeaderMeta.Proofs.Positions.Attributes
import HeaderMeta.Proofs.Positions.Declarators

/-! Records, enumerations and aliases read by positions.

A place that is kept for later is a number. Bodies are read by a walk that is given with the records,
as the bodies of `Cursor.record` are.
-/

set_option autoImplicit false

namespace HeaderMeta

abbrev BodyWalk := TypeDecl → Walk (TypeDecl × Option Limit)

def DeclaratorPart.declared? (bitfields : Bool) (parts : List DeclaratorPart) :
    Option (List (List Token × Declarator)) := do
  let read ← parts.mapM fun part => part.tokens.declarator? (bitfields && part.bitfield)
  some (read.filterMap id)

def Cursor.plainAliases? (scope : List String) : List DeclaratorPart → Option (List AliasDecl)
  | [] => some []
  | part :: parts => do
    match ← part.tokens.declarator? false with
    | none => some []
    | some (type, first) =>
      if spell type = "" then some []
      else do
        let others ← DeclaratorPart.declared? false parts
        some ((first :: others.map (·.2)).map fun d =>
          ⟨d.name, scope, { spelling := spell type, kind := d.kind }, d.span⟩)

def Cursor.recordAliases? (scope : List String) (decl : TypeDecl) (statement : Tokens) :
    Option Cursor.TypedefOutcome := do
  let parts ← DeclaratorPart.declared? false (DeclaratorPart.split statement)
  let declarators := parts.map (·.2)
  let name? :=
    if decl.name = "" then (declarators.find? (·.kind = .unresolved)).map (·.name)
    else some decl.name
  match name? with
  | none => some {}
  | some name =>
    some
      { types := [{ decl with name }]
        aliases := (declarators.filter (·.name != name)).map fun d =>
          ⟨d.name, scope, { spelling := name, kind := d.kind }, d.span⟩ }

namespace TokenFile

section Walks
variable (file : TokenFile)

def atDecorator : Walk Bool := do
  let word ← file.look 0
  let next ← file.look 1
  let behind ← file.look 2
  return word.word?.any Cursor.isMacroName &&
    match next with
    | .word _ | .mark .openParen => true
    | .mark .openBracket => behind == .mark .openBracket
    | _ => false

def skipMacro : Walk Unit := do
  file.bump
  onlyIf ((← file.look 0) == .mark .openParen) do
    let _ ← file.skipGroup

def decorators : (left : Nat) → Walk (List Attribute)
  | 0 => failure
  | left + 1 => do
    if ← file.atDecorator then do
      file.skipMacro
      let own ← file.attributeSpecifiers
      let more ← decorators left
      return own ++ more
    else return []

def recordHead (isTemplate : Bool) : Walk Cursor.RecordHead := do
  let attributes ← file.attributeSpecifiers
  let more ← file.decorators file.tokens.length
  let nameSpan ← file.span
  let parts ← file.qualifiedName
  let name := parts.getLast?.getD ""
  let specialised := (← file.look 0) == .mark .less && name != ""
  onlyIf specialised file.skipAngles
  onlyIf ((← file.look 0) == .word "final") file.bump
  return { name, attributes := attributes ++ more, isTemplate := isTemplate || specialised, nameSpan }

def qualifiers : (left : Nat) → (access : Visibility) → (isVirtual : Bool) → Walk (Visibility × Bool)
  | 0, _, _ => failure
  | left + 1, access, isVirtual => do
    match ← file.look 0 with
    | .word word =>
      if word = "virtual" then do
        file.bump
        qualifiers left access true
      else
        match Visibility.ofWord? word with
        | some access => do
          file.bump
          qualifiers left access isVirtual
        | none => return (access, isVirtual)
    | _ => return (access, isVirtual)

def base (key : RecordKey) : Walk (Option (List Base)) := do
  let (access, isVirtual) ← file.qualifiers file.tokens.length key.defaultVisibility false
  match ← file.spellingTokens? file.tokens.length 0 [] (← file.place) with
  | none => return none
  | some (tokens, pos) => do
    file.seek pos
    return some (if spell tokens = "" then [] else [{ spelling := spell tokens, access, isVirtual }])

def bases (key : RecordKey) : (left : Nat) → Walk (Option (List Base))
  | 0 => failure
  | left + 1 => do
    match ← file.base key with
    | none => return none
    | some own => do
      if ← file.eat .comma then do
        match ← bases key left with
        | none => return none
        | some more => return some (own ++ more)
      else if (← file.look 0) == .mark .openBrace then return some own
      else return none

def recordBody (body : BodyWalk) (start : Span) (decl : TypeDecl) :
    Walk (Except Limit RecordOutcome) := do
  file.bump
  match ← body decl with
  | (_, some limit) => return .error limit
  | (decl, none) => do
    if ← file.eat .closeBrace then return .ok (.definition decl)
    else do
      let label := if decl.name = "" then "<anonymous>" else decl.name
      file.fail ("Unterminated body of '" ++ label ++ "'") start
      return .ok (.definition decl)

def giveUp {α : Type} (start : Nat) (outcome : α) : Walk α := do
  file.seek start
  return outcome

def record (body : BodyWalk) (namespaces enclosing : List String) (isTemplate : Bool) :
    Walk (Except Limit RecordOutcome) := do
  let start ← file.place
  let startSpan ← file.span
  match (← file.look 0).word?.bind RecordKey.ofWord? with
  | none => return .ok .notDefinition
  | some key => do
    file.bump
    let head ← file.recordHead isTemplate
    let decl : TypeDecl :=
      { name := head.name, namespaces, enclosing, key, path := file.source.path
        attributes := head.attributes, isTemplate := head.isTemplate
        span := if head.name = "" then startSpan else head.nameSpan }
    match ← file.look 0 with
    | .mark .semicolon =>
      if head.name = "" then file.giveUp start (.ok .notDefinition)
      else do
        file.bump
        return .ok .forward
    | .mark .openBrace => file.recordBody body startSpan decl
    | .mark .colon => do
      file.bump
      match ← file.bases key file.tokens.length with
      | some bases => file.recordBody body startSpan { decl with bases }
      | none => file.giveUp start (.ok .notDefinition)
    | _ => file.giveUp start (.ok .notDefinition)

def plainTypedef (scope : List String) : Walk Cursor.TypedefOutcome := do
  match ← file.takeStatement with
  | none => return {}
  | some statement =>
    if statement.any (·.token == .mark .openParen) then return {}
    else do
      let aliases ← Cursor.plainAliases? scope (DeclaratorPart.split statement)
      return { aliases }

def typedef (body : BodyWalk) (namespaces enclosing : List String) :
    Walk (Except Limit Cursor.TypedefOutcome) := do
  let scope := namespaces ++ enclosing
  file.bump
  let start ← file.place
  match ← file.record body namespaces enclosing false with
  | .error limit => return .error limit
  | .ok (.definition decl) => do
    match ← file.takeStatement with
    | none => return .ok {}
    | some statement => do
      let outcome ← Cursor.recordAliases? scope decl statement
      return .ok outcome
  | .ok _ => do
    file.seek start
    let outcome ← file.plainTypedef scope
    return .ok outcome

def enumeration (namespaces enclosing : List String) : Walk (Option EnumDecl) := do
  let start ← file.place
  let span ← file.span
  file.bump
  let key ← file.look 0
  let isScoped := key == .word "class" || key == .word "struct"
  onlyIf isScoped file.bump
  let _ ← file.attributeSpecifiers
  let parts ← file.qualifiedName
  let name := parts.getLast?.getD ""
  onlyIf ((← file.look 0) == .mark .colon) file.skipUnderlying
  let decl : EnumDecl := { name, namespaces, enclosing, isScoped, span }
  if (← file.look 0) == .mark .openBrace then do
    let _ ← file.skipGroup
    return some decl
  else if (← file.look 0) == .mark .semicolon && name != "" then return some decl
  else file.giveUp start none

def usingAlias (scope : List String) : Walk (Option AliasDecl) := do
  match ← file.look 1, ← file.look 2 with
  | .word name, .mark .equal => do
    file.bump
    let span ← file.span
    file.bump
    file.bump
    match ← file.takeStatement with
    | none => return none
    | some statement =>
      if statement.any (·.token == .mark .openParen) then return none
      else do
        let (type, kind) ← statement.stripIndirection?
        if spell type = "" then return none
        else return some { name, scope, target := { spelling := spell type, kind }, span }
  | _, _ => do
    file.skipDeclaration
    return none

end Walks

end TokenFile

section Parts

theorem DeclaratorPart.declared?_eq (bitfields : Bool) (parts : List DeclaratorPart) :
    declared? bitfields parts =
      some (parts.filterMap fun p => Declarator.ofTokens? p.tokens (bitfields && p.bitfield)) := by
  have read : parts.mapM (fun p => p.tokens.declarator? (bitfields && p.bitfield)) =
      some (parts.map fun p => Declarator.ofTokens? p.tokens (bitfields && p.bitfield)) := by
    simp only [Tokens.declarator?_eq]
    exact List.mapM_pure
  rw [declared?, read]
  simp [List.filterMap_map]

theorem Cursor.plainAliases?_eq (scope : List String) (parts : List DeclaratorPart) :
    plainAliases? scope parts = some (plainAliases scope parts) := by
  cases parts with
  | nil => rfl
  | cons part parts =>
    rw [plainAliases?, plainAliases, Tokens.declarator?_eq]
    cases Declarator.ofTokens? part.tokens false with
    | none => rfl
    | some first =>
      simp only [Option.bind_eq_bind, Option.bind_some, DeclaratorPart.declared?_eq, Bool.false_and,
        List.map_filterMap]
      split
      · rfl
      · rfl

theorem Cursor.recordAliases?_eq (scope : List String) (decl : TypeDecl) (statement : Tokens) :
    recordAliases? scope decl statement = some (recordAliases scope decl statement) := by
  rw [recordAliases?, recordAliases, DeclaratorPart.declared?_eq]
  simp only [Option.bind_eq_bind, Option.bind_some, Bool.false_and, List.map_filterMap]
  generalize (if decl.name = "" then _ else some decl.name) = name?
  cases name? with
  | none => rfl
  | some name => rfl

end Parts

namespace TokenFile

variable {file : TokenFile} {d : Depth} {c : Cursor} {ts : Tokens}

section Heads

theorem runs_atDecorator (holds : file.Holds c) :
    file.Runs d file.atDecorator c (Cursor.atDecorator c.rest) c := by
  refine (runs_look holds 0).bind fun holds => (runs_look holds 1).bind fun holds =>
    (runs_look holds 2).bind fun holds => ?_
  exact .pure holds _

theorem runs_skipMacro (holds : file.Holds c) :
    file.Runs d file.skipMacro c () (c.goto (Cursor.skipMacro c.rest)) := by
  refine (runs_bump holds).bind fun holds => (runs_look holds 0).bind fun holds => ?_
  exact ((runs_skipGroup holds).bind fun holds => .pure holds ()).onlyIf_goto holds _

theorem length_decorator_lt (atMacro : Cursor.atDecorator c.rest = true) :
    (c.goto (Cursor.skipMacro c.rest)).attributeSpecifiers.2.rest.length < c.rest.length := calc
  _ ≤ (Cursor.skipMacro c.rest).length := Cursor.length_attributeSpecifiers_le _
  _ ≤ c.rest.advance.length := Cursor.length_skipMacro_le c.rest
  _ < c.rest.length := Cursor.length_advance_lt_of_atDecorator atMacro

theorem runs_decorators {left : Nat} (holds : file.Holds c) (enough : c.rest.length ≤ left) :
    file.Runs d (file.decorators left) c c.decorators.1 c.decorators.2 := by
  fun_induction Cursor.decorators c generalizing left with
  | case1 c atMacro own others =>
    rename_i ih
    obtain ⟨left, rfl, more⟩ := holds.exists_round enough
    rw [decorators]
    refine (runs_atDecorator holds).bind fun holds => .yes atMacro <| (runs_skipMacro holds).bind ?_
    refine fun holds => (runs_attributeSpecifiers holds).bind fun holds => ?_
    exact (ih holds (more _ (length_decorator_lt atMacro))).bind fun holds => .pure holds _
  | case2 c noMacro =>
    obtain ⟨left, rfl, -⟩ := holds.exists_round enough
    rw [decorators]
    exact (runs_atDecorator holds).bind fun holds => .no noMacro (.pure holds [])

theorem runs_recordHead (holds : file.Holds c) (isTemplate : Bool) :
    file.Runs d (file.recordHead isTemplate) c (c.recordHead isTemplate).1
      (c.recordHead isTemplate).2 := by
  refine (runs_attributeSpecifiers holds).bind fun holds => ?_
  refine (runs_decorators holds holds.ahead.length_le).bind fun holds => ?_
  refine (runs_span holds).bind fun holds => (runs_qualifiedName holds).bind fun holds => ?_
  refine (runs_look holds 0).bind fun holds => ((runs_skipAngles holds).onlyIf_goto holds _).bind
    fun holds => ?_
  refine (runs_look holds 0).bind fun holds => ((runs_bump holds).onlyIf_goto holds _).bind fun holds => ?_
  exact .pure holds _

end Heads

section Bases

theorem runs_qualifiersFrom {left : Nat} (access : Visibility) (isVirtual : Bool)
    (holds : file.Holds (c.goto ts)) (enough : ts.length ≤ left) :
    file.Runs d (file.qualifiers left access isVirtual) (c.goto ts) (Base.qualifiers access isVirtual ts).1
      (c.goto (Base.qualifiers access isVirtual ts).2) := by
  fun_induction Base.qualifiers access isVirtual ts generalizing left with
  | case1 => exact absurd rfl holds.closed.ne_nil
  | case2 access isVirtual t ts token ih =>
    obtain ⟨left, rfl, more⟩ := exists_round enough
    rw [qualifiers]
    refine (runs_look holds 0).bind fun holds => ?_
    rw [show (c.goto (t :: ts)).rest.peekAt 0 = .word "virtual" from token]
    exact .yes rfl <| (runs_bump_tail holds rfl (by simp [token])).bind fun holds => ih holds more
  | case3 access isVirtual t ts word token notVirtual access' found ih =>
    obtain ⟨left, rfl, more⟩ := exists_round enough
    rw [qualifiers]
    refine (runs_look holds 0).bind fun holds => ?_
    rw [show (c.goto (t :: ts)).rest.peekAt 0 = .word word from token]
    refine .no notVirtual ?_
    rw [found]
    exact (runs_bump_tail holds rfl (by simp [token])).bind fun holds => ih holds more
  | case4 access isVirtual t ts word token notVirtual none =>
    obtain ⟨left, rfl, -⟩ := exists_round enough
    rw [qualifiers]
    refine (runs_look holds 0).bind fun holds => ?_
    rw [show (c.goto (t :: ts)).rest.peekAt 0 = .word word from token]
    refine .no notVirtual ?_
    rw [none]
    exact .pure holds _
  | case5 access isVirtual t ts noWord =>
    obtain ⟨left, rfl, -⟩ := exists_round enough
    rw [qualifiers]
    refine (runs_look holds 0).bind fun holds => ?_
    split
    next word found => exact (noWord word found).elim
    next => exact .pure holds _

theorem runs_qualifiers (key : RecordKey) (holds : file.Holds c) :
    file.Runs d (file.qualifiers file.tokens.length key.defaultVisibility false) c
      (Base.qualifiers key.defaultVisibility false c.rest).1
      (c.goto (Base.qualifiers key.defaultVisibility false c.rest).2) :=
  runs_qualifiersFrom _ _ holds holds.ahead.length_le

theorem runs_base (key : RecordKey) (holds : file.Holds c) :
    match Base.readOne key c.rest with
    | some (own, rest) => file.Runs d (file.base key) c (some own) (c.goto rest)
    | none => ∃ rest, file.Runs d (file.base key) c none (c.goto rest) := by
  have words := runs_qualifiers (d := d) key holds
  have ahead := Cursor.ahead_qualifiers key.defaultVisibility false c.rest
  unfold Base.readOne
  dsimp only
  generalize Base.qualifiers key.defaultVisibility false c.rest = read at words ahead ⊢
  obtain ⟨⟨access, isVirtual⟩, start⟩ := read
  have found := spellingTokens?_position 0 words.holds.ahead [] words.holds.ahead.length_le
  cases spelled : Base.spellingTokens 0 start with
  | none =>
    rw [Cursor.rest_goto, spelled] at found
    refine ⟨start, words.bind fun holds => (runs_place holds).bind fun holds => ?_⟩
    exact (Runs.lift holds found).bind fun holds => .pure holds none
  | some spelled' =>
    obtain ⟨tokens, rest⟩ := spelled'
    rw [Cursor.rest_goto, spelled] at found
    refine words.bind fun holds => (runs_place holds).bind fun holds => ?_
    refine (Runs.lift holds found).bind fun holds => ?_
    exact (runs_seek holds (holds.ahead.trans (Cursor.ahead_spellingTokens spelled))).bind
      fun holds => .pure holds _

theorem runs_bases {left : Nat} (key : RecordKey) (holds : file.Holds (c.goto ts))
    (enough : ts.length ≤ left) :
    match Base.readAll key ts with
    | some (all, rest) => file.Runs d (file.bases key left) (c.goto ts) (some all) (c.goto rest)
    | none => ∃ rest, file.Runs d (file.bases key left) (c.goto ts) none (c.goto rest) := by
  fun_induction Base.readAll key ts generalizing left with
  | case1 ts none =>
    obtain ⟨left, rfl, -⟩ := holds.exists_round enough
    have first := runs_base (d := d) key holds
    rw [Cursor.rest_goto, none] at first
    obtain ⟨rest, run⟩ := first
    refine ⟨rest, ?_⟩
    rw [bases]
    exact run.bind fun holds => .pure holds _
  | case2 ts own span next read ih =>
    obtain ⟨left, rfl, more⟩ := holds.exists_round enough
    have first := runs_base (d := d) key holds
    rw [Cursor.rest_goto, read] at first
    have comma := runs_eat_tail (d := d) first.holds rfl
    -- a base takes a token, so the rounds that are left are enough for the others
    have further := Nat.lt_of_lt_of_le (Nat.lt_succ_self next.length) (Base.length_readOne_le read)
    have others := ih comma.holds (more next further)
    cases all : Base.readAll key next with
    | none =>
      rw [all] at others
      obtain ⟨rest, run⟩ := others
      refine ⟨rest, ?_⟩
      rw [bases]
      exact first.bind fun _ => comma.bind fun _ => .yes rfl <| run.bind fun holds => .pure holds _
    | some found =>
      rw [all] at others
      rw [bases]
      exact first.bind fun _ => comma.bind fun _ => .yes rfl <| others.bind fun holds => .pure holds _
  | case3 ts own rest noComma read brace =>
    obtain ⟨left, rfl, -⟩ := holds.exists_round enough
    have first := runs_base (d := d) key holds
    rw [Cursor.rest_goto, read] at first
    have here : rest.peek = .mark .openBrace := by simpa [Tokens.atMark] using brace
    rw [bases]
    refine first.bind fun holds => (runs_eat_other holds (by simp [here])).bind fun holds => ?_
    exact (runs_look holds 0).bind fun holds => .yes brace (.pure holds _)
  | case4 ts own rest noComma read noBrace =>
    obtain ⟨left, rfl, -⟩ := holds.exists_round enough
    have first := runs_base (d := d) key holds
    rw [Cursor.rest_goto, read] at first
    refine ⟨rest, ?_⟩
    rw [bases]
    refine first.bind fun holds => (runs_eat_other holds fun comma => ?_).bind fun holds => ?_
    · obtain ⟨⟨_, span⟩, next, rfl⟩ := List.exists_cons_of_ne_nil holds.closed.ne_nil
      cases comma
      exact noComma span next rfl
    · exact (runs_look holds 0).bind fun holds => .no noBrace (.pure holds _)

end Bases

def BodyRuns (file : TokenFile) (d : Depth) (walk : BodyWalk) (body : BodyReader) : Prop :=
  ∀ decl (c : Cursor), file.Holds c →
    file.Runs d (walk decl) c ((body decl c).1.1, (body decl c).2) (body decl c).1.2

section Bodies
variable {walk : BodyWalk} {body : BodyReader}

theorem runs_recordBody (bodies : BodyRuns file d walk body) (start : Span) (decl : TypeDecl)
    (holds : file.Holds c) :
    file.Runs d (file.recordBody walk start decl) c (Cursor.recordBody body start decl c).1
      (Cursor.recordBody body start decl c).2 := by
  refine (runs_bump holds).bind fun holds => (bodies decl c.advance holds).bind fun holds => ?_
  unfold Cursor.recordBody
  generalize body decl c.advance = read at holds ⊢
  obtain ⟨⟨decl', e⟩, limit?⟩ := read
  dsimp only at holds ⊢
  cases limit? with
  | some limit => exact .pure holds _
  | none =>
    refine (runs_eat holds .closeBrace).bind fun holds => ?_
    dsimp only
    generalize e.eat .closeBrace = eaten at holds ⊢
    obtain ⟨closed, e⟩ := eaten
    cases closed with
    | true => exact .pure holds _
    | false => exact (runs_fail holds _ _).bind fun holds => .pure holds _

theorem runs_giveUp {α : Type} {start : Cursor} (held : file.Holds start) (holds : file.Holds c)
    (outcome : α) :
    file.Runs d (file.giveUp (file.position start.rest) outcome) c outcome (c.goto start.rest) :=
  (runs_seek holds held.ahead).bind fun holds => .pure holds outcome

theorem runs_record (bodies : BodyRuns file d walk body) (namespaces enclosing : List String)
    (isTemplate : Bool) (holds : file.Holds c) :
    file.Runs d (file.record walk namespaces enclosing isTemplate) c
      (c.record body namespaces enclosing isTemplate).1
      (c.record body namespaces enclosing isTemplate).2 := by
  refine (runs_place holds).bind fun holds => (runs_span holds).bind fun holds => ?_
  -- a record that is given up leaves the reader at this place
  refine (runs_look holds 0).bind fun held => ?_
  unfold Cursor.record
  rw [show c.rest.word? = (c.rest.peekAt 0).word? from rfl]
  cases (c.rest.peekAt 0).word?.bind RecordKey.ofWord? with
  | none => exact .pure held _
  | some key =>
    refine (runs_bump held).bind fun holds => (runs_recordHead holds isTemplate).bind fun holds => ?_
    generalize c.advance.recordHead isTemplate = read at holds ⊢
    obtain ⟨head, e⟩ := read
    dsimp only at holds ⊢
    refine (runs_look holds 0).bind fun holds => ?_
    rw [holds.source, show e.peek = e.rest.peekAt 0 from rfl]
    generalize e.rest.peekAt 0 = token
    cases token with
    | mark m =>
      cases m with
      | semicolon =>
        exact .branch .rfl (fun _ => runs_giveUp held holds _)
          fun _ => (runs_bump holds).bind fun holds => .pure holds _
      | openBrace => exact runs_recordBody bodies _ _ holds
      | colon =>
        refine (runs_bump holds).bind fun holds => ?_
        have read := runs_bases (d := d) key holds holds.ahead.length_le
        dsimp only
        cases found : Base.readAll key e.rest.advance with
        | some all =>
          rw [found] at read
          exact read.bind fun holds => runs_recordBody bodies _ _ holds
        | none =>
          rw [found] at read
          obtain ⟨left, read⟩ := read
          exact read.bind fun holds => runs_giveUp held holds _
      | _ => exact runs_giveUp held holds _
    | _ => exact runs_giveUp held holds _

theorem runs_plainTypedef (scope : List String) (holds : file.Holds c) :
    file.Runs d (file.plainTypedef scope) c (c.plainTypedef scope).1 (c.plainTypedef scope).2 := by
  have taken := runs_takeStatement (d := d) holds
  unfold Cursor.plainTypedef
  cases read : c.rest.takeStatement with
  | error rest =>
    rw [read] at taken
    exact taken.bind fun holds => .pure holds _
  | ok statement =>
    rw [read] at taken
    refine taken.bind fun holds => ?_
    dsimp only
    split
    · exact .pure holds _
    · exact (Runs.lift holds (Cursor.plainAliases?_eq _ _)).bind fun holds => .pure holds _

theorem runs_typedef (bodies : BodyRuns file d walk body) (namespaces enclosing : List String)
    (holds : file.Holds c) :
    file.Runs d (file.typedef walk namespaces enclosing) c (c.typedef body namespaces enclosing).1
      (c.typedef body namespaces enclosing).2 := by
  refine (runs_bump holds).bind fun holds => (runs_place holds).bind fun held => ?_
  refine (runs_record bodies namespaces enclosing false held).bind fun holds => ?_
  unfold Cursor.typedef
  dsimp only
  generalize c.advance.record body namespaces enclosing false = read at holds ⊢
  obtain ⟨outcome, e⟩ := read
  dsimp only at holds ⊢
  cases outcome with
  | error limit => exact .pure holds _
  | ok outcome =>
    cases outcome with
    | definition decl =>
      have taken := runs_takeStatement (d := d) holds
      dsimp only
      cases found : e.rest.takeStatement with
      | error rest =>
        rw [found] at taken
        exact taken.bind fun holds => .pure holds _
      | ok statement =>
        rw [found] at taken
        exact taken.bind fun holds => (Runs.lift holds (Cursor.recordAliases?_eq _ _ _)).bind
          fun holds => .pure holds _
    | forward | notDefinition =>
      exact (runs_seek holds held.ahead).bind fun holds =>
        (runs_plainTypedef (namespaces ++ enclosing) holds).bind fun holds => .pure holds _

end Bodies

section Small

theorem runs_enumeration (namespaces enclosing : List String) (holds : file.Holds c) :
    file.Runs d (file.enumeration namespaces enclosing) c (c.enumeration namespaces enclosing).1
      (c.enumeration namespaces enclosing).2 := by
  unfold Cursor.enumeration
  dsimp only
  refine (runs_place holds).bind fun held => (runs_span held).bind fun holds => ?_
  refine (runs_bump holds).bind fun holds => (runs_look holds 0).bind fun holds => ?_
  rw [show c.advance.rest.peekAt 0 = c.advance.peek from rfl]
  refine ((runs_bump holds).onlyIf holds _).bind fun holds => ?_
  generalize (if (c.advance.peek == .word "class" || c.advance.peek == .word "struct") = true then
    c.advance.advance else c.advance) = headed at holds ⊢
  refine (runs_attributeSpecifiers holds).bind fun holds => ?_
  generalize headed.attributeSpecifiers.2 = e at holds ⊢
  refine (runs_qualifiedName holds).bind fun holds => ?_
  generalize e.rest.qualifiedName = name at holds ⊢
  refine (runs_look holds 0).bind fun holds => ?_
  refine ((runs_skipUnderlying holds).onlyIf_goto holds _).bind fun holds => ?_
  change file.Holds (e.goto (if name.2.atMark .colon = true then name.2.skipUnderlying else name.2)) at holds
  change file.Runs d _ (e.goto (if name.2.atMark .colon = true then name.2.skipUnderlying else name.2)) _ _
  generalize (if name.2.atMark .colon = true then name.2.skipUnderlying else name.2) = rest at holds ⊢
  refine (runs_look holds 0).bind fun holds => .branch .rfl (fun _ => ?_) fun _ => ?_
  · exact (runs_skipGroup holds).bind fun holds => .pure holds _
  · refine (runs_look holds 0).bind fun holds => .branch .rfl (fun _ => .pure holds _) fun _ => ?_
    exact runs_giveUp held holds none

theorem runs_usingAlias (scope : List String) (holds : file.Holds c) :
    file.Runs d (file.usingAlias scope) c (c.usingAlias scope).1 (c.usingAlias scope).2 := by
  refine (runs_look holds 1).bind fun holds => (runs_look holds 2).bind fun holds => ?_
  unfold Cursor.usingAlias
  generalize c.rest.peekAt 1 = first
  generalize c.rest.peekAt 2 = second
  -- what does not begin with a name and `=` is skipped
  have skipped : file.Runs d (do file.skipDeclaration; return none) c (none : Option AliasDecl)
      c.skipDeclaration :=
    (runs_skipDeclaration holds).bind fun holds => .pure holds none
  cases first with
  | word name =>
    cases second with
    | mark m =>
      cases m with
      | equal =>
        refine (runs_bump holds).bind fun holds => (runs_span holds).bind fun holds => ?_
        refine (runs_bump holds).bind fun holds => (runs_bump holds).bind fun holds => ?_
        have taken := runs_takeStatement (d := d) holds
        dsimp only
        cases read : c.rest.advance.advance.advance.takeStatement with
        | error rest =>
          rw [show c.advance.advance.advance.rest.takeStatement = _ from read] at taken
          exact taken.bind fun holds => .pure holds none
        | ok statement =>
          rw [show c.advance.advance.advance.rest.takeStatement = _ from read] at taken
          refine taken.bind fun holds => ?_
          by_cases function : statement.body.any (·.token == .mark .openParen) = true
          · simp only [function, Bool.true_or, if_true]
            exact .pure holds none
          · refine .no function <| (Runs.lift holds (Tokens.stripIndirection?_eq _)).bind fun holds => ?_
            exact .branch (by simp [function]) (fun _ => .pure holds none) fun _ => .pure holds _
      | _ => exact skipped
    | _ => exact skipped
  | _ => exact skipped

end Small

end TokenFile

end HeaderMeta
