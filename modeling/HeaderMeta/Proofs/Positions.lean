import HeaderMeta.Proofs.Positions.Members
import HeaderMeta.Proofs.Progress

/-! A header read by positions.

The walk over a header keeps a position, the diagnostics and a depth counter, and it is checked at every
step. It is shown to end for every text, and to read what `Header.read` reads.
-/

set_option autoImplicit false

namespace HeaderMeta

abbrev ScopeWalk :=
  (body : String) → (scope : List String) → Namespace → Walk (Namespace × Option Limit)

namespace TokenFile

section Walks
variable (file : TokenFile)

def skipScope (ns : Namespace) : Walk Namespace := do
  file.skipDeclaration
  return ns

def scopeRecord (body : BodyWalk) (scope : List String) (isTemplate : Bool) (ns : Namespace) :
    Walk (Round Namespace) := do
  match ← file.record body scope [] isTemplate with
  | .error limit => return .refused ns limit
  | .ok (.definition decl) => do
    file.finishDeclaration
    return .again { ns with types := ns.types ++ if decl.name = "" then [] else [decl] }
  | .ok .forward => return .again ns
  | .ok .notDefinition => again (file.skipScope ns)

def close (message : String) (start : Span) : Walk Unit := do
  if ← file.eat .closeBrace then return else file.fail message start

def openNamespace (inner : ScopeWalk) (scope : List String) (ns : Namespace) :
    Walk (Round Namespace) := do
  let start ← file.span
  file.bump
  let _ ← file.attributeSpecifiers
  let names ← file.qualifiedName
  let _ ← file.attributeSpecifiers
  if (← file.look 0) == .mark .openBrace then do
    file.bump
    let (child, limit) ← inner "namespace" (scope ++ names) (ns.descend names)
    match limit with
    | some limit => return .refused (ns.graft names child) limit
    | none => do
      let label := if names.isEmpty then "<anonymous>" else joinScope names
      file.close ("Unterminated namespace '" ++ label ++ "'") start
      return .again (ns.graft names child)
  else again (file.skipScope ns)

def linkage (inner : ScopeWalk) (scope : List String) (ns : Namespace) : Walk (Round Namespace) := do
  let start ← file.span
  file.bump
  file.bump
  if (← file.look 0) == .mark .openBrace then do
    file.bump
    match ← inner "linkage block" scope ns with
    | (ns, some limit) => return .refused ns limit
    | (ns, none) => do
      file.close "Unterminated linkage block" start
      return .again ns
  else again (file.skipScope ns)

def scopeTemplate (body : BodyWalk) (scope : List String) (ns : Namespace) : Walk (Round Namespace) := do
  file.bump
  file.skipAngles
  match (← file.look 0).word?.bind RecordKey.ofWord? with
  | some _ => file.scopeRecord body scope true ns
  | none => again (file.skipScope ns)

def scopeEnum (scope : List String) (ns : Namespace) : Walk Namespace := do
  let decl? ← file.enumeration scope []
  file.finishDeclaration
  return { ns with enums := ns.enums ++ decl?.toList }

def scopeTypedef (body : BodyWalk) (scope : List String) (ns : Namespace) : Walk (Round Namespace) := do
  match ← file.typedef body scope [] with
  | .error limit => return .refused ns limit
  | .ok outcome =>
    return .again
      { ns with types := ns.types ++ outcome.types, aliases := ns.aliases ++ outcome.aliases }

def usingDirective (scope : List String) (ns : Namespace) : Walk Namespace := do
  if (← file.look 1) == .word "namespace" then do
    file.bump
    file.bump
    let names ← file.qualifiedName
    let target := joinScope names
    file.skipScope (if target = "" then ns else ns.addUsing target)
  else do
    let alias? ← file.usingAlias scope
    return { ns with aliases := ns.aliases ++ alias?.toList }

def scopeWord (body : BodyWalk) (inner : ScopeWalk) (scope : List String) (word : String)
    (ns : Namespace) : Walk (Round Namespace) := do
  let next ← file.look 1
  if word = "namespace" then file.openNamespace inner scope ns
  else if word = "inline" && next == .word "namespace" then do
    file.bump
    return .again ns
  else if word = "extern" && (next matches .stringLit _) then file.linkage inner scope ns
  else if word = "template" then file.scopeTemplate body scope ns
  else if (RecordKey.ofWord? word).isSome then file.scopeRecord body scope false ns
  else if word = "enum" then again (file.scopeEnum scope ns)
  else if word = "typedef" then file.scopeTypedef body scope ns
  else if word = "using" then again (file.usingDirective scope ns)
  else again (file.skipScope ns)

def scopeRound (body : BodyWalk) (inner : ScopeWalk) (scope : List String) (ns : Namespace) :
    Walk (Round Namespace) := do
  match ← file.look 0 with
  | .eof | .mark .closeBrace => return .done ns
  | .mark .semicolon => do
    file.bump
    return .again ns
  | .mark .openBracket | .mark .colonColon | .mark .tilde => again (file.skipScope ns)
  | .word word => file.scopeWord body inner scope word ns
  | other => do
    let span ← file.span
    file.warn ("Skipped unexpected '" ++ other.spelling ++ "'") span
    again (file.skipScope ns)

/-- Walk over the declarations of a scope. As in `typeBody`, the depth counter decides which bodies may
be opened. -/
def declarations : (levels : Nat) → (scope : List String) → Namespace → Walk (Namespace × Option Limit)
  | 0 => fun _ _ => failure
  | levels + 1 => fun scope =>
    file.loop "declarations" <|
      file.scopeRound (file.typeBody (levels + 1))
        (fun body scope ns => nested body ns (declarations levels scope ns)) scope

def fileRound (ns : Namespace) : Walk (Round Namespace) := do
  match ← file.declarations (maxDepth + 1) [] ns with
  | (ns, some limit) => return .refused ns limit
  | (ns, none) =>
    if (← file.look 0) == .eof then return .done ns
    else do
      let span ← file.span
      file.warn "Unmatched '\x7d'" span
      file.bump
      return .again ns

def declared : Walk Namespace := do
  match ← file.loop "file" file.fileRound {} with
  | (root, some limit) => do
    let span ← file.span
    file.fail limit.message span
    return root
  | (root, none) => return root

end Walks

variable {file : TokenFile} {d : Depth} {c : Cursor}

abbrev ScopeRuns (file : TokenFile) (d : Depth) (walk : Walk Namespace) (c : Cursor) (s : ScopeState) :
    Prop :=
  file.Runs d walk c s.ns s.cursor

abbrev ScopeRounds (file : TokenFile) (d : Depth) (walk : Walk (Round Namespace)) (c : Cursor)
    (r : Round ScopeState) : Prop :=
  file.Runs d walk c (r.map ScopeState.ns) r.state.cursor

/-- A walk over scopes that ends where the reader of scopes ends. -/
def InnerRuns (file : TokenFile) (d : Depth) (walk : ScopeWalk) (inner : ScopeReader) : Prop :=
  ∀ body scope (s : ScopeState), file.Holds s.cursor →
    file.Runs d (walk body scope s.ns) s.cursor ((inner body scope s).1.ns, (inner body scope s).2)
      (inner body scope s).1.cursor

section Scopes
variable {s : ScopeState} {types : BodyWalk} {body : BodyReader} {scopes : ScopeWalk}
  {inner : ScopeReader}

theorem ScopeRuns.branch {first second : Walk Namespace} {r s : ScopeState} {p q : Prop} [Decidable p]
    [Decidable q] (same : p ↔ q) (yes : q → file.ScopeRuns d first c r)
    (no : ¬q → file.ScopeRuns d second c s) :
    file.ScopeRuns d (if p then first else second) c (if q then r else s) :=
  Runs.select ScopeState.ns ScopeState.cursor same yes no

theorem ScopeRounds.branch {first second : Walk (Round Namespace)} {r s : Round ScopeState} {p q : Prop}
    [Decidable p] [Decidable q] (same : p ↔ q) (yes : q → file.ScopeRounds d first c r)
    (no : ¬q → file.ScopeRounds d second c s) :
    file.ScopeRounds d (if p then first else second) c (if q then r else s) :=
  Runs.select (Round.map ScopeState.ns) (fun r => r.state.cursor) same yes no

theorem ScopeRuns.again {walk : Walk Namespace} (run : file.ScopeRuns d walk c s) :
    file.ScopeRounds d (again walk) c (.again s) :=
  runs_again ScopeState.ns ScopeState.cursor run

theorem runs_skipScope (holds : file.Holds s.cursor) :
    file.ScopeRuns d (file.skipScope s.ns) s.cursor s.skip :=
  (runs_skipDeclaration holds).bind fun holds => .pure holds _

theorem runs_scopeRecord (bodies : BodyRuns file d types body) (scope : List String) (isTemplate : Bool)
    (holds : file.Holds s.cursor) :
    file.ScopeRounds d (file.scopeRecord types scope isTemplate s.ns) s.cursor
      (s.record body scope isTemplate) := by
  refine (runs_record bodies scope [] isTemplate holds).bind fun holds => ?_
  unfold ScopeState.record
  generalize s.cursor.record body scope [] isTemplate = read at holds ⊢
  obtain ⟨outcome, e⟩ := read
  cases outcome with
  | error limit => exact .pure holds _
  | ok outcome =>
    cases outcome with
    | definition decl => exact (runs_finishDeclaration holds).bind fun holds => .pure holds _
    | forward => exact .pure holds _
    | notDefinition => exact (runs_skipScope (s := { s with cursor := e }) holds).again

theorem runs_close (message : String) (start : Span) (holds : file.Holds s.cursor) :
    file.Runs d (file.close message start) s.cursor () (s.close message start).cursor := by
  have eaten := runs_eat (d := d) holds .closeBrace
  unfold ScopeState.close
  generalize s.cursor.eat .closeBrace = read at eaten ⊢
  obtain ⟨closed, e⟩ := read
  refine eaten.bind fun holds => ?_
  cases closed with
  | true => exact .yes rfl (.pure holds ())
  | false => exact .no nofun (runs_fail holds _ _)

theorem runs_closed (message : String) (start : Span) (holds : file.Holds s.cursor) :
    file.ScopeRounds d (do file.close message start; return .again s.ns) s.cursor
      (.again (s.close message start)) := by
  have same : (s.close message start).ns = s.ns := by
    unfold ScopeState.close
    split
    · rfl
    · rfl
  dsimp only [ScopeRounds, Round.map]
  rw [same]
  exact (runs_close message start holds).bind fun holds => .pure holds _

theorem runs_openNamespace (walks : InnerRuns file d scopes inner) (scope : List String)
    (holds : file.Holds s.cursor) :
    file.ScopeRounds d (file.openNamespace scopes scope s.ns) s.cursor
      (s.openNamespace inner scope) := by
  unfold ScopeState.openNamespace
  refine (runs_span holds).bind fun holds => (runs_bump holds).bind fun holds => ?_
  refine (runs_attributeSpecifiers holds).bind fun holds => ?_
  dsimp only
  generalize s.cursor.advance.attributeSpecifiers.2 = c at holds ⊢
  refine (runs_qualifiedName holds).bind fun holds => ?_
  generalize c.rest.qualifiedName = name at holds ⊢
  refine (runs_attributeSpecifiers holds).bind fun holds => ?_
  generalize (c.goto name.2).attributeSpecifiers.2 = e at holds ⊢
  refine (runs_look holds 0).bind fun holds => ScopeRounds.branch .rfl (fun _ => ?_) fun _ => ?_
  · refine (runs_bump holds).bind fun holds => (walks _ _ ⟨s.ns.descend name.1, e.advance⟩ holds).bind ?_
    intro holds
    generalize inner "namespace" (scope ++ name.1) ⟨s.ns.descend name.1, e.advance⟩ = run at holds ⊢
    obtain ⟨child, limit?⟩ := run
    cases limit? with
    | some limit => exact .pure holds _
    | none => exact runs_closed (s := ⟨s.ns.graft name.1 child.ns, child.cursor⟩) _ _ holds
  · exact (runs_skipScope (s := { s with cursor := e }) holds).again

theorem runs_linkage (walks : InnerRuns file d scopes inner) (scope : List String)
    (holds : file.Holds s.cursor) :
    file.ScopeRounds d (file.linkage scopes scope s.ns) s.cursor (s.linkage inner scope) := by
  unfold ScopeState.linkage
  refine (runs_span holds).bind fun holds => (runs_bump holds).bind fun holds => ?_
  refine (runs_bump holds).bind fun holds => (runs_look holds 0).bind fun holds => ?_
  refine ScopeRounds.branch .rfl (fun _ => ?_) fun _ => ?_
  · refine (runs_bump holds).bind fun holds =>
      (walks _ _ { s with cursor := s.cursor.advance.advance.advance } holds).bind fun holds => ?_
    generalize inner "linkage block" scope { s with cursor := s.cursor.advance.advance.advance } = run
      at holds ⊢
    obtain ⟨final, limit?⟩ := run
    cases limit? with
    | some limit => exact .pure holds _
    | none => exact runs_closed _ _ holds
  · exact (runs_skipScope (s := { s with cursor := s.cursor.advance.advance }) holds).again

theorem runs_scopeTemplate (bodies : BodyRuns file d types body) (scope : List String)
    (holds : file.Holds s.cursor) :
    file.ScopeRounds d (file.scopeTemplate types scope s.ns) s.cursor (s.template body scope) := by
  refine (runs_bump holds).bind fun holds => (runs_skipAngles holds).bind fun holds => ?_
  refine (runs_look holds 0).bind fun holds => ?_
  unfold ScopeState.template
  dsimp only
  rw [show ((s.cursor.advance.goto s.cursor.advance.rest.skipAngles).rest.peekAt 0).word? =
    (s.cursor.goto s.cursor.rest.advance.skipAngles).rest.word? from rfl]
  cases (s.cursor.goto s.cursor.rest.advance.skipAngles).rest.word?.bind RecordKey.ofWord? with
  | some key => exact runs_scopeRecord (s := { s with cursor := s.cursor.goto _ }) bodies scope true holds
  | none => exact (runs_skipScope (s := { s with cursor := s.cursor.goto _ }) holds).again

theorem runs_scopeEnum (scope : List String) (holds : file.Holds s.cursor) :
    file.ScopeRuns d (file.scopeEnum scope s.ns) s.cursor (s.enumeration scope) :=
  (runs_enumeration scope [] holds).bind fun holds => (runs_finishDeclaration holds).bind
    fun holds => .pure holds _

theorem runs_scopeTypedef (bodies : BodyRuns file d types body) (scope : List String)
    (holds : file.Holds s.cursor) :
    file.ScopeRounds d (file.scopeTypedef types scope s.ns) s.cursor (s.typedef body scope) := by
  refine (runs_typedef bodies scope [] holds).bind fun holds => ?_
  unfold ScopeState.typedef
  generalize s.cursor.typedef body scope [] = read at holds ⊢
  obtain ⟨outcome, e⟩ := read
  cases outcome with
  | error limit => exact .pure holds _
  | ok outcome => exact .pure holds _

theorem runs_usingDirective (scope : List String) (holds : file.Holds s.cursor) :
    file.ScopeRuns d (file.usingDirective scope s.ns) s.cursor (s.usingDirective scope) := by
  refine (runs_look holds 1).bind fun holds => ScopeRuns.branch .rfl (fun _ => ?_) fun _ => ?_
  · refine (runs_bump holds).bind fun holds => (runs_bump holds).bind fun holds => ?_
    exact (runs_qualifiedName holds).bind fun holds => (runs_skipDeclaration holds).bind
      fun holds => .pure holds _
  · exact (runs_usingAlias scope holds).bind fun holds => .pure holds _

theorem runs_scopeWord (bodies : BodyRuns file d types body) (walks : InnerRuns file d scopes inner)
    (scope : List String) (word : String) (holds : file.Holds s.cursor) :
    file.ScopeRounds d (file.scopeWord types scopes scope word s.ns) s.cursor
      (s.wordRound body inner scope word) := by
  refine (runs_look holds 1).bind fun holds => ?_
  refine ScopeRounds.branch .rfl (fun _ => runs_openNamespace walks scope holds) fun _ => ?_
  refine ScopeRounds.branch .rfl (fun _ => (runs_bump holds).bind fun holds => .pure holds _) fun _ => ?_
  refine ScopeRounds.branch .rfl (fun _ => runs_linkage walks scope holds) fun _ => ?_
  refine ScopeRounds.branch .rfl (fun _ => runs_scopeTemplate bodies scope holds) fun _ => ?_
  refine ScopeRounds.branch .rfl (fun _ => runs_scopeRecord bodies scope false holds) fun _ => ?_
  refine ScopeRounds.branch .rfl (fun _ => (runs_scopeEnum scope holds).again) fun _ => ?_
  refine ScopeRounds.branch .rfl (fun _ => runs_scopeTypedef bodies scope holds) fun _ => ?_
  refine ScopeRounds.branch .rfl (fun _ => (runs_usingDirective scope holds).again) fun _ => ?_
  exact (runs_skipScope holds).again

theorem runs_scopeRound (bodies : BodyRuns file d types body) (walks : InnerRuns file d scopes inner)
    (scope : List String) (holds : file.Holds s.cursor) :
    file.ScopeRounds d (file.scopeRound types scopes scope s.ns) s.cursor
      (s.round body inner scope) := by
  refine (runs_look holds 0).bind fun holds => ?_
  unfold ScopeState.round
  rw [show s.cursor.peek = s.cursor.rest.peekAt 0 from rfl]
  generalize s.cursor.rest.peekAt 0 = token
  have unexpected (message : String) : file.ScopeRounds d
      (do let span ← file.span; file.warn message span; again (file.skipScope s.ns)) s.cursor
      (.again { s with cursor := s.cursor.warn message s.cursor.here }.skip) :=
    (runs_span holds).bind fun holds => (runs_warn holds _ _).bind fun holds =>
      (runs_skipScope (s := { s with cursor := s.cursor.warn _ _ }) holds).again
  cases token with
  | eof => exact .pure holds _
  | word word => exact runs_scopeWord bodies walks scope word holds
  | mark m =>
    cases m with
    | closeBrace => exact .pure holds _
    | semicolon => exact (runs_bump holds).bind fun holds => .pure holds _
    | openBracket | colonColon | tilde => exact (runs_skipScope holds).again
    | _ => exact unexpected _
  | _ => exact unexpected _

end Scopes

section Files

/-- While fewer bodies are open than may be, the walk over a scope reads what `declarations` reads with
as many more bodies to open. -/
theorem runs_declarations {levels room : Nat} (deep : room < levels) (depth : d.depth + room = maxDepth)
    (scope : List String) (s : ScopeState) (holds : file.Holds s.cursor) :
    file.Runs d (file.declarations levels scope s.ns) s.cursor
      ((HeaderMeta.declarations room scope s).1.ns, (HeaderMeta.declarations room scope s).2)
      (HeaderMeta.declarations room scope s).1.cursor := by
  induction levels generalizing room d scope s with
  | zero => exact absurd deep (Nat.not_lt_zero room)
  | succ levels ih =>
    have bodies : BodyRuns file d _ _ := runs_typeBody deep depth
    have inner : InnerRuns file d
        (fun body scope ns => nested body ns (file.declarations levels scope ns))
        (Grammar.innerReader room) := by
      intro body scope s holds
      cases room with
      | zero => exact runs_nested_full (Nat.le_of_eq depth.symm) holds
      | succ room =>
        exact runs_nested (by omega) (ih (Nat.lt_of_succ_lt_succ deep) (by simp only; omega) scope s holds)
    rw [Grammar.declarations_eq]
    exact runs_loop ScopeState.ns ScopeState.cursor "declarations"
      (fun s holds => runs_scopeRound bodies inner scope holds) s holds

theorem runs_fileRound {s : ScopeState} (holds : file.Holds s.cursor) :
    file.ScopeRounds {} (file.fileRound s.ns) s.cursor (HeaderMeta.fileRound s) := by
  refine (runs_declarations (Nat.lt_succ_self maxDepth) (Nat.zero_add _) [] s holds).bind
    fun holds => ?_
  unfold HeaderMeta.fileRound
  generalize HeaderMeta.declarations maxDepth [] s = run at holds ⊢
  obtain ⟨final, limit?⟩ := run
  cases limit? with
  | some limit => exact .pure holds _
  | none =>
    refine (runs_look holds 0).bind fun holds => ScopeRounds.branch .rfl (fun _ => .pure holds _) ?_
    exact fun _ => (runs_span holds).bind fun holds => (runs_warn holds _ _).bind fun holds =>
      (runs_bump holds).bind fun holds => .pure holds _

end Files

section Sources

theorem tokenOf_ne_eof (x : Lexeme) : Lexing.tokenOf x ≠ some .eof := by
  unfold Lexing.tokenOf
  dsimp only
  split
  case h_6 => cases x.text.head? <;> simp
  all_goals simp

theorem sealed_place (p : Position) (xs : List Lexeme) :
    ∃ init last, (Lexing.place p xs).tokens = init ++ [last] ∧ last.token = Token.eof ∧
      ∀ t ∈ init, t.token ≠ Token.eof := by
  induction xs generalizing p with
  | nil => exact ⟨[], _, rfl, rfl, nofun⟩
  | cons x xs ih =>
    obtain ⟨init, last, same, eof, inner⟩ := ih (p.after x.text)
    refine ⟨((Lexing.tokenOf x).map (⟨·, p.spanOf x.text⟩)).toList ++ init, last, ?_, eof, ?_⟩
    · rw [Lexing.place, List.append_assoc, ← same]
    · intro t mem
      rcases List.mem_append.mp mem with own | mem
      · obtain ⟨token, read, rfl⟩ := Option.map_eq_some_iff.mp (Option.mem_toList.mp own)
        rintro rfl
        exact tokenOf_ne_eof x read
      · exact inner t mem

def ofSource (source : Source) : TokenFile :=
  ⟨source, (Lexing.ofText source.text).tokens, sealed_place .start _⟩

theorem holds_start (source : Source) : (ofSource source).Holds (Header.start source).cursor :=
  ⟨rfl, .refl _⟩

theorem seat_start (source : Source) :
    (ofSource source).seat {} (Header.start source).cursor =
      { pos := 0, issues := (Header.start source).cursor.issues } :=
  congrArg (fun pos => (⟨pos, _, {}⟩ : Seat)) (Nat.sub_self _)

end Sources

end TokenFile

namespace Header

/-- Read a header by positions. The walk starts at the first token, with no body open. -/
def walk (source : Source) : Option (Header × Seat) := do
  let lexing := Lexing.ofText source.text
  let (root, seat) ← (TokenFile.ofSource source).declared
    { pos := 0, issues := lexing.faults.map (faultDiagnostic source.path) }
  some ({ root, includes := lexing.includes, diagnostics := seat.issues }, seat)

def final (source : Source) : Cursor :=
  (run source).2.elim (run source).1.cursor fun limit =>
    (run source).1.cursor.fail limit.message (run source).1.cursor.here

theorem read_eq (source : Source) :
    read source =
      { root := (run source).1.ns, includes := (Lexing.ofText source.text).includes
        diagnostics := (final source).issues } := by
  unfold read final run start
  dsimp only
  generalize Guard.loop "file" ScopeState.position fileRound _ = run
  obtain ⟨s, limit?⟩ := run
  cases limit? with
  | none => rfl
  | some limit => rfl

theorem runs_declared (source : Source) :
    (TokenFile.ofSource source).Runs {} (TokenFile.ofSource source).declared (start source).cursor
      (run source).1.ns (final source) := by
  have rounds : TokenFile.Runs _ _ _ _ ((run source).1.ns, (run source).2) (run source).1.cursor :=
    TokenFile.runs_loop ScopeState.ns ScopeState.cursor "file"
      (fun s holds => TokenFile.runs_fileRound holds) (start source) (TokenFile.holds_start source)
  refine rounds.bind fun holds => ?_
  unfold final
  generalize run source = r at holds ⊢
  obtain ⟨s, limit?⟩ := r
  cases limit? with
  | none => exact .pure holds _
  | some limit =>
    exact (TokenFile.runs_span holds).bind fun holds => (TokenFile.runs_fail holds _ _).bind
      fun holds => .pure holds _

/-- Reading never leaves the file. Every look and every move of the walk is at a position of the file,
no counter is taken below zero, every slice that is cut is there, and no loop runs out of its rounds:
for every text the walk ends, and it reads what `read` reads. Whether or not a limit was met, no body is
open at its end. -/
theorem walk_reads (source : Source) :
    ∃ final, walk source = some (read source, final) ∧
      final.pos < (Lexing.ofText source.text).tokens.length ∧ final.depth.depth = 0 := by
  have done := runs_declared source
  have run := done.run
  rw [TokenFile.seat_start] at run
  refine ⟨(TokenFile.ofSource source).seat {} (final source), ?_,
    TokenFile.position_lt done.holds.ahead, rfl⟩
  change ((TokenFile.ofSource source).declared
    { pos := 0, issues := (start source).cursor.issues }).bind _ = _
  rw [run, Option.bind_some, read_eq]
  rfl

end Header

end HeaderMeta
