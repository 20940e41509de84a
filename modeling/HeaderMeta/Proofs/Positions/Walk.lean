import HeaderMeta.Proofs.Positions.Tokens

/-! Walks over a file by positions.

A walk holds the number of the next token, the diagnostics so far and the depth counter. It is checked
at every look and every move: `none` stands for a position that is not in the file, for a counter below
zero, for a slice that is not there and for a loop with no round left. `Runs` says that a walk ends, and
that it ends where a cursor does that moves over what is left of the file.
-/

set_option autoImplicit false

namespace HeaderMeta

structure Seat where
  pos : Nat
  issues : List Diagnostic := []
  depth : Depth := {}

/-- What is read from a seat, and the seat after it. -/
abbrev Walk := StateT Seat Option

namespace TokenFile
variable (file : TokenFile)

section Steps

def place : Walk Nat := do
  let seat ← get
  if seat.pos < file.tokens.length then return seat.pos else failure

def seek (pos : Nat) : Walk Unit :=
  if pos < file.tokens.length then modify fun seat => { seat with pos } else failure

def look (n : Nat) : Walk Token := do
  return file.peekAt (← file.place) n

def bump : Walk Unit := do
  file.seek (file.next (← file.place))

def eat (m : Mark) : Walk Bool := do
  if (← file.look 0) = .mark m then do
    file.bump
    return true
  else return false

def spanAt (pos : Nat) : Span :=
  match file.tokens[pos]?.or file.tokens.getLast? with
  | some t => t.span
  | none => {}

def span : Walk Span := do
  return file.spanAt (← file.place)

def report (severity : Severity) (message : String) (span : Span) : Walk Unit :=
  modify fun seat =>
    { seat with issues := seat.issues ++ [{ severity, message, path := file.source.path, span }] }

def warn (message : String) (span : Span) : Walk Unit :=
  file.report .warning message span

def fail (message : String) (span : Span) : Walk Unit :=
  file.report .error message span

def enter (body : String) : Walk (Option Limit) := do
  let seat ← get
  match seat.depth.enter body with
  | .error limit => return some limit
  | .ok depth => do
    set { seat with depth }
    return none

def leave : Walk Unit :=
  modify fun seat => { seat with depth := seat.depth.leave }

def move {α : Type} (f : Nat → Option (α × Nat)) : Walk α := do
  let (a, pos) ← f (← file.place)
  file.seek pos
  return a

def moveTo (f : Nat → Option Nat) : Walk Unit := do
  file.seek (← f (← file.place))

/-- Take a walk only on a condition. -/
def onlyIf (b : Bool) (walk : Walk Unit) : Walk Unit :=
  if b then walk else pure ()

end Steps

section Moves

def skipGroup : Walk Span := do
  return file.spanAt (← file.move file.skipGroup?)

def skipAngles : Walk Unit :=
  file.moveTo file.skipAngles?

def skipDeclaration : Walk Unit :=
  file.moveTo (file.skipFrom? file.tokens.length 0)

def takeStatement : Walk (Option Tokens) :=
  file.move fun pos => file.takeFrom? pos file.tokens.length 0 pos

def declaresFunction : Walk Bool := do
  file.declaresFunction? (← file.place)

def finishDeclaration : Walk Unit := do
  if ← file.eat .semicolon then return else file.skipDeclaration

def nameParts : (left : Nat) → Walk (List String)
  | 0 => failure
  | left + 1 => do
    match ← file.look 0 with
    | .word word => do
      file.bump
      let own := if word = "inline" then [] else [word]
      if (← file.look 0) == .mark .colonColon && (← file.look 1).isWord then do
        file.bump
        return own ++ (← nameParts left)
      else return own
    | _ => return []

def qualifiedName : Walk (List String) := do
  let _ ← file.eat .colonColon
  file.nameParts file.tokens.length

def skipAttributesFrom : (left : Nat) → Walk Unit
  | 0 => failure
  | left + 1 => do
    if (← file.look 0) = .eof then return
    else if (← file.look 0) == .mark .closeBracket && (← file.look 1) == .mark .closeBracket then do
      file.bump
      file.bump
    else do
      file.bump
      skipAttributesFrom left

def skipAttributes : Walk Unit :=
  file.skipAttributesFrom file.tokens.length

def skipUnderlyingFrom : (left : Nat) → Walk Unit
  | 0 => failure
  | left + 1 => do
    match ← file.look 0 with
    | .mark .openBrace | .mark .semicolon | .mark .closeBrace | .eof => return
    | _ => do
      file.bump
      skipUnderlyingFrom left

def skipUnderlying : Walk Unit :=
  file.skipUnderlyingFrom file.tokens.length

end Moves

structure Holds (c : Cursor) : Prop where
  source : c.source = file.source
  ahead : file.tokens.Ahead c.rest

def seat (d : Depth) (c : Cursor) : Seat :=
  ⟨file.position c.rest, c.issues, d⟩

/-- The walk that starts where `c` stands ends where `e` stands and finds `a`. The bodies that are open
are the same again. -/
structure Runs {α : Type} (d : Depth) (walk : Walk α) (c : Cursor) (a : α) (e : Cursor) : Prop where
  run : walk (file.seat d c) = some (a, file.seat d e)
  holds : file.Holds e

variable {file} {α β : Type} {d : Depth} {c e g : Cursor} {ts : Tokens}

theorem Holds.closed (holds : file.Holds c) : c.rest.Closed :=
  holds.ahead.closed file.closed_tokens

/-- Something is left wherever a cursor stands, so there is a round for it. -/
theorem Holds.exists_round {left : Nat} (holds : file.Holds c) (enough : c.rest.length ≤ left) :
    ∃ fewer, left = fewer + 1 ∧ ∀ ts : Tokens, ts.length < c.rest.length → ts.length ≤ fewer := by
  obtain ⟨t, us, rest⟩ := List.exists_cons_of_ne_nil holds.closed.ne_nil
  rw [rest, List.length_cons] at enough ⊢
  obtain ⟨fewer, rfl, more⟩ := HeaderMeta.exists_round enough
  exact ⟨fewer, rfl, fun ts further => (Nat.le_of_lt_succ further).trans more⟩

-- Whatever a walk does, the cursor it ends at stands in the file again: `bind` hands that on, so that
-- no later step has to show it.
namespace Runs

theorem pure (holds : file.Holds c) (a : α) : file.Runs d (Pure.pure a) c a c :=
  ⟨rfl, holds⟩

theorem bind {walk : Walk α} {next : α → Walk β} {a : α} {b : β} (first : file.Runs d walk c a e)
    (then' : file.Holds e → file.Runs d (next a) e b g) : file.Runs d (walk >>= next) c b g where
  run := by
    show (walk (file.seat d c)).bind (fun p => next p.1 p.2) = _
    rw [first.run, Option.bind_some, (then' first.holds).run]
  holds := (then' first.holds).holds

theorem yes {first second : Walk α} {a : α} {p : Prop} [Decidable p] (holds : p)
    (run : file.Runs d first c a e) : file.Runs d (if p then first else second) c a e := by
  rwa [if_pos holds]

theorem no {first second : Walk α} {a : α} {p : Prop} [Decidable p] (fails : ¬p)
    (run : file.Runs d second c a e) : file.Runs d (if p then first else second) c a e := by
  rwa [if_neg fails]

/-- A walk and a reader that turn off at the same place. `view` is what the walk finds of where the
reader ends. -/
theorem select {σ : Type} (view : σ → α) (cursor : σ → Cursor) {first second : Walk α} {r s : σ}
    {p q : Prop} [Decidable p] [Decidable q] (same : p ↔ q)
    (yes : q → file.Runs d first c (view r) (cursor r))
    (no : ¬q → file.Runs d second c (view s) (cursor s)) :
    file.Runs d (if p then first else second) c (view (if q then r else s))
      (cursor (if q then r else s)) := by
  by_cases here : q
  · rw [if_pos here, if_pos (same.mpr here)]
    exact yes here
  · rw [if_neg here, if_neg (mt same.mp here)]
    exact no here

theorem branch {first second : Walk α} {r s : α × Cursor} {p q : Prop} [Decidable p] [Decidable q]
    (same : p ↔ q) (yes : q → file.Runs d first c r.1 r.2) (no : ¬q → file.Runs d second c s.1 s.2) :
    file.Runs d (if p then first else second) c (if q then r else s).1 (if q then r else s).2 :=
  select Prod.fst Prod.snd same yes no

theorem lift {found : Option α} {a : α} (holds : file.Holds c) (there : found = some a) :
    file.Runs d (liftM found) c a c := by
  subst there
  exact ⟨rfl, holds⟩

theorem onlyIf {walk : Walk Unit} (run : file.Runs d walk c () e) (holds : file.Holds c) (b : Bool) :
    file.Runs d (onlyIf b walk) c () (if b then e else c) := by
  cases b with
  | true => exact run
  | false => exact .pure holds ()

theorem onlyIf_goto {walk : Walk Unit} (run : file.Runs d walk c () (c.goto ts)) (holds : file.Holds c)
    (b : Bool) : file.Runs d (TokenFile.onlyIf b walk) c () (c.goto (if b then ts else c.rest)) := by
  cases b with
  | true => exact run
  | false => exact .pure holds ()

end Runs

section Steps

theorem runs_place (holds : file.Holds c) : file.Runs d file.place c (file.position c.rest) c where
  run := by
    show (if file.position c.rest < file.tokens.length then _ else failure : Walk Nat) _ = _
    rw [if_pos (position_lt holds.ahead)]
    rfl
  holds := holds

theorem runs_seek (holds : file.Holds c) (ahead : file.tokens.Ahead ts) :
    file.Runs d (file.seek (file.position ts)) c () (c.goto ts) where
  run := by
    rw [seek, if_pos (position_lt ahead)]
    rfl
  holds := ⟨holds.source, ahead⟩

theorem runs_look (holds : file.Holds c) (n : Nat) :
    file.Runs d (file.look n) c (c.rest.peekAt n) c :=
  (runs_place holds).bind fun holds => peekAt_position holds.ahead n ▸ .pure holds _

theorem runs_bump (holds : file.Holds c) : file.Runs d file.bump c () c.advance :=
  (runs_place holds).bind fun holds => next_position holds.ahead ▸
    runs_seek holds (holds.ahead.trans (Tokens.ahead_advance c.rest))

theorem runs_eat (holds : file.Holds c) (m : Mark) :
    file.Runs d (file.eat m) c (c.eat m).1 (c.eat m).2 := by
  refine (runs_look holds 0).bind fun holds => ?_
  unfold Cursor.eat Tokens.eat Tokens.atMark Tokens.peek
  by_cases here : c.rest.peekAt 0 = .mark m
  · simp only [here, if_true, beq_self_eq_true]
    exact (runs_bump holds).bind fun holds => .pure holds true
  · simp only [here, if_false, beq_iff_eq]
    exact .pure holds false

/-- A mark is eaten, or the cursor stays where it is. -/
theorem eat_cases (c : Cursor) (m : Mark) : c.eat m = (true, c.advance) ∨ c.eat m = (false, c) := by
  unfold Cursor.eat Tokens.eat
  by_cases here : c.rest.atMark m = true
  · exact .inl (by simp only [if_pos here]; rfl)
  · exact .inr (by simp only [if_neg here]; rfl)

theorem spanAt_position (ahead : file.tokens.Ahead ts) : file.spanAt (file.position ts) = ts.here := by
  have here : file.tokens[file.position ts]? = ts[0]? := by
    rw [← Nat.add_zero (file.position ts), ← List.getElem?_drop, drop_position ahead]
  unfold spanAt
  rw [here]
  match ts with
  | [] => exact absurd rfl (ahead.closed file.closed_tokens).ne_nil
  | t :: ts => rfl

theorem runs_span (holds : file.Holds c) : file.Runs d file.span c c.here c :=
  (runs_place holds).bind fun holds => spanAt_position holds.ahead ▸ .pure holds _

theorem runs_report (holds : file.Holds c) (severity : Severity) (message : String) (span : Span) :
    file.Runs d (file.report severity message span) c () (c.report severity message span) where
  run := by
    unfold Cursor.report
    rw [holds.source]
    rfl
  holds := ⟨holds.source, holds.ahead⟩

theorem runs_warn (holds : file.Holds c) (message : String) (span : Span) :
    file.Runs d (file.warn message span) c () (c.warn message span) :=
  runs_report holds .warning message span

theorem runs_fail (holds : file.Holds c) (message : String) (span : Span) :
    file.Runs d (file.fail message span) c () (c.fail message span) :=
  runs_report holds .error message span

theorem runs_move {f : Nat → Option (α × Nat)} {a : α} (holds : file.Holds c)
    (found : f (file.position c.rest) = some (a, file.position ts)) (ahead : c.rest.Ahead ts) :
    file.Runs d (file.move f) c a (c.goto ts) :=
  (runs_place holds).bind fun holds => (Runs.lift holds found).bind fun holds =>
    (runs_seek holds (holds.ahead.trans ahead)).bind fun holds => .pure holds a

theorem runs_moveTo {f : Nat → Option Nat} (holds : file.Holds c)
    (found : f (file.position c.rest) = some (file.position ts)) (ahead : c.rest.Ahead ts) :
    file.Runs d (file.moveTo f) c () (c.goto ts) :=
  (runs_place holds).bind fun holds => (Runs.lift holds found).bind fun holds =>
    runs_seek holds (holds.ahead.trans ahead)

end Steps

section Moves
variable {t : Placed}

theorem ahead_toClose (ts : Tokens) : ts.Ahead ts.toClose := by
  unfold Tokens.toClose
  split
  next m span rest =>
    split
    next close _ => exact (Tokens.ahead_findClose m close 0 rest).cons (by simp)
    next => exact .refl _
  next => exact .refl _

theorem runs_skipGroup (holds : file.Holds c) :
    file.Runs d file.skipGroup c c.rest.toClose.here (c.goto c.rest.skipGroup) :=
  (runs_move holds (skipGroup?_position holds.ahead) (Tokens.ahead_skipGroup c.rest)).bind fun after =>
    spanAt_position (holds.ahead.trans (ahead_toClose c.rest)) ▸ .pure after _

theorem runs_skipAngles (holds : file.Holds c) :
    file.Runs d file.skipAngles c () (c.goto c.rest.skipAngles) :=
  runs_moveTo holds (skipAngles?_position holds.ahead) (Tokens.ahead_skipAngles c.rest)

theorem runs_skipDeclaration (holds : file.Holds c) :
    file.Runs d file.skipDeclaration c () c.skipDeclaration :=
  runs_moveTo holds (skipFrom?_position holds.ahead holds.ahead.length_le) (Tokens.ahead_skipDeclaration c.rest)

theorem runs_takeStatement (holds : file.Holds c) :
    match c.rest.takeStatement with
    | .ok statement =>
      file.Runs d file.takeStatement c (some statement.body) (c.goto statement.rest)
    | .error rest => file.Runs d file.takeStatement c none (c.goto rest) := by
  have found := takeFrom?_position 0 holds.ahead (.refl c.rest) holds.ahead.length_le
  have moved := Tokens.ahead_takeStatement c.rest
  rw [Tokens.upTo_self] at found
  change file.takeFrom? _ _ 0 _ = some (file.taken [] c.rest.takeStatement) at found
  split
  next statement read =>
    rw [read] at found moved
    exact runs_move holds found moved
  next rest read =>
    rw [read] at found moved
    exact runs_move holds found moved

theorem runs_declaresFunction (holds : file.Holds c) :
    file.Runs d file.declaresFunction c c.rest.declaresFunction c :=
  (runs_place holds).bind fun holds => .lift holds (declaresFunction?_position holds.ahead)

theorem runs_finishDeclaration (holds : file.Holds c) :
    file.Runs d file.finishDeclaration c () c.finishDeclaration := by
  refine (runs_eat holds .semicolon).bind fun holds => ?_
  unfold Cursor.finishDeclaration
  cases read : c.eat .semicolon with
  | mk eaten after =>
    rw [read] at holds
    cases eaten with
    | true => exact .pure holds ()
    | false => exact runs_skipDeclaration holds

theorem runs_bump_tail (holds : file.Holds c) (here : c.rest = t :: ts) (inside : t.token ≠ .eof) :
    file.Runs d file.bump c () (c.goto ts) := by
  have closed : Tokens.Closed ts := (here ▸ holds.closed : Tokens.Closed (t :: ts)).tail inside
  have advanced : c.advance = c.goto ts := by
    rw [Cursor.advance, here, Tokens.advance_cons closed.ne_nil]
  exact advanced ▸ runs_bump holds

theorem runs_eat_tail {m : Mark} {span : Span} (holds : file.Holds c)
    (here : c.rest = ⟨.mark m, span⟩ :: ts) : file.Runs d (file.eat m) c true (c.goto ts) := by
  have atMark : c.rest.peekAt 0 = .mark m := by simp [here]
  exact (runs_look holds 0).bind fun holds => .yes atMark <|
    (runs_bump_tail holds here (by simp)).bind fun holds => .pure holds true

theorem runs_eat_other {m : Mark} (holds : file.Holds c) (other : c.rest.peek ≠ .mark m) :
    file.Runs d (file.eat m) c false c :=
  (runs_look holds 0).bind fun holds => .no other (.pure holds false)

theorem runs_nameParts {left : Nat} (holds : file.Holds (c.goto ts)) (enough : ts.length ≤ left) :
    file.Runs d (file.nameParts left) (c.goto ts) (Tokens.nameParts ts).1
      (c.goto (Tokens.nameParts ts).2) := by
  fun_induction Tokens.nameParts ts generalizing left with
  | case1 word span own span' next goesOn parts after read =>
    rename_i ih
    obtain ⟨left, rfl, more⟩ := exists_round enough
    rw [nameParts]
    refine (runs_look holds 0).bind fun holds => (runs_bump_tail holds rfl (by simp)).bind fun holds => ?_
    refine (runs_look holds 0).bind fun holds => (runs_look holds 1).bind fun holds => ?_
    refine .yes goesOn <| (runs_bump_tail holds rfl (by simp)).bind fun holds => ?_
    have rest := ih holds (Nat.le_of_succ_le more)
    rw [read] at rest
    exact rest.bind fun holds => .pure holds _
  | case2 word span own span' next =>
    rename_i last
    obtain ⟨left, rfl, -⟩ := exists_round enough
    rw [nameParts]
    refine (runs_look holds 0).bind fun holds => (runs_bump_tail holds rfl (by simp)).bind fun holds => ?_
    refine (runs_look holds 0).bind fun holds => (runs_look holds 1).bind fun holds => ?_
    exact .no last (.pure holds _)
  | case3 word span rest own =>
    rename_i last
    obtain ⟨left, rfl, -⟩ := exists_round enough
    rw [nameParts]
    refine (runs_look holds 0).bind fun holds => (runs_bump_tail holds rfl (by simp)).bind fun holds => ?_
    refine (runs_look holds 0).bind fun holds => (runs_look holds 1).bind fun holds => ?_
    refine .no ?_ (.pure holds _)
    obtain ⟨⟨token, span⟩, rest, rfl⟩ := List.exists_cons_of_ne_nil holds.closed.ne_nil
    simp only [Cursor.rest_goto, Tokens.peekAt_zero, Bool.and_eq_true, beq_iff_eq, not_and]
    rintro rfl
    exact (last _ _ rfl).elim
  | case4 ts none =>
    obtain ⟨⟨token, span⟩, rest, rfl⟩ := List.exists_cons_of_ne_nil holds.closed.ne_nil
    obtain ⟨left, rfl, -⟩ := exists_round enough
    rw [nameParts]
    refine (runs_look holds 0).bind fun holds => ?_
    cases token with
    | word word => exact (none _ _ _ rfl).elim
    | _ => exact .pure holds _

theorem runs_qualifiedName (holds : file.Holds c) :
    file.Runs d file.qualifiedName c c.rest.qualifiedName.1 (c.goto c.rest.qualifiedName.2) := by
  refine (runs_eat holds .colonColon).bind fun holds => ?_
  unfold Tokens.qualifiedName
  have same : (c.eat .colonColon).2 =
      c.goto (if c.rest.atMark .colonColon then c.rest.advance else c.rest) := by
    unfold Cursor.eat Tokens.eat
    by_cases here : c.rest.atMark .colonColon = true <;> simp [here]
  rw [same] at holds ⊢
  exact runs_nameParts holds holds.ahead.length_le

theorem runs_skipAttributesFrom {left : Nat} (holds : file.Holds (c.goto ts)) (enough : ts.length ≤ left) :
    file.Runs d (file.skipAttributesFrom left) (c.goto ts) () (c.goto ts.skipAttributes) := by
  fun_induction Tokens.skipAttributes ts generalizing left with
  | case1 => exact absurd rfl holds.closed.ne_nil
  | case2 t ts eof =>
    obtain ⟨left, rfl, -⟩ := exists_round enough
    rw [skipAttributesFrom]
    exact (runs_look holds 0).bind fun holds => .yes eof (.pure holds _)
  | case3 t ts inside ends =>
    obtain ⟨left, rfl, -⟩ := exists_round enough
    rw [skipAttributesFrom]
    refine (runs_look holds 0).bind fun holds => .no inside <| (runs_look holds 0).bind fun holds => ?_
    refine (runs_look holds 1).bind fun holds => .yes ends ?_
    exact (runs_bump_tail holds rfl inside).bind fun holds => runs_bump holds
  | case4 t ts inside goesOn ih =>
    obtain ⟨left, rfl, more⟩ := exists_round enough
    rw [skipAttributesFrom]
    refine (runs_look holds 0).bind fun holds => .no inside <| (runs_look holds 0).bind fun holds => ?_
    refine (runs_look holds 1).bind fun holds => .no goesOn ?_
    exact (runs_bump_tail holds rfl inside).bind fun holds => ih holds more

theorem runs_skipAttributes (holds : file.Holds c) :
    file.Runs d file.skipAttributes c () (c.goto c.rest.skipAttributes) :=
  runs_skipAttributesFrom holds holds.ahead.length_le

theorem runs_skipUnderlyingFrom {left : Nat} (holds : file.Holds (c.goto ts)) (enough : ts.length ≤ left) :
    file.Runs d (file.skipUnderlyingFrom left) (c.goto ts) () (c.goto ts.skipUnderlying) := by
  fun_induction Tokens.skipUnderlying ts generalizing left with
  | case1 => exact absurd rfl holds.closed.ne_nil
  | case6 t ts noBrace noSemicolon noClose inside ih =>
    obtain ⟨left, rfl, more⟩ := exists_round enough
    rw [skipUnderlyingFrom]
    refine (runs_look holds 0).bind fun holds => ?_
    split
    next found => exact (noBrace found).elim
    next found => exact (noSemicolon found).elim
    next found => exact (noClose found).elim
    next found => exact (inside found).elim
    next => exact (runs_bump_tail holds rfl inside).bind fun holds => ih holds more
  | _ t ts token =>
    obtain ⟨left, rfl, -⟩ := exists_round enough
    rw [skipUnderlyingFrom]
    refine (runs_look holds 0).bind fun holds => ?_
    obtain ⟨_, span⟩ := t
    cases token
    exact .pure holds ()

theorem runs_skipUnderlying (holds : file.Holds c) :
    file.Runs d file.skipUnderlying c () (c.goto c.rest.skipUnderlying) :=
  runs_skipUnderlyingFrom holds holds.ahead.length_le

end Moves

end TokenFile

end HeaderMeta
