import HeaderMeta.Proofs.Progress.Records

/-! Rounds of a loop, and the member list of a record.

A round that is not the last one moves on by a token at least. So a loop never stands still, and it
runs out of rounds only over as many tokens (`Guard.loop_moves`).
-/

set_option autoImplicit false

namespace HeaderMeta

section Loops
variable {σ : Type} {room : Nat} {cursor : σ → Cursor} {step : σ → Round σ}

def Round.Moves (room : Nat) (cursor : σ → Cursor) (s : σ) : Round σ → Prop
  | .again next => (cursor s).Gains (cursor next)
  | .done final => (cursor s).Onward (cursor final)
  | .refused final limit =>
    (cursor s).Onward (cursor final) ∧ limit.Due room (cursor s).rest (cursor final).rest

theorem Round.Moves.of_onward {s t : σ} {round : Round σ} (onward : (cursor s).Onward (cursor t))
    (moves : round.Moves room cursor t) : round.Moves room cursor s := by
  cases round with
  | again next => exact onward.gains moves
  | done final => exact onward.trans moves
  | refused final limit => exact ⟨onward.trans moves.1, moves.2.of_ahead onward.ahead⟩

def Cursor.Ends (room : Nat) (cursor : σ → Cursor) (c : Cursor) (run : σ × Option Limit) : Prop :=
  c.Onward (cursor run.1) ∧ ∀ limit ∈ run.2, limit.Due room c.rest (cursor run.1).rest

theorem Guard.loopFrom_moves {name : String} (named : name ∈ loopNames)
    (steps : ∀ s, (cursor s).rest.Closed → (step s).Moves room cursor s)
    {c : Cursor} (closed : c.rest.Closed) {left : Nat} {last : Option Nat} {s : σ}
    (onward : c.Onward (cursor s))
    (paced : (cursor s).rest.length + maxIterations ≤ c.rest.length + left)
    (moved : ∀ place ∈ last, (cursor s).rest.length < place) :
    c.Ends room cursor
      (Guard.loopFrom name (fun s => (cursor s).rest.length) step left last s) := by
  have closedHere := onward.ahead.closed closed
  induction left generalizing last s with
  | zero =>
    have remains := List.length_pos_iff.mpr closedHere.ne_nil
    refine ⟨onward, fun limit out => ?_⟩
    cases out
    exact ⟨named, rfl, by omega⟩
  | succ left ih =>
    -- a round that is followed by another has moved, so no loop is found standing still
    have fresh : last ≠ some (cursor s).rest.length := fun stalled =>
      Nat.lt_irrefl _ (moved _ stalled)
    have moves := steps s closedHere
    unfold Guard.loopFrom
    rw [if_neg fresh]
    split
    next next round =>
      rw [round] at moves
      have shorter := moves.shorter
      refine ih (onward.trans moves.toOnward) (by omega) ?_ (moves.ahead.closed closedHere)
      intro place here
      cases here
      exact shorter
    next final round =>
      rw [round] at moves
      exact ⟨onward.trans moves, nofun⟩
    next final limit round =>
      rw [round] at moves
      refine ⟨onward.trans moves.1, fun limit out => ?_⟩
      cases out
      exact moves.2.of_ahead onward.ahead

theorem Guard.loop_moves {name : String} (named : name ∈ loopNames)
    (steps : ∀ s, (cursor s).rest.Closed → (step s).Moves room cursor s) {s : σ}
    (closed : (cursor s).rest.Closed) :
    (cursor s).Ends room cursor (Guard.loop name (fun s => (cursor s).rest.length) step s) :=
  loopFrom_moves named steps closed (.refl _) (Nat.le_refl _) nofun

end Loops

namespace MemberState
open Cursor
variable {s : MemberState} {room : Nat} {body : BodyReader}

theorem stays_addParts (attributes : List Attribute) (start : Span) (type? : Option String)
    (first : Bool) (parts : List DeclaratorPart) (s : MemberState) :
    s.cursor.Stays (addParts attributes start type? first parts s).cursor := by
  fun_induction addParts attributes start type? first parts s with
  | case1 | case3 => exact ⟨rfl, rfl⟩
  | case2 _ _ _ _ _ _ _ ih | case4 _ _ _ _ _ _ _ _ _ _ _ ih
  | case5 _ _ _ _ _ _ _ _ _ _ _ _ ih => exact ⟨ih.source, ih.rest⟩

theorem cursor_foldl {α : Type} (take : MemberState → α → MemberState)
    (keeps : ∀ s a, (take s a).cursor = s.cursor) (as : List α) (s : MemberState) :
    (as.foldl take s).cursor = s.cursor := by
  induction as generalizing s with
  | nil => rfl
  | cons a as ih => exact (ih (take s a)).trans (keeps s a)

theorem gains_member (inside : s.cursor.rest.Inside) : s.cursor.Gains s.member.cursor := by
  unfold member
  dsimp only
  have read := onward_attributeSpecifiers s.cursor
  generalize s.cursor.attributeSpecifiers = attributes at read ⊢
  -- attributes that were read are the progress; without any the member starts where the reader stood
  have moved {ts : Tokens} (ahead : attributes.2.rest.Ahead ts)
      (shorter : attributes.2.rest.Inside → ts.length < attributes.2.rest.length) :
      s.cursor.Gains (attributes.2.goto ts) := by
    have onward := read.trans (onward_goto ahead)
    refine ⟨onward, ?_⟩
    rcases read.gains_or_stays with gained | stays
    · exact Nat.lt_of_le_of_lt ahead.length_le gained.shorter
    · rw [← stays.rest]
      exact shorter (stays.rest ▸ inside)
  have statementEnds : attributes.2.rest.Inside →
      (Tokens.afterStatement attributes.2.rest.takeStatement).length < attributes.2.rest.length :=
    Tokens.length_afterStatement_lt
  split
  next => exact moved (Tokens.ahead_skipDeclaration _) Tokens.length_skipDeclaration_lt
  next =>
    split
    next rest last =>
      rw [last] at statementEnds
      exact (moved (Tokens.ahead_statementEnd last) statementEnds).onward (onward_report _ _ _ _)
    next statement last =>
      rw [last] at statementEnds
      have added := stays_addParts attributes.1 s.cursor.here none true
        (DeclaratorPart.split statement.body) ⟨s.record, s.access, attributes.2.goto statement.rest⟩
      exact (moved (Tokens.ahead_statement last) statementEnds).onward added.onward

theorem onward_trailingFields (type : String) (s : MemberState) :
    s.cursor.Onward (s.trailingFields type).cursor := by
  unfold trailingFields
  split
  next rest last => exact onward_goto (Tokens.ahead_statementEnd last)
  next statement last =>
    dsimp only
    rw [cursor_foldl addField fun _ _ => rfl]
    exact onward_goto (Tokens.ahead_statement last)

theorem onward_takeDefinition (s : MemberState) (decl : TypeDecl) :
    s.cursor.Onward (s.takeDefinition decl).cursor := by
  have eaten := onward_eat s.cursor .semicolon
  unfold takeDefinition
  split
  next c ate =>
    rw [ate] at eaten
    unfold hoist
    rw [cursor_foldl _ (by intros; rfl)]
    exact eaten
  next => exact onward_skipDeclaration s.cursor
  next ate _ =>
    rw [ate] at eaten
    exact eaten
  next name _ _ _ => exact onward_trailingFields decl.name (s.addNested decl)

theorem moves_nestedRecord (steady : body.Steady room) (closed : s.cursor.rest.Closed)
    (inside : s.cursor.rest.Inside) (isTemplate : Bool) :
    (s.nestedRecord body isTemplate).Moves (room + 1) MemberState.cursor s := by
  have taken := taken_record steady closed s.record.namespaces s.record.innerEnclosing isTemplate
  unfold nestedRecord
  split
  next limit c read =>
    rw [read] at taken
    exact taken
  next decl c read =>
    rw [read] at taken
    exact taken.onward (onward_takeDefinition { s with cursor := c } decl)
  next c read =>
    rw [read] at taken
    exact taken
  next c read =>
    rw [read] at taken
    -- the reader is back at the key
    exact taken.onward.gains (gains_member (s := { s with cursor := c }) (taken.rest ▸ inside))

theorem gains_nestedEnum (closed : s.cursor.rest.Closed) (inside : s.cursor.rest.Inside) :
    s.cursor.Gains s.nestedEnum.cursor := by
  have read := enumerated_enumeration closed inside.1 s.record.namespaces s.record.innerEnclosing
  unfold nestedEnum
  split
  next c same =>
    rw [same] at read
    exact read.onward.gains (gains_member (s := { s with cursor := c }) (read.rest ▸ inside))
  next decl c same =>
    rw [same] at read
    have eaten := onward_eat c .semicolon
    dsimp only
    split
    next d ate =>
      rw [ate] at eaten
      exact read.onward eaten
    next d ate =>
      rw [ate] at eaten
      split
      · exact read.onward (eaten.trans (onward_skipDeclaration d))
      · exact read.onward (eaten.trans (onward_trailingFields decl.name ⟨_, _, d⟩))

theorem moves_nestedTypedef (steady : body.Steady room) (closed : s.cursor.rest.Closed)
    (inside : s.cursor.rest.peek ≠ .eof) :
    (s.nestedTypedef body).Moves (room + 1) MemberState.cursor s := by
  have passed := passed_typedef steady closed inside s.record.namespaces s.record.innerEnclosing
  unfold nestedTypedef
  split
  next limit c read =>
    rw [read] at passed
    exact passed
  next outcome c read =>
    rw [read] at passed
    dsimp only [Round.Moves]
    rw [cursor_foldl addNested fun _ _ => rfl]
    exact passed

theorem moves_nestedTemplate (steady : body.Steady room) (closed : s.cursor.rest.Closed)
    (inside : s.cursor.rest.peek ≠ .eof) :
    (s.nestedTemplate body).Moves (room + 1) MemberState.cursor s := by
  have entered : s.cursor.Gains (s.goto s.cursor.rest.advance.skipAngles).cursor :=
    (gains_advance closed inside).goto (Tokens.ahead_skipAngles _)
  unfold nestedTemplate
  dsimp only
  split
  next key atKey =>
    exact (moves_nestedRecord steady (entered.ahead.closed closed) (Tokens.inside_of_key atKey)
      true).of_onward entered.toOnward
  next => exact entered.onward (onward_skipDeclaration _)

theorem moves_wordRound (steady : body.Steady room) (closed : s.cursor.rest.Closed) {word : String}
    (here : s.cursor.rest.peek = .word word) :
    (s.wordRound body word).Moves (room + 1) MemberState.cursor s := by
  have inside := Tokens.inside_of_word here
  unfold wordRound
  dsimp only
  split
  next => exact (gains_advance closed inside.1).onward (onward_advance _)
  split
  · exact moves_nestedRecord steady closed inside false
  split
  · exact moves_nestedTemplate steady closed inside.1
  split
  · exact gains_nestedEnum closed inside
  split
  · exact moves_nestedTypedef steady closed inside.1
  split
  · exact gains_usingAlias closed inside _
  split
  · exact gains_skipDeclaration inside
  split
  · exact gains_skipDeclaration inside
  · exact gains_member inside

theorem gains_unexpected (inside : s.cursor.rest.Inside) :
    s.cursor.Gains s.unexpected.cursor :=
  (onward_report s.cursor _ _ _).gains (gains_skipDeclaration inside)

theorem moves_round (steady : body.Steady room) (s : MemberState) (closed : s.cursor.rest.Closed) :
    (s.round body).Moves (room + 1) MemberState.cursor s := by
  unfold round
  split
  next => exact .refl _
  next => exact .refl _
  next here => exact gains_advance closed (Tokens.inside_of_mark here (by decide)).1
  next here => exact gains_skipDeclaration (Tokens.inside_of_mark here (by decide))
  next here => exact gains_member (Tokens.inside_of_mark here (by decide))
  next here =>
    have inside := Tokens.inside_of_mark here (by decide)
    split
    · exact gains_member inside
    · exact gains_unexpected inside
  next word here => exact moves_wordRound steady closed here
  next notEnd notBrace _ _ _ _ _ => exact gains_unexpected ⟨notEnd, notBrace⟩

end MemberState

theorem steady_typeBody (room : Nat) : BodyReader.Steady room (typeBody room) := by
  induction room with
  | zero =>
    intro decl c closed
    refine ⟨.refl c, fun limit out => ?_⟩
    cases out
    exact ⟨by decide, by simp [typeBody]⟩
  | succ room ih =>
    intro decl c closed
    have named : "member list" ∈ loopNames := by decide
    exact Guard.loop_moves (s := ⟨decl, decl.key.defaultVisibility, c⟩) named
      (MemberState.moves_round ih) closed

end HeaderMeta
