import HeaderMeta.Proofs.Grammar.Forest
import HeaderMeta.Proofs.Progress.Members

/-! Reading a header always makes progress.

No round of the three loops of the reader leaves the place as it was unless it ends the loop, so a
header is given up only because it nests too deep or because it has too many tokens.
-/

set_option autoImplicit false

namespace HeaderMeta

/-- A reader of scopes that moves ahead and stops early only at a limit that is due. -/
def ScopeReader.Steady (room : Nat) (inner : ScopeReader) : Prop :=
  ∀ body ∈ bodyNames, ∀ scope (s : ScopeState), s.cursor.rest.Closed →
    s.cursor.Ends room ScopeState.cursor (inner body scope s)

namespace ScopeState
open Cursor
variable {s : ScopeState} {room : Nat} {body : BodyReader} {inner : ScopeReader}

theorem moves_record (steady : body.Steady room) (closed : s.cursor.rest.Closed)
    (inside : s.cursor.rest.Inside) (scope : List String) (isTemplate : Bool) :
    (s.record body scope isTemplate).Moves (room + 1) ScopeState.cursor s := by
  have taken := taken_record steady closed scope [] isTemplate
  unfold record
  split
  next limit c read =>
    rw [read] at taken
    exact taken
  next decl c read =>
    rw [read] at taken
    exact taken.onward (onward_finishDeclaration c)
  next c read =>
    rw [read] at taken
    exact taken
  next c read =>
    rw [read] at taken
    -- the reader is back at the key
    exact taken.onward.gains (gains_skipDeclaration (taken.rest ▸ inside))

theorem onward_close (message : String) (start : Span) (s : ScopeState) :
    s.cursor.Onward (s.close message start).cursor := by
  have eaten := onward_eat s.cursor .closeBrace
  unfold close
  split
  next c ate =>
    rw [ate] at eaten
    exact eaten
  next c ate =>
    rw [ate] at eaten
    exact eaten.trans (onward_report c _ _ _)

theorem ends_inner (steady : inner.Steady room) {kind : String} (known : kind ∈ bodyNames)
    {c : Cursor} (closed : c.rest.Closed) (brace : c.rest.atMark .openBrace = true)
    (scope : List String) (ns : Namespace) :
    c.Ends (room + 1) ScopeState.cursor (inner kind scope ⟨ns, c.advance⟩) := by
  have entered := onward_advance c
  obtain ⟨moved, due⟩ := steady kind known scope ⟨ns, c.advance⟩ (entered.ahead.closed closed)
  refine ⟨entered.trans moved, fun limit out => ?_⟩
  have opened := closed.opens_advance (by simpa [Tokens.atMark] using brace)
  exact (due limit out).earlier entered.ahead (Nat.le_of_eq opened)

theorem moves_openNamespace (steady : inner.Steady room) (closed : s.cursor.rest.Closed)
    (inside : s.cursor.rest.peek ≠ .eof) (scope : List String) :
    (s.openNamespace inner scope).Moves (room + 1) ScopeState.cursor s := by
  have head : s.cursor.Gains s.cursor.advance.attributeSpecifiers.2 :=
    (gains_advance closed inside).onward (onward_attributeSpecifiers _)
  unfold openNamespace
  dsimp only
  generalize s.cursor.advance.attributeSpecifiers.2 = c at head ⊢
  have named := head.onward (onward_goto (Tokens.ahead_qualifiedName c.rest))
  generalize c.rest.qualifiedName = name at named ⊢
  have before : s.cursor.Gains (c.goto name.2).attributeSpecifiers.2 :=
    named.onward (onward_attributeSpecifiers _)
  generalize (c.goto name.2).attributeSpecifiers.2 = d at before ⊢
  split
  next brace =>
    obtain ⟨moved, due⟩ := ends_inner steady (by decide : "namespace" ∈ bodyNames)
      (before.ahead.closed closed) brace (scope ++ name.1) (s.ns.descend name.1)
    generalize inner "namespace" (scope ++ name.1) ⟨s.ns.descend name.1, d.advance⟩ = run at moved due ⊢
    split
    next limit out => exact ⟨before.toOnward.trans moved, (due limit out).of_ahead before.ahead⟩
    next =>
      exact (before.onward moved).onward (onward_close _ _ ⟨s.ns.graft name.1 run.1.ns, run.1.cursor⟩)
  next => exact before.onward (onward_skipDeclaration d)

theorem moves_linkage (steady : inner.Steady room) (closed : s.cursor.rest.Closed)
    (inside : s.cursor.rest.peek ≠ .eof) (scope : List String) :
    (s.linkage inner scope).Moves (room + 1) ScopeState.cursor s := by
  have before : s.cursor.Gains s.cursor.advance.advance :=
    (gains_advance closed inside).onward (onward_advance _)
  unfold linkage
  dsimp only
  split
  next brace =>
    obtain ⟨moved, due⟩ := ends_inner steady (by decide : "linkage block" ∈ bodyNames)
      (before.ahead.closed closed) brace scope s.ns
    split
    next final limit read =>
      rw [read] at moved due
      exact ⟨before.toOnward.trans moved, (due limit rfl).of_ahead before.ahead⟩
    next final read =>
      rw [read] at moved
      exact (before.onward moved).onward (onward_close _ _ final)
  next => exact before.onward (onward_skipDeclaration _)

theorem moves_template (steady : body.Steady room) (closed : s.cursor.rest.Closed)
    (inside : s.cursor.rest.peek ≠ .eof) (scope : List String) :
    (s.template body scope).Moves (room + 1) ScopeState.cursor s := by
  have entered : s.cursor.Gains (s.cursor.goto s.cursor.rest.advance.skipAngles) :=
    (gains_advance closed inside).goto (Tokens.ahead_skipAngles _)
  unfold template
  dsimp only
  split
  next key atKey =>
    have moves := moves_record (s := ⟨s.ns, s.cursor.goto s.cursor.rest.advance.skipAngles⟩) steady
      (entered.ahead.closed closed) (Tokens.inside_of_key atKey) scope true
    exact moves.of_onward entered.toOnward
  next => exact entered.onward (onward_skipDeclaration _)

theorem gains_enumeration (closed : s.cursor.rest.Closed) (inside : s.cursor.rest.Inside)
    (scope : List String) : s.cursor.Gains (s.enumeration scope).cursor := by
  have read := enumerated_enumeration closed inside.1 scope []
  unfold enumeration
  dsimp only
  generalize s.cursor.enumeration scope [] = result at read ⊢
  obtain ⟨decl?, c⟩ := result
  cases decl? with
  | some decl => exact read.onward (onward_finishDeclaration c)
  | none =>
    exact read.onward.gains
      (gains_finishDeclaration (read.rest ▸ closed) (read.rest ▸ inside))

theorem moves_typedef (steady : body.Steady room) (closed : s.cursor.rest.Closed)
    (inside : s.cursor.rest.peek ≠ .eof) (scope : List String) :
    (s.typedef body scope).Moves (room + 1) ScopeState.cursor s := by
  have passed := passed_typedef steady closed inside scope []
  unfold typedef
  split
  next limit c read =>
    rw [read] at passed
    exact passed
  next outcome c read =>
    rw [read] at passed
    exact passed

theorem gains_usingDirective (closed : s.cursor.rest.Closed) (inside : s.cursor.rest.Inside)
    (scope : List String) : s.cursor.Gains (s.usingDirective scope).cursor := by
  unfold usingDirective
  split
  next =>
    have entered : s.cursor.Gains s.cursor.advance.advance :=
      (gains_advance closed inside.1).onward (onward_advance _)
    exact (entered.goto (Tokens.ahead_qualifiedName _)).onward (onward_skipDeclaration _)
  next => exact gains_usingAlias closed inside scope

theorem moves_wordRound (types : body.Steady room) (scopes : inner.Steady room)
    (closed : s.cursor.rest.Closed) {word : String} (here : s.cursor.rest.peek = .word word)
    (scope : List String) :
    (s.wordRound body inner scope word).Moves (room + 1) ScopeState.cursor s := by
  have inside := Tokens.inside_of_word here
  unfold wordRound
  dsimp only
  split
  · exact moves_openNamespace scopes closed inside.1 scope
  split
  · exact gains_advance closed inside.1
  refine iteInduction (motive := Round.Moves (room + 1) ScopeState.cursor s) (fun _ => ?_) fun _ => ?_
  · exact moves_linkage scopes closed inside.1 scope
  split
  · exact moves_template types closed inside.1 scope
  split
  · exact moves_record types closed inside scope false
  split
  · exact gains_enumeration closed inside scope
  split
  · exact moves_typedef types closed inside.1 scope
  split
  · exact gains_usingDirective closed inside scope
  · exact gains_skipDeclaration inside

theorem moves_round (types : body.Steady room) (scopes : inner.Steady room) (scope : List String)
    (s : ScopeState) (closed : s.cursor.rest.Closed) :
    (s.round body inner scope).Moves (room + 1) ScopeState.cursor s := by
  unfold round
  split
  next => exact .refl _
  next => exact .refl _
  next here => exact gains_advance closed (Tokens.inside_of_mark here (by decide)).1
  next here => exact gains_skipDeclaration (Tokens.inside_of_mark here (by decide))
  next here => exact gains_skipDeclaration (Tokens.inside_of_mark here (by decide))
  next here => exact gains_skipDeclaration (Tokens.inside_of_mark here (by decide))
  next word here => exact moves_wordRound types scopes closed here scope
  next notEnd notBrace _ _ _ _ _ =>
    exact (onward_report s.cursor _ _ _).gains (gains_skipDeclaration ⟨notEnd, notBrace⟩)

end ScopeState

section Scopes

theorem steady_innerReader (room : Nat) : (Grammar.innerReader room).Steady room := by
  induction room with
  | zero =>
    intro body known scope s closed
    refine ⟨.refl _, fun limit out => ?_⟩
    cases out
    exact ⟨known, Nat.le_of_eq (Nat.zero_add _)⟩
  | succ room ih =>
    intro body known scope s closed
    have run : Grammar.innerReader (room + 1) body scope s = _ :=
      Grammar.declarations_eq room scope s
    rw [run]
    have named : "declarations" ∈ loopNames := by decide
    exact Guard.loop_moves named (ScopeState.moves_round (steady_typeBody room) ih scope) closed

theorem ends_declarations (room : Nat) (scope : List String) {s : ScopeState}
    (closed : s.cursor.rest.Closed) :
    s.cursor.Ends (room + 1) ScopeState.cursor (declarations room scope s) :=
  steady_innerReader (room + 1) "namespace" (by decide) scope s closed

theorem moves_fileRound (s : ScopeState) (closed : s.cursor.rest.Closed) :
    (fileRound s).Moves (maxDepth + 1) ScopeState.cursor s := by
  obtain ⟨moved, due⟩ := ends_declarations maxDepth [] closed
  unfold fileRound
  split
  next final limit read =>
    rw [read] at moved due
    exact ⟨moved, due limit rfl⟩
  next final read =>
    rw [read] at moved
    split
    next => exact moved
    next notEnd =>
      have closedHere := moved.ahead.closed closed
      have stepped := Cursor.gains_advance closedHere (by simpa [Cursor.peek] using notEnd)
      exact moved.gains ⟨⟨stepped.source, stepped.ahead⟩, stepped.shorter⟩

end Scopes

section Headers

theorem closed_place (p : Position) (xs : List Lexeme) : Tokens.Closed (Lexing.place p xs).tokens := by
  induction xs generalizing p with
  | nil => exact ⟨_, rfl, rfl⟩
  | cons x xs ih =>
    obtain ⟨last, here, eof⟩ := ih (p.after x.text)
    refine ⟨last, ?_, eof⟩
    rw [Lexing.place, List.getLast?_append, here]
    rfl

theorem closed_ofText (text : String) : Tokens.Closed (Lexing.ofText text).tokens :=
  closed_place .start _

theorem Limit.Due.cases {room : Nat} {ts us : Tokens} {limit : Limit} (due : limit.Due room ts us) :
    (∃ body ∈ bodyNames, limit = .depth body ∧ room + us.opens ≤ ts.opens) ∨
      ∃ loop ∈ loopNames, limit = .iterations loop maxIterations ∧ maxIterations < ts.length := by
  cases limit with
  | iterations loop limit =>
    obtain ⟨known, rfl, many⟩ := due
    exact .inr ⟨loop, known, rfl, many⟩
  | stalled loop => exact due.elim
  | depth body => exact .inl ⟨body, due.1, rfl, due.2⟩

namespace Header

def start (source : Source) : ScopeState :=
  let lexing := Lexing.ofText source.text
  ⟨{}, source, lexing.tokens, lexing.faults.map (faultDiagnostic source.path)⟩

def run (source : Source) : ScopeState × Option Limit :=
  Guard.loop "file" ScopeState.position fileRound (start source)

end Header

end Headers

end HeaderMeta
