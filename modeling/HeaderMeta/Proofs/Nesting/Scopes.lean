import HeaderMeta.Proofs.Nesting
import HeaderMeta.Proofs.Positions.Tokens

/-! Skipping tokens keeps the scope.

Which brackets are open at a position of a file is told by reading it from its start (`openAt`). Each is
listed with the position where it stands, so that the same list at two positions means the same scope and
the same level in it. The functions that skip tokens keep no such list: one counts a single kind of
bracket, one counts parentheses and brackets together and leaps over braces, and one counts all kinds
together. Where the brackets of a file nest, each of them still stops in the scope where it was started.
-/

set_option autoImplicit false

namespace HeaderMeta

namespace Tokens
open Grammar (IsGroup)

/-- The brackets that are open, the last opened first, each with the position where it stands. -/
abbrev OpenBrackets := List (Nat × Mark)

def closeLast? (m : Mark) : OpenBrackets → Option OpenBrackets
  | (_, last) :: outer => if last = m then some outer else none
  | [] => none

def bracket? (pos : Nat) (bs : OpenBrackets) : Token → Option OpenBrackets
  | .mark .openParen => some ((pos, .openParen) :: bs)
  | .mark .openBracket => some ((pos, .openBracket) :: bs)
  | .mark .openBrace => some ((pos, .openBrace) :: bs)
  | .mark .closeParen => closeLast? .openParen bs
  | .mark .closeBracket => closeLast? .openBracket bs
  | .mark .closeBrace => closeLast? .openBrace bs
  | _ => some bs

/-- The brackets that are open behind tokens, the first of which stands at `pos`. -/
def openBehind? (pos : Nat) (bs : OpenBrackets) : Tokens → Option OpenBrackets
  | [] => some bs
  | t :: ts => (bracket? pos bs t.token).bind (openBehind? (pos + 1) · ts)

/-- Tokens that close all brackets open before them, each in its turn, and nest apart from that. -/
inductive Closes : OpenBrackets → Tokens → Prop where
  | file {own : Tokens} (inside : Nested own) : Closes [] own
  | group {pos : Nat} {«open» close : Mark} {s : Span} {outer : OpenBrackets} {own tail : Tokens}
      (pair : IsGroup «open» close) (inside : Nested own) (more : Closes outer tail) :
      Closes ((pos, «open») :: outer) (own ++ ⟨.mark close, s⟩ :: tail)

section Brackets
variable {pos : Nat} {bs cs : OpenBrackets} {t : Token} {own us tail : Tokens} {«open» close : Mark}

theorem closer_unique {other : Mark} (pair : IsGroup «open» close) (same : IsGroup «open» other) :
    other = close :=
  Option.some.inj ((closerOf?_eq same).symm.trans (closerOf?_eq pair))

theorem bracket?_open (pair : IsGroup «open» close) (pos : Nat) (bs : OpenBrackets) :
    bracket? pos bs (.mark «open») = some ((pos, «open») :: bs) := by
  cases pair <;> rfl

theorem bracket?_close (pair : IsGroup «open» close) (pos start : Nat) (bs : OpenBrackets) :
    bracket? pos ((start, «open») :: bs) (.mark close) = some bs := by
  cases pair <;> rfl

theorem bracket?_plain (plain : isBracket t = false) (pos : Nat) (bs : OpenBrackets) :
    bracket? pos bs t = some bs := by
  unfold bracket?
  split <;> first | rfl | cases plain

theorem closeLast?_eq_some {m : Mark} (closed : closeLast? m bs = some cs) :
    ∃ start, bs = (start, m) :: cs := by
  cases bs with
  | nil => cases closed
  | cons b outer =>
    obtain ⟨start, last⟩ := b
    rw [closeLast?] at closed
    split at closed
    next same => exact ⟨start, by rw [same, Option.some.inj closed]⟩
    next => cases closed

theorem bracket?_cases (read : bracket? pos bs t = some cs) :
    (isBracket t = false ∧ cs = bs) ∨
      (∃ «open» close, IsGroup «open» close ∧ t = .mark «open» ∧ cs = (pos, «open») :: bs) ∨
      ∃ «open» close start, IsGroup «open» close ∧ t = .mark close ∧ bs = (start, «open») :: cs := by
  unfold bracket? at read
  split at read
  next => exact .inr (.inl ⟨_, _, .parens, rfl, (Option.some.inj read).symm⟩)
  next => exact .inr (.inl ⟨_, _, .brackets, rfl, (Option.some.inj read).symm⟩)
  next => exact .inr (.inl ⟨_, _, .braces, rfl, (Option.some.inj read).symm⟩)
  next =>
    obtain ⟨start, same⟩ := closeLast?_eq_some read
    exact .inr (.inr ⟨_, _, start, .parens, rfl, same⟩)
  next =>
    obtain ⟨start, same⟩ := closeLast?_eq_some read
    exact .inr (.inr ⟨_, _, start, .brackets, rfl, same⟩)
  next =>
    obtain ⟨start, same⟩ := closeLast?_eq_some read
    exact .inr (.inr ⟨_, _, start, .braces, rfl, same⟩)
  next =>
    refine .inl ⟨?_, (Option.some.inj read).symm⟩
    unfold isBracket
    split <;> simp_all

theorem openBehind?_append (pos : Nat) (bs : OpenBrackets) (own us : Tokens) :
    openBehind? pos bs (own ++ us) =
      (openBehind? pos bs own).bind (openBehind? (pos + own.length) · us) := by
  induction own generalizing pos bs with
  | nil => rfl
  | cons t own ih =>
    rw [List.cons_append, openBehind?, openBehind?, Option.bind_assoc]
    congr 1
    funext cs
    rw [ih, List.length_cons, Nat.add_right_comm, Nat.add_assoc]

theorem Nested.append (first : Nested own) (second : Nested us) : Nested (own ++ us) := by
  induction first with
  | nil => exact second
  | token inside plain _ ih => exact .token inside plain ih
  | group pair inside _ _ ih => simpa using .group pair inside ih

/-- Behind nested tokens the same brackets are open as before. -/
theorem Nested.openBehind? (nested : Nested own) (pos : Nat) (bs : OpenBrackets) :
    Tokens.openBehind? pos bs own = some bs := by
  induction nested generalizing pos bs with
  | nil => rfl
  | token inside plain _ ih =>
    rw [Tokens.openBehind?, bracket?_plain plain]
    exact ih (pos + 1) bs
  | group pair _ _ ihInner ih =>
    rw [Tokens.openBehind?, bracket?_open pair, Option.bind_some, openBehind?_append, ihInner,
      Option.bind_some, Tokens.openBehind?, bracket?_close pair]
    exact ih _ bs

theorem Closes.behind (front : Nested own) (closes : Closes bs us) : Closes bs (own ++ us) := by
  cases closes with
  | file inside => exact .file (front.append inside)
  | group pair inside more =>
    rw [← List.append_assoc]
    exact .group pair (front.append inside) more

/-- Tokens behind which nothing is open close what was open before them. -/
theorem closes_of_openBehind? {ts : Tokens} (inside : ∀ t ∈ ts, t.token ≠ .eof)
    (ends : openBehind? pos bs ts = some []) : Closes bs ts := by
  induction ts generalizing pos bs with
  | nil =>
    obtain rfl := Option.some.inj ends
    exact .file .nil
  | cons t ts ih =>
    obtain ⟨cs, read, later⟩ := Option.bind_eq_some_iff.mp ends
    obtain ⟨here, others⟩ := List.forall_mem_cons.mp inside
    have closes := ih others later
    rcases bracket?_cases read with ⟨plain, rfl⟩ | ⟨«open», close, pair, opens, rfl⟩ |
      ⟨«open», close, start, pair, shuts, rfl⟩
    · exact closes.behind (.token here plain .nil)
    · -- the group that starts here is passed as a whole
      obtain ⟨token, s₁⟩ := t
      obtain rfl : token = .mark «open» := opens
      cases closes with
      | @group _ _ closer s₂ _ own tail other inner more =>
        obtain rfl := closer_unique pair other
        have group : Nested (⟨.mark «open», s₁⟩ :: (own ++ [⟨.mark closer, s₂⟩])) :=
          .group pair inner .nil
        simpa using more.behind group
    · obtain ⟨token, s⟩ := t
      obtain rfl : token = .mark close := shuts
      exact .group pair .nil closes

end Brackets

section Stops
variable {own us front tail : Tokens} {stop : Placed}

def leftBehind : Except Tokens Statement → Tokens
  | .ok s => s.rest
  | .error ts => ts

@[simp] theorem leftBehind_keep (t : Placed) (read : Except Tokens Statement) :
    leftBehind (takeFrom.keep t read) = leftBehind read := by
  cases read <;> rfl

/-- What is left when nested tokens of `own`, which `tail` follows, have been passed. -/
def StopsIn (own tail us : Tokens) : Prop :=
  ∃ passed left, own = passed ++ left ∧ Nested passed ∧ us = left ++ tail

theorem StopsIn.here (own tail : Tokens) : StopsIn own tail (own ++ tail) :=
  ⟨[], own, rfl, .nil, rfl⟩

theorem StopsIn.behind (nested : Nested front) (stops : StopsIn own tail us) :
    StopsIn (front ++ own) tail us := by
  obtain ⟨passed, left, rfl, inner, same⟩ := stops
  exact ⟨front ++ passed, left, (List.append_assoc ..).symm, nested.append inner, same⟩

theorem StopsIn.behind_token {t : Placed} (inside : t.token ≠ .eof) (plain : isBracket t.token = false)
    (stops : StopsIn own tail us) : StopsIn (t :: own) tail us :=
  stops.behind (.token inside plain .nil)

theorem StopsIn.behind_group {«open» close : Mark} {s₁ s₂ : Span} {inner : Tokens}
    (pair : IsGroup «open» close) (inside : Nested inner) (stops : StopsIn own tail us) :
    StopsIn (⟨.mark «open», s₁⟩ :: (inner ++ ⟨.mark close, s₂⟩ :: own)) tail us := by
  have group : Nested (⟨.mark «open», s₁⟩ :: (inner ++ [⟨.mark close, s₂⟩])) :=
    .group pair inside .nil
  simpa using stops.behind group

/-- The end of a scope: no function that skips tokens goes on from there. -/
def IsScopeEnd (t : Token) : Prop :=
  t = .eof ∨ t = .mark .closeBrace

/-- A semicolon behind a body is passed, and nothing else. -/
theorem StopsIn.eat (own tail : Tokens) (ends : IsScopeEnd stop.token) :
    StopsIn own (stop :: tail) ((own ++ stop :: tail).eat .semicolon).2 := by
  cases own with
  | nil =>
    have other : Tokens.atMark (stop :: tail) .semicolon = false := by
      rcases ends with eof | brace <;> simp [Tokens.atMark, Tokens.peek, Tokens.peekAt, *]
    rw [List.nil_append, Tokens.eat, other]
    exact .here [] _
  | cons t own =>
    unfold Tokens.eat
    split
    next semicolon =>
      have same : t.token = .mark .semicolon := by
        simpa [Tokens.atMark, Tokens.peek, Tokens.peekAt] using semicolon
      rw [List.cons_append, Tokens.advance_cons (by simp)]
      exact (StopsIn.here own _).behind_token (by simp [same]) (by simp [same, isBracket])
    next => exact .here (t :: own) _

theorem Nested.skipDeclaration (nested : Nested own) (ends : IsScopeEnd stop.token) (tail : Tokens) :
    StopsIn own (stop :: tail) (Tokens.skipDeclaration (own ++ stop :: tail)) := by
  unfold Tokens.skipDeclaration
  -- outside all groups the count is zero, and it is zero again behind each of them
  induction nested with
  | nil =>
    have stays : Tokens.skipFrom 0 (stop :: tail) = stop :: tail := by
      rw [Tokens.skipFrom]
      rcases ends with eof | brace
      · rw [eof]
      · rw [brace]
        exact if_pos rfl
    rw [List.nil_append, stays]
    exact .here [] _
  | @token t ts inside plain more ih =>
    rw [List.cons_append, Tokens.skipFrom]
    split
    case h_1 eof => exact absurd eof inside
    case h_3 semicolon => exact (StopsIn.here ts _).behind_token inside plain
    case h_9 => exact ih.behind_token inside plain
    all_goals simp_all [isBracket]
  | @group «open» close s₁ s₂ inner ts pair insideGroup more ihInner ih =>
    apply StopsIn.behind_group pair insideGroup
    rw [List.cons_append, List.append_assoc, List.cons_append]
    cases pair with
    | parens | brackets =>
      rw [Tokens.skipFrom, insideGroup.skipFrom 0 _ (by simp), Tokens.skipFrom]
      dsimp only
      split
      next => exact .here ts _
      next => exact ih
    | braces =>
      have leapt : Tokens.skipGroup (⟨.mark .openBrace, s₁⟩ ::
          (inner ++ ⟨.mark .closeBrace, s₂⟩ :: (ts ++ stop :: tail))) = ts ++ stop :: tail :=
        (insideGroup.balancedIn .braces).skipGroup .braces s₁ s₂ (by simp)
      rw [Tokens.skipFrom]
      dsimp only
      rw [leapt]
      split
      next => exact ih
      next => exact .eat ts tail ends

theorem Nested.takeFrom (nested : Nested own) (depth : Nat) (tail : Tokens) :
    leftBehind (Tokens.takeFrom (depth + 1) (own ++ tail)) =
      leftBehind (Tokens.takeFrom (depth + 1) tail) := by
  induction nested generalizing depth tail with
  | nil => rfl
  | @token t ts inside plain _ ih =>
    rw [List.cons_append, Tokens.takeFrom]
    split <;> simp_all [isBracket]
  | @group «open» close s₁ s₂ inner ts pair insideGroup _ ihInner ih =>
    rw [List.cons_append, List.append_assoc, List.cons_append]
    cases pair <;>
      simp [Tokens.takeFrom, ihInner (depth + 1), ih depth tail]

theorem Nested.takeStatement (nested : Nested own) (ends : IsScopeEnd stop.token) (tail : Tokens) :
    StopsIn own (stop :: tail) (leftBehind (Tokens.takeStatement (own ++ stop :: tail))) := by
  unfold Tokens.takeStatement
  induction nested with
  | nil =>
    have stays : Tokens.takeFrom 0 (stop :: tail) = .error (stop :: tail) := by
      rw [Tokens.takeFrom]
      rcases ends with eof | brace
      · rw [eof]
      · rw [brace]
        exact if_pos rfl
    rw [List.nil_append, stays]
    exact .here [] _
  | @token t ts inside plain more ih =>
    rw [List.cons_append, Tokens.takeFrom]
    split
    case h_1 eof => exact absurd eof inside
    case h_2 semicolon => exact (StopsIn.here ts _).behind_token inside plain
    case h_9 =>
      rw [leftBehind_keep]
      exact ih.behind_token inside plain
    all_goals simp_all [isBracket]
  | @group «open» close s₁ s₂ inner ts pair insideGroup more ihInner ih =>
    -- a statement takes a group whole
    have passed : leftBehind (Tokens.takeFrom 0
        (⟨.mark «open», s₁⟩ :: (inner ++ ⟨.mark close, s₂⟩ :: (ts ++ stop :: tail)))) =
        leftBehind (Tokens.takeFrom 0 (ts ++ stop :: tail)) := by
      cases pair <;> simp [Tokens.takeFrom, insideGroup.takeFrom 0]
    apply StopsIn.behind_group pair insideGroup
    rw [List.cons_append, List.append_assoc, List.cons_append, passed]
    exact ih

end Stops

end Tokens

namespace TokenFile
open Tokens
variable (file : TokenFile)

/-- The brackets that are open before the token at a position. -/
def openAt (pos : Nat) : Option OpenBrackets :=
  openBehind? 0 [] (file.tokens.take pos)

/-- Every bracket of the file is closed by one of its kind, the last opened first. -/
def Nests : Prop :=
  file.openAt file.tokens.length = some []

/-- In the file or in a brace of it, outside all other brackets there. -/
def AtScopeLevel (pos : Nat) : Prop :=
  ∃ bs, file.openAt pos = some bs ∧ ∀ last ∈ bs.head?, last.2 = .openBrace

/-- The scope around `pos` ends at `close`, with the file or with the brace that closes it. -/
structure ScopeEnd (pos close : Nat) : Prop where
  ahead : pos ≤ close
  level : file.openAt close = file.openAt pos
  ends : (file.openAt pos = some [] ∧ file.peek? close = some .eof) ∨
    ∃ start outer, file.openAt pos = some ((start, .openBrace) :: outer) ∧
      file.peek? close = some (.mark .closeBrace) ∧ file.openAt (close + 1) = some outer

/-- A reader that started at `pos` stops with `us` left: not behind `close`, and in the same scope and at
the same level. -/
def StopsBetween (pos close : Nat) (us : Tokens) : Prop :=
  ∃ stop, pos ≤ stop ∧ stop ≤ close ∧ file.openAt stop = file.openAt pos ∧
    us = file.tokens.drop stop

structure GroupEnd («open» close : Mark) (pos last : Nat) : Prop where
  ahead : pos < last
  token : file.peek? last = some (.mark close)
  closes : ∃ outer, file.openAt pos = some outer ∧
    file.openAt last = some ((pos, «open») :: outer) ∧ file.openAt (last + 1) = some outer

section Levels
variable {file} {pos : Nat} {bs : OpenBrackets} {own us tail : Tokens} {t : Placed}

theorem openAt_add (here : file.tokens.drop pos = own ++ tail) (within : pos ≤ file.tokens.length) :
    file.openAt (pos + own.length) = (file.openAt pos).bind (openBehind? pos · own) := by
  have taken : file.tokens.take (pos + own.length) = file.tokens.take pos ++ own := by
    rw [List.take_add, here, List.take_left]
  have length : (file.tokens.take pos).length = pos := List.length_take_of_le within
  rw [openAt, taken, openBehind?_append, length, Nat.zero_add]
  rfl

theorem drop_add (here : file.tokens.drop pos = own ++ tail) :
    file.tokens.drop (pos + own.length) = tail := by
  rw [← List.drop_drop, here, List.drop_left]

theorem drop_succ (here : file.tokens.drop pos = t :: tail) : file.tokens.drop (pos + 1) = tail :=
  drop_add (show file.tokens.drop pos = [t] ++ tail from here)

theorem getElem?_of_drop (here : file.tokens.drop pos = t :: tail) : file.tokens[pos]? = some t := by
  rw [← List.head?_drop, here, List.head?_cons]

theorem lt_of_drop (here : file.tokens.drop pos = t :: tail) : pos < file.tokens.length :=
  (List.getElem?_eq_some_iff.mp (getElem?_of_drop here)).1

theorem peek?_of_drop (here : file.tokens.drop pos = t :: tail) : file.peek? pos = some t.token := by
  rw [peek?, if_pos (lt_of_drop here), peekAt, Nat.add_zero, getElem?_of_drop here]
  rfl

theorem openAt_succ (here : file.tokens.drop pos = t :: tail) :
    file.openAt (pos + 1) = (file.openAt pos).bind (bracket? pos · t.token) := by
  have read (bs : OpenBrackets) : openBehind? pos bs [t] = bracket? pos bs t.token :=
    Option.bind_fun_some _
  have added := openAt_add (show file.tokens.drop pos = [t] ++ tail from here) (lt_of_drop here).le
  simp only [read] at added
  exact added

theorem exists_closes (nests : file.Nests) (inside : pos < file.tokens.length) :
    ∃ bs own last, file.openAt pos = some bs ∧ file.tokens.drop pos = own ++ [last] ∧
      last.token = .eof ∧ Closes bs own := by
  obtain ⟨init, last, whole, eof, inner⟩ := file.sealed
  have size : file.tokens.length = init.length + 1 := by simp [whole]
  have within : pos ≤ init.length := by omega
  have rest : file.tokens.drop pos = init.drop pos ++ [last] := by
    rw [whole, List.drop_append_of_le_length within]
  have ends := nests
  rw [Nests, openAt, List.take_length, ← List.take_append_drop pos file.tokens, openBehind?_append,
    rest] at ends
  obtain ⟨bs, here, later⟩ := Option.bind_eq_some_iff.mp ends
  rw [openBehind?_append] at later
  obtain ⟨cs, closed, atEof⟩ := Option.bind_eq_some_iff.mp later
  have empty : cs = [] := by
    rw [openBehind?, eof] at atEof
    exact Option.some.inj atEof
  refine ⟨bs, init.drop pos, last, here, rest, eof, ?_⟩
  apply closes_of_openBehind? (fun t mem => inner t (List.mem_of_mem_drop mem))
  rw [closed, empty]

theorem stopsBetween (level : file.openAt pos = some bs) (within : pos ≤ file.tokens.length)
    (here : file.tokens.drop pos = own ++ tail) (stops : Tokens.StopsIn own tail us) :
    file.StopsBetween pos (pos + own.length) us := by
  obtain ⟨passed, left, rfl, nested, rfl⟩ := stops
  rw [List.append_assoc] at here
  refine ⟨pos + passed.length, by omega, by simp, ?_, (drop_add here).symm⟩
  rw [openAt_add here within, level, Option.bind_some, nested.openBehind?]

/-- The end of a scope stands behind tokens that nest. -/
theorem exists_scopeEnd (nests : file.Nests) (inside : pos < file.tokens.length)
    (scope : file.AtScopeLevel pos) :
    ∃ own stop tail, file.tokens.drop pos = own ++ stop :: tail ∧ Nested own ∧
      IsScopeEnd stop.token ∧ file.ScopeEnd pos (pos + own.length) := by
  obtain ⟨bs, own, last, level, rest, eof, closes⟩ := exists_closes nests inside
  have same {own us : Tokens} (nested : Nested own) (here : file.tokens.drop pos = own ++ us) :
      file.openAt (pos + own.length) = some bs := by
    rw [openAt_add here inside.le, level, Option.bind_some, nested.openBehind?]
  cases closes with
  | file nested =>
    have atEnd := peek?_of_drop (drop_add rest)
    rw [eof] at atEnd
    exact ⟨own, last, [], rest, nested, .inl eof,
      ⟨by omega, (same nested rest).trans level.symm, .inl ⟨level, atEnd⟩⟩⟩
  | @group start «open» close s outer own tail pair nested more =>
    obtain ⟨cs, found, brace⟩ := scope
    rw [level] at found
    cases found
    obtain rfl : «open» = .openBrace := brace (start, «open») rfl
    obtain rfl := closer_unique .braces pair
    have here : file.tokens.drop pos = own ++ ⟨.mark .closeBrace, s⟩ :: (tail ++ [last]) := by
      simpa using rest
    have behind : file.openAt (pos + own.length + 1) = some outer := by
      rw [openAt_succ (drop_add here), same nested here, Option.bind_some, bracket?_close .braces]
    exact ⟨own, _, _, here, nested, .inr rfl,
      ⟨by omega, (same nested here).trans level.symm,
        .inr ⟨start, outer, level, peek?_of_drop (drop_add here), behind⟩⟩⟩

/-- The group that a bracket opens is closed in the file, and skipped as a whole. -/
theorem exists_groupEnd {«open» close : Mark} (nests : file.Nests) (inside : pos < file.tokens.length)
    (pair : Grammar.IsGroup «open» close) (opens : file.peek? pos = some (.mark «open»)) :
    ∃ last, file.GroupEnd «open» close pos last ∧
      skipGroup (file.tokens.drop pos) = file.tokens.drop (last + 1) := by
  obtain ⟨bs, own, last, level, rest, eof, -⟩ := exists_closes nests inside
  cases own with
  | nil =>
    -- at the end of the file nothing opens
    rw [peek?_of_drop (by simpa using rest), eof] at opens
    cases opens
  | cons t own =>
    obtain ⟨token, s₁⟩ := t
    obtain rfl : token = .mark «open» := Option.some.inj ((peek?_of_drop rest).symm.trans opens)
    have opened : file.openAt (pos + 1) = some ((pos, «open») :: bs) := by
      rw [openAt_succ rest, level, Option.bind_some, bracket?_open pair]
    have further : pos + 1 < file.tokens.length := by
      have size := congrArg List.length rest
      simp at size
      omega
    obtain ⟨cs, later, finish, level', rest', -, closes⟩ := exists_closes nests further
    rw [opened] at level'
    cases level'
    cases closes with
    | @group _ _ closer s₂ _ inner tail same nested more =>
      obtain rfl := closer_unique pair same
      have behind : file.tokens.drop (pos + 1) =
          inner ++ ⟨.mark closer, s₂⟩ :: (tail ++ [finish]) := by simpa using rest'
      have closed : file.openAt (pos + 1 + inner.length) = some ((pos, «open») :: bs) := by
        rw [openAt_add behind further.le, opened, Option.bind_some, nested.openBehind?]
      have after := drop_add behind
      refine ⟨pos + 1 + inner.length, ⟨by omega, peek?_of_drop after, bs, level, closed, ?_⟩, ?_⟩
      · rw [openAt_succ after, closed, Option.bind_some, bracket?_close pair]
      · have here : file.tokens.drop pos =
            ⟨.mark «open», s₁⟩ :: (inner ++ ⟨.mark closer, s₂⟩ :: (tail ++ [finish])) := by
          rw [rest, List.cons_append, ← behind]
          exact congrArg (_ :: ·) (drop_succ rest).symm
        rw [here, (nested.balancedIn pair).skipGroup pair s₁ s₂ (by simp)]
        exact (drop_succ after).symm

end Levels

/-- In a file whose brackets nest, skipping a declaration and taking a statement stop in the scope where
they start and at its level, at the latest where the scope ends; and a group is skipped up to directly
behind the bracket that closes the one it starts with. -/
theorem skipping_keeps_scope (nests : file.Nests) {pos : Nat} (inside : pos < file.tokens.length) :
    (file.AtScopeLevel pos → ∃ close, file.ScopeEnd pos close ∧
      file.StopsBetween pos close (skipDeclaration (file.tokens.drop pos)) ∧
      file.StopsBetween pos close (leftBehind (takeStatement (file.tokens.drop pos)))) ∧
    ∀ «open» close, Grammar.IsGroup «open» close → file.peek? pos = some (.mark «open») →
      ∃ last, file.GroupEnd «open» close pos last ∧
        skipGroup (file.tokens.drop pos) = file.tokens.drop (last + 1) := by
  refine ⟨fun scope => ?_, fun «open» close pair opens => exists_groupEnd nests inside pair opens⟩
  obtain ⟨own, stop, tail, here, nested, ends, close⟩ := exists_scopeEnd nests inside scope
  obtain ⟨bs, level, -⟩ := scope
  rw [here]
  exact ⟨pos + own.length, close, stopsBetween level inside.le here (nested.skipDeclaration ends tail),
    stopsBetween level inside.le here (nested.takeStatement ends tail)⟩

def braced : TokenFile where
  source := ⟨⟨"n.h"⟩, "n \x7b f(\x7b;\x7d); \x7d"⟩
  tokens :=
    [.word "n", .mark .openBrace, .word "f", .mark .openParen, .mark .openBrace, .mark .semicolon,
      .mark .closeBrace, .mark .closeParen, .mark .semicolon, .mark .closeBrace, .eof].map (⟨·, {}⟩)
  sealed := ⟨_, _, (List.dropLast_append_getLast (by simp)).symm, rfl, by decide⟩

theorem skipping_keeps_scope_braced :
    braced.Nests ∧ 2 < braced.tokens.length ∧ 1 < braced.tokens.length ∧ braced.AtScopeLevel 2 ∧
      braced.peek? 1 = some (.mark .openBrace) ∧
      (∃ close, braced.ScopeEnd 2 close ∧
        braced.StopsBetween 2 close (skipDeclaration (braced.tokens.drop 2)) ∧
        braced.StopsBetween 2 close (leftBehind (takeStatement (braced.tokens.drop 2)))) ∧
      ∃ last, braced.GroupEnd .openBrace .closeBrace 1 last ∧
        skipGroup (braced.tokens.drop 1) = braced.tokens.drop (last + 1) := by
  have nests : braced.Nests := rfl
  have second : 2 < braced.tokens.length := by decide
  have first : 1 < braced.tokens.length := by decide
  have level : braced.AtScopeLevel 2 := ⟨[(1, .openBrace)], rfl, by decide⟩
  have opens : braced.peek? 1 = some (.mark .openBrace) := rfl
  exact ⟨nests, second, first, level, opens, (skipping_keeps_scope braced nests second).1 level,
    (skipping_keeps_scope braced nests first).2 _ _ .braces opens⟩

end TokenFile

end HeaderMeta
