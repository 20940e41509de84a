import Mathlib.Data.Nat.PSub
import HeaderMeta.Proofs.Progress.Records

/-! Moving over tokens by their positions.

The readers of this library hold what is left of a file. Here the same moves are made on the number
of the next token, with the counters that go up and down and the slices that are cut: `none` where a
counter would fall below zero or a slice is not there. None of that happens at any position of a file.
A loop has as many rounds as the file has tokens, with `left` of them to come, and `none` stands for one
that would need more as well.
-/

set_option autoImplicit false

namespace HeaderMeta

def Tokens.upTo (ts us : Tokens) : Tokens :=
  ts.take (ts.length - us.length)

@[simp] theorem Tokens.upTo_self (ts : Tokens) : ts.upTo ts = [] := by
  simp [upTo]

theorem Tokens.upTo_tail {t : Placed} {ts us : Tokens} (ahead : ts.Ahead (t :: us)) :
    ts.upTo us = ts.upTo (t :: us) ++ [t] := by
  obtain ⟨before, rfl⟩ := ahead.suffix
  have whole : before ++ t :: us = (before ++ [t]) ++ us := by simp
  simp only [upTo, List.length_append, Nat.add_sub_cancel, List.take_left]
  rw [whole, show before.length + (t :: us).length - us.length = (before ++ [t]).length by simp; omega,
    List.take_left]

/-- The tokens of a file: the last one, and no other, is the end of the file. -/
structure TokenFile where
  source : Source
  tokens : Tokens
  sealed : ∃ init last, tokens = init ++ [last] ∧ last.token = .eof ∧ ∀ t ∈ init, t.token ≠ .eof

/-- With more rounds to come than `n`, there is one, and as many as `n` behind it. -/
theorem exists_round {n left : Nat} (enough : n < left) : ∃ fewer, left = fewer + 1 ∧ n ≤ fewer :=
  ⟨left - 1, by omega, by omega⟩

namespace TokenFile
variable (file : TokenFile)

/-- The number of the token that `ts` starts with. -/
def position (ts : Tokens) : Nat :=
  file.tokens.length - ts.length

def peekAt (pos n : Nat) : Token :=
  match file.tokens[pos + n]?.or file.tokens.getLast? with
  | some t => t.token
  | none => .eof

/-- The token at a position, which is one of the file. -/
def peek? (pos : Nat) : Option Token :=
  if pos < file.tokens.length then some (file.peekAt pos 0) else none

def next (pos : Nat) : Nat :=
  if pos < file.tokens.length - 1 then pos + 1 else pos

def slice? (a b : Nat) : Option Tokens :=
  if a ≤ b ∧ b ≤ file.tokens.length then some ((file.tokens.take b).drop a) else none

section Positions
variable {file} {t : Placed} {ts : Tokens}

theorem closed_tokens (file : TokenFile) : file.tokens.Closed := by
  obtain ⟨init, last, same, eof, -⟩ := file.sealed
  exact ⟨last, by simp [same], eof⟩

/-- Every part of the file that a reader can hold starts at a position in the file. -/
theorem position_lt (ahead : file.tokens.Ahead ts) : file.position ts < file.tokens.length := by
  have some := List.length_pos_iff.mpr (ahead.closed file.closed_tokens).ne_nil
  have := ahead.length_le
  unfold position
  omega

theorem drop_position (ahead : file.tokens.Ahead ts) : file.tokens.drop (file.position ts) = ts :=
  (List.suffix_iff_eq_drop.mp ahead.suffix).symm

theorem peekAt_position (ahead : file.tokens.Ahead ts) (n : Nat) :
    file.peekAt (file.position ts) n = ts.peekAt n := by
  obtain ⟨last, found, eof⟩ := file.closed_tokens
  have here : file.tokens[file.position ts + n]? = ts[n]? := by
    rw [← List.getElem?_drop, drop_position ahead]
  unfold peekAt Tokens.peekAt
  rw [here, found]
  cases ts[n]? with
  | none => exact eof
  | some t => rfl

theorem peek?_position (ahead : file.tokens.Ahead ts) : file.peek? (file.position ts) = some ts.peek := by
  rw [peek?, if_pos (position_lt ahead), peekAt_position ahead]
  rfl

theorem next_position (ahead : file.tokens.Ahead ts) :
    file.next (file.position ts) = file.position ts.advance := by
  have le := ahead.length_le
  unfold next position
  match ts with
  | [] => exact absurd rfl (ahead.closed file.closed_tokens).ne_nil
  | [t] => simp [Tokens.advance]
  | t :: u :: us =>
    simp only [Tokens.advance, List.length_cons] at le ⊢
    rw [if_pos (by omega)]
    omega

theorem next_tail (ahead : file.tokens.Ahead (t :: ts)) (inside : t.token ≠ .eof) :
    file.next (file.position (t :: ts)) = file.position ts := by
  have behind := (ahead.trans (Tokens.ahead_tail inside)).closed file.closed_tokens
  rw [next_position ahead, Tokens.advance_cons behind.ne_nil]

/-- Nothing stands behind the end of the file. -/
theorem eq_nil_of_eof (ahead : file.tokens.Ahead (t :: ts)) (eof : t.token = .eof) : ts = [] := by
  obtain ⟨init, last, same, -, inner⟩ := file.sealed
  obtain ⟨before, split⟩ := ahead.suffix
  rw [same] at split
  rcases List.eq_nil_or_concat ts with rfl | ⟨us, u, rfl⟩
  · rfl
  · rw [List.concat_eq_append, ← List.cons_append, ← List.append_assoc] at split
    have among : t ∈ init := (List.append_inj' split rfl).1 ▸ by simp
    exact absurd eof (inner t among)

theorem slice?_position {us : Tokens} (ahead : file.tokens.Ahead ts) (further : ts.Ahead us) :
    file.slice? (file.position ts) (file.position us) = some (ts.upTo us) := by
  have le := ahead.length_le
  have shorter := further.length_le
  have start : file.position ts ≤ file.position us := by
    unfold position
    omega
  have within : file.position us ≤ file.tokens.length := Nat.sub_le _ _
  have width : file.position us - file.position ts = ts.length - us.length := by
    unfold position
    omega
  rw [slice?, if_pos ⟨start, within⟩, List.drop_take, drop_position ahead, width, Tokens.upTo]

end Positions

section Moves

def closeGroup? («open» close : Mark) : (left depth pos : Nat) → Option (Nat × Nat)
  | 0, _, _ => none
  | left + 1, depth, pos => do
    let token ← file.peek? pos
    if token = .eof then some (pos, pos)
    else if token = .mark «open» then closeGroup? «open» close left (depth + 1) (file.next pos)
    else if token = .mark close then do
      let depth ← depth.ppred
      if depth = 0 then some (pos, file.next pos)
      else closeGroup? «open» close left depth (file.next pos)
    else closeGroup? «open» close left depth (file.next pos)

def skipGroup? (pos : Nat) : Option (Nat × Nat) := do
  match ← file.peek? pos with
  | .mark m =>
    match Tokens.closerOf? m with
    | some close => file.closeGroup? m close file.tokens.length 0 pos
    | none => some (pos, pos)
  | _ => some (pos, pos)

def closeAngles? : (left angles pos : Nat) → Option Nat
  | 0, _, _ => none
  | left + 1, angles, pos => do
    match ← file.peek? pos with
    | .eof | .mark .semicolon | .mark .openBrace => some pos
    | .mark .openParen => do
      let group ← file.skipGroup? pos
      closeAngles? left angles group.2
    | .mark .less => closeAngles? left (angles + 1) (file.next pos)
    | .mark .greater => do
      let angles ← angles.ppred
      if angles = 0 then some (file.next pos) else closeAngles? left angles (file.next pos)
    | _ => closeAngles? left angles (file.next pos)

def skipAngles? (pos : Nat) : Option Nat := do
  if (← file.peek? pos) = .mark .less then file.closeAngles? file.tokens.length 0 pos else some pos

def startsDeclaration : Token → Bool
  | .mark .closeBrace => true
  | .word word => Tokens.declarationStarts.contains word
  | _ => false

def skipFrom? : (left depth pos : Nat) → Option Nat
  | 0, _, _ => none
  | left + 1, depth, pos => do
    match ← file.peek? pos with
    | .eof => some pos
    | .mark .closeBrace => if depth = 0 then some pos else skipFrom? left depth (file.next pos)
    | .mark .semicolon =>
      if depth = 0 then some (file.next pos) else skipFrom? left depth (file.next pos)
    | .mark .openBrace => do
      let group ← file.skipGroup? pos
      if depth = 0 then
        match ← file.peek? group.2 with
        | .mark .comma | .mark .openBrace => skipFrom? left depth group.2
        | .mark .semicolon => some (file.next group.2)
        | _ => some group.2
      else skipFrom? left depth group.2
    | .mark .openParen | .mark .openBracket => skipFrom? left (depth + 1) (file.next pos)
    | .mark .closeParen | .mark .closeBracket => do
      let behind ← file.peek? (file.next pos)
      if depth - 1 = 0 && startsDeclaration behind then some (file.next pos)
      else skipFrom? left (depth - 1) (file.next pos)
    | _ => skipFrom? left depth (file.next pos)

/-- The tokens of a statement that starts at `start`, and the position behind its semicolon; or, when
there is none, the position where the scope ends. -/
def takeFrom? (start : Nat) : (left depth pos : Nat) → Option (Option Tokens × Nat)
  | 0, _, _ => none
  | left + 1, depth, pos => do
    match ← file.peek? pos with
    | .eof => some (none, pos)
    | .mark .semicolon =>
      if depth = 0 then do
        let body ← file.slice? start pos
        some (some body, file.next pos)
      else takeFrom? start left depth (file.next pos)
    | .mark .closeBrace =>
      if depth = 0 then some (none, pos) else takeFrom? start left (depth - 1) (file.next pos)
    | .mark .openParen | .mark .openBracket | .mark .openBrace =>
      takeFrom? start left (depth + 1) (file.next pos)
    | .mark .closeParen | .mark .closeBracket => takeFrom? start left (depth - 1) (file.next pos)
    | _ => takeFrom? start left depth (file.next pos)

/-- The tokens of a base, those taken before in front, and the position of the brace or comma after
it. A semicolon or the end of the file means that no body follows. -/
def spellingTokens? :
    (left angles : Nat) → (spelled : List Token) → (pos : Nat) → Option (Option (List Token × Nat))
  | 0, _, _, _ => none
  | left + 1, angles, spelled, pos => do
    match ← file.peek? pos with
    | .eof | .mark .semicolon => some none
    | .mark .openParen => do
      let group ← file.skipGroup? pos
      let inner ← file.slice? pos group.2
      spellingTokens? left angles (spelled ++ inner.map Placed.token) group.2
    | .mark .less => spellingTokens? left (angles + 1) (spelled ++ [.mark .less]) (file.next pos)
    | .mark .greater =>
      spellingTokens? left (angles - 1) (spelled ++ [.mark .greater]) (file.next pos)
    | token =>
      if angles = 0 ∧ (token = .mark .openBrace ∨ token = .mark .comma) then some (some (spelled, pos))
      else spellingTokens? left angles (spelled ++ [token]) (file.next pos)

def declaresFunction? (pos : Nat) : Option Bool :=
  (file.slice? pos file.tokens.length).map Tokens.declaresFunction

variable {file} {ts : Tokens}

theorem exists_round_skipGroup {m close : Mark} {span : Span} {left : Nat} {rest : Tokens}
    (closes : Tokens.closerOf? m = some close) (enough : (⟨.mark m, span⟩ :: rest : Tokens).length ≤ left) :
    ∃ fewer, left = fewer + 1 ∧ (Tokens.skipGroup (⟨.mark m, span⟩ :: rest)).length ≤ fewer := by
  obtain ⟨fewer, rfl, -⟩ := exists_round enough
  exact ⟨fewer, rfl, Nat.le_of_lt_succ ((Tokens.length_skipGroup_lt closes).trans_le enough)⟩

theorem closeGroup?_position {«open» close : Mark} {left : Nat} (distinct : close ≠ «open») (inner : Nat)
    (ahead : file.tokens.Ahead ts) (enough : ts.length ≤ left) :
    file.closeGroup? «open» close left (inner + 1) (file.position ts) =
      some (file.position (Tokens.findClose «open» close inner ts),
        file.position (Tokens.findClose «open» close inner ts).advance) := by
  fun_induction Tokens.findClose «open» close inner ts generalizing left with
  | case1 => exact absurd rfl (ahead.closed file.closed_tokens).ne_nil
  | case2 inner t ts eof =>
    obtain ⟨left, rfl, -⟩ := exists_round enough
    obtain rfl := eq_nil_of_eof ahead eof
    rw [closeGroup?, peek?_position ahead]
    simp [eof, Tokens.advance]
  | case3 inner t ts inside opens ih =>
    obtain ⟨left, rfl, more⟩ := exists_round enough
    have next := ahead.trans (Tokens.ahead_tail inside)
    rw [closeGroup?, peek?_position ahead, next_tail ahead inside]
    simp [opens, ih next more]
  | case4 t ts inside notOpen closes =>
    obtain ⟨left, rfl, -⟩ := exists_round enough
    rw [closeGroup?, peek?_position ahead, next_position ahead]
    simp [closes, distinct]
  | case5 t ts inside notOpen closes inner ih =>
    obtain ⟨left, rfl, more⟩ := exists_round enough
    have next := ahead.trans (Tokens.ahead_tail inside)
    rw [closeGroup?, peek?_position ahead, next_tail ahead inside]
    simp [closes, distinct, ih next more]
  | case6 inner t ts inside notOpen notClose ih =>
    obtain ⟨left, rfl, more⟩ := exists_round enough
    have next := ahead.trans (Tokens.ahead_tail inside)
    rw [closeGroup?, peek?_position ahead, next_tail ahead inside]
    simp [inside, notOpen, notClose, ih next more]

theorem closer_ne {m close : Mark} (closes : Tokens.closerOf? m = some close) : close ≠ m := by
  cases m <;> simp [Tokens.closerOf?] at closes <;> simp [← closes]

theorem skipGroup?_position (ahead : file.tokens.Ahead ts) :
    file.skipGroup? (file.position ts) =
      some (file.position ts.toClose, file.position ts.skipGroup) := by
  rw [skipGroup?, peek?_position ahead]
  match ts with
  | [] => exact absurd rfl (ahead.closed file.closed_tokens).ne_nil
  | ⟨token, span⟩ :: rest =>
    cases token with
    | mark m =>
      cases closes : Tokens.closerOf? m with
      | none => simp [Tokens.toClose, Tokens.skipGroup, closes]
      | some close =>
        have inside : (Token.mark m) ≠ .eof := by simp
        have behind := ahead.trans (Tokens.ahead_tail inside)
        obtain ⟨left, rounds, enough⟩ := exists_round ahead.length_le
        have read := closeGroup?_position (closer_ne closes) 0 behind enough
        simp only [Tokens.peek_cons, Option.bind_eq_bind, Option.bind_some, Tokens.toClose,
          Tokens.skipGroup, closes]
        rw [rounds, closeGroup?, peek?_position ahead, next_tail ahead inside]
        simpa using read
    | _ => simp [Tokens.toClose, Tokens.skipGroup]

/-- Angles are counted down only where one is open: the first that is met opens. -/
theorem closeAngles?_position {left angles : Nat} (ahead : file.tokens.Ahead ts)
    (opened : 0 < angles ∨ ts.peek = .mark .less) (enough : ts.length ≤ left) :
    file.closeAngles? left angles (file.position ts) =
      some (file.position (Tokens.closeAngles angles ts)) := by
  fun_induction Tokens.closeAngles angles ts generalizing left with
  | case1 => exact absurd rfl (ahead.closed file.closed_tokens).ne_nil
  | case2 angles t rest token | case3 angles t rest token | case4 angles t rest token =>
    obtain ⟨left, rfl, -⟩ := exists_round enough
    rw [closeAngles?, peek?_position ahead]
    simp [token]
  | case5 angles t rest token ih =>
    obtain ⟨_, span⟩ := t
    cases token
    obtain ⟨left, rfl, more⟩ := exists_round_skipGroup rfl enough
    rw [closeAngles?, peek?_position ahead]
    simpa [skipGroup?_position ahead] using
      ih (ahead.trans (Tokens.ahead_skipGroup _)) (.inl (opened.resolve_right (by simp)))
        more
  | case6 angles t rest token ih =>
    obtain ⟨left, rfl, more⟩ := exists_round enough
    have inside : t.token ≠ .eof := by simp [token]
    rw [closeAngles?, peek?_position ahead, next_tail ahead inside]
    simpa [token] using ih (ahead.trans (Tokens.ahead_tail inside)) (.inl (Nat.succ_pos angles)) more
  | case7 t rest token => exact absurd opened (by simp [token])
  | case8 t rest token =>
    obtain ⟨left, rfl, -⟩ := exists_round enough
    rw [closeAngles?, peek?_position ahead, next_tail ahead (by simp [token])]
    simp [token]
  | case9 t rest token angles ih =>
    obtain ⟨left, rfl, more⟩ := exists_round enough
    have inside : t.token ≠ .eof := by simp [token]
    rw [closeAngles?, peek?_position ahead, next_tail ahead inside]
    simpa [token] using ih (ahead.trans (Tokens.ahead_tail inside)) (.inl (Nat.succ_pos angles)) more
  | case10 angles t rest inside noSemicolon noBrace noParen noLess noGreater ih =>
    obtain ⟨left, rfl, more⟩ := exists_round enough
    rw [closeAngles?, peek?_position ahead, next_tail ahead inside]
    simpa using ih (ahead.trans (Tokens.ahead_tail inside)) (.inl (opened.resolve_right noLess)) more

theorem skipAngles?_position (ahead : file.tokens.Ahead ts) :
    file.skipAngles? (file.position ts) = some (file.position ts.skipAngles) := by
  rw [skipAngles?, peek?_position ahead, Tokens.skipAngles]
  by_cases opens : ts.peek = .mark .less
  · simp [Tokens.atMark, opens, closeAngles?_position ahead (.inr opens) ahead.length_le]
  · simp [Tokens.atMark, opens]

theorem startsDeclaration_eq (ts : Tokens) : ts.startsDeclaration = startsDeclaration ts.peek := rfl

theorem skipFrom?_position {left depth : Nat} (ahead : file.tokens.Ahead ts) (enough : ts.length ≤ left) :
    file.skipFrom? left depth (file.position ts) = some (file.position (Tokens.skipFrom depth ts)) := by
  fun_induction Tokens.skipFrom depth ts generalizing left with
  | case1 => exact absurd rfl (ahead.closed file.closed_tokens).ne_nil
  | case2 depth t rest token | case3 t rest token =>
    obtain ⟨left, rfl, -⟩ := exists_round enough
    rw [skipFrom?, peek?_position ahead]
    simp [token]
  | case5 t rest token =>
    obtain ⟨left, rfl, -⟩ := exists_round enough
    rw [skipFrom?, peek?_position ahead, next_tail ahead (by simp [token])]
    simp [token]
  | case4 depth t rest token deep ih | case6 depth t rest token deep ih =>
    obtain ⟨left, rfl, more⟩ := exists_round enough
    have inside : t.token ≠ .eof := by simp [token]
    rw [skipFrom?, peek?_position ahead, next_tail ahead inside]
    simpa [token, deep] using ih (ahead.trans (Tokens.ahead_tail inside)) more
  | case7 depth t rest token after further =>
    rename_i ih
    obtain ⟨_, span⟩ := t
    cases token
    obtain ⟨left, rfl, more⟩ := exists_round_skipGroup rfl enough
    have skipped := skipGroup?_position ahead
    have behind : file.tokens.Ahead after := ahead.trans (Tokens.ahead_skipGroup _)
    have read := ih behind more
    rw [show Tokens.skipGroup _ = after from rfl] at skipped
    -- from here on it only matters that `after` is ahead
    clear_value after
    rw [skipFrom?, peek?_position ahead]
    simp only [Tokens.peek_cons, skipped, Option.bind_eq_bind, Option.bind_some, peek?_position behind]
    split
    · split <;> simp_all [Tokens.atMark]
    · exact read
  | case8 depth t rest token after =>
    rename_i ends
    obtain ⟨left, rfl, -⟩ := exists_round enough
    obtain ⟨_, span⟩ := t
    cases token
    have skipped := skipGroup?_position ahead
    have behind : file.tokens.Ahead after := ahead.trans (Tokens.ahead_skipGroup _)
    rw [show Tokens.skipGroup _ = after from rfl] at skipped
    clear_value after
    rw [skipFrom?, peek?_position ahead]
    simp only [Tokens.peek_cons, skipped, Option.bind_eq_bind, Option.bind_some, peek?_position behind,
      next_position behind]
    split
    · split <;> simp_all [Tokens.atMark, Tokens.eat]
    · simp_all
  | case9 depth t rest token ih | case10 depth t rest token ih =>
    obtain ⟨left, rfl, more⟩ := exists_round enough
    have inside : t.token ≠ .eof := by simp [token]
    rw [skipFrom?, peek?_position ahead, next_tail ahead inside]
    simpa [token] using ih (ahead.trans (Tokens.ahead_tail inside)) more
  | case11 depth t rest token ends | case13 depth t rest token ends =>
    obtain ⟨left, rfl, -⟩ := exists_round enough
    have inside : t.token ≠ .eof := by simp [token]
    have behind := ahead.trans (Tokens.ahead_tail inside)
    rw [skipFrom?, peek?_position ahead, next_tail ahead inside, peek?_position behind]
    simp only [startsDeclaration_eq, Bool.and_eq_true, decide_eq_true_eq] at ends
    simp [token, ends.2, Nat.sub_eq_zero_of_le ends.1]
  | case12 depth t rest token goesOn ih | case14 depth t rest token goesOn ih =>
    obtain ⟨left, rfl, more⟩ := exists_round enough
    have inside : t.token ≠ .eof := by simp [token]
    have behind := ahead.trans (Tokens.ahead_tail inside)
    rw [skipFrom?, peek?_position ahead, next_tail ahead inside, peek?_position behind]
    simp only [startsDeclaration_eq, Bool.and_eq_true, decide_eq_true_eq] at goesOn
    simpa [token, Nat.sub_eq_zero_iff_le, goesOn] using ih behind more
  | case15 depth t rest inside _ _ _ _ _ _ _ ih =>
    obtain ⟨left, rfl, more⟩ := exists_round enough
    rw [skipFrom?, peek?_position ahead, next_tail ahead inside]
    simpa using ih (ahead.trans (Tokens.ahead_tail inside)) more

def taken (file : TokenFile) (before : Tokens) : Except Tokens Tokens.Statement → Option Tokens × Nat
  | .ok statement => (some (before ++ statement.body), file.position statement.rest)
  | .error rest => (none, file.position rest)

theorem taken_keep (before : Tokens) (t : Placed) (read : Except Tokens Tokens.Statement) :
    file.taken before (Tokens.takeFrom.keep t read) = file.taken (before ++ [t]) read := by
  cases read <;> simp [taken, Tokens.takeFrom.keep]

theorem takeFrom?_position {first : Tokens} {left : Nat} (depth : Nat) (begun : file.tokens.Ahead first)
    (further : first.Ahead ts) (enough : ts.length ≤ left) :
    file.takeFrom? (file.position first) left depth (file.position ts) =
      some (file.taken (first.upTo ts) (Tokens.takeFrom depth ts)) := by
  have ahead := begun.trans further
  fun_induction Tokens.takeFrom depth ts generalizing left with
  | case1 => exact absurd rfl (ahead.closed file.closed_tokens).ne_nil
  | case2 depth t ts token =>
    obtain ⟨left, rfl, -⟩ := exists_round enough
    rw [takeFrom?, peek?_position ahead]
    simp [token, taken]
  | case3 t ts token =>
    obtain ⟨left, rfl, -⟩ := exists_round enough
    rw [takeFrom?, peek?_position ahead, next_tail ahead (by simp [token])]
    simp [token, taken, slice?_position begun further]
  -- a token that the statement keeps moves from what is read to what was taken before
  | case4 depth t ts token deep ih | case6 depth t ts token deep ih =>
    obtain ⟨left, rfl, more⟩ := exists_round enough
    have inside : t.token ≠ .eof := by simp [token]
    have tail : Tokens.Ahead (t :: ts) ts := Tokens.ahead_tail inside
    have read := ih (further.trans tail) more (ahead.trans tail)
    rw [takeFrom?, peek?_position ahead, next_tail ahead inside, taken_keep, ← Tokens.upTo_tail further]
    simpa [token, deep] using read
  | case5 t ts token =>
    obtain ⟨left, rfl, -⟩ := exists_round enough
    rw [takeFrom?, peek?_position ahead]
    simp [token, taken]
  | case7 depth t ts token ih | case8 depth t ts token ih | case9 depth t ts token ih
  | case10 depth t ts token ih | case11 depth t ts token ih =>
    obtain ⟨left, rfl, more⟩ := exists_round enough
    have inside : t.token ≠ .eof := by simp [token]
    have tail : Tokens.Ahead (t :: ts) ts := Tokens.ahead_tail inside
    have read := ih (further.trans tail) more (ahead.trans tail)
    rw [takeFrom?, peek?_position ahead, next_tail ahead inside, taken_keep, ← Tokens.upTo_tail further]
    simpa [token] using read
  | case12 depth t ts inside _ _ _ _ _ _ _ ih =>
    obtain ⟨left, rfl, more⟩ := exists_round enough
    have tail : Tokens.Ahead (t :: ts) ts := Tokens.ahead_tail inside
    have read := ih (further.trans tail) more (ahead.trans tail)
    rw [takeFrom?, peek?_position ahead, next_tail ahead inside, taken_keep, ← Tokens.upTo_tail further]
    simpa using read

theorem declaresFunction?_position (ahead : file.tokens.Ahead ts) :
    file.declaresFunction? (file.position ts) = some ts.declaresFunction := by
  have within : file.position ts ≤ file.tokens.length := Nat.sub_le _ _
  rw [declaresFunction?, slice?, if_pos ⟨within, Nat.le_refl _⟩, List.take_length, drop_position ahead,
    Option.map_some]

theorem spellingTokens?_position {left : Nat} (angles : Nat) (ahead : file.tokens.Ahead ts)
    (before : List Token) (enough : ts.length ≤ left) :
    file.spellingTokens? left angles before (file.position ts) =
      some ((Base.spellingTokens angles ts).map fun (spelled, rest) =>
        (before ++ spelled, file.position rest)) := by
  -- a token that is kept goes to the front of what is read, or to the end of what was read before
  have kept (t : Token) (before : List Token) (read : Option (List Token × Tokens)) :
      (Base.spellingTokens.keep t read).map (fun (spelled, rest) =>
        (before ++ spelled, file.position rest)) =
      read.map fun (spelled, rest) => (before ++ [t] ++ spelled, file.position rest) := by
    cases read <;> simp [Base.spellingTokens.keep]
  fun_induction Base.spellingTokens angles ts generalizing before left with
  | case1 => exact absurd rfl (ahead.closed file.closed_tokens).ne_nil
  | case2 angles t ts token | case3 angles t ts token =>
    obtain ⟨left, rfl, -⟩ := exists_round enough
    rw [spellingTokens?, peek?_position ahead]
    simp [token]
  | case4 angles t ts token after group =>
    rename_i ih
    obtain ⟨_, span⟩ := t
    cases token
    obtain ⟨left, rfl, more⟩ := exists_round_skipGroup rfl enough
    have skipped := skipGroup?_position ahead
    have further : Tokens.Ahead (⟨.mark .openParen, span⟩ :: ts) after := Tokens.ahead_skipGroup _
    have sliced := slice?_position ahead further
    have read := ih (ahead.trans further) (before ++ group.map Placed.token) more
    rw [show Tokens.skipGroup _ = after from rfl] at skipped
    rw [spellingTokens?, peek?_position ahead]
    simp only [Tokens.peek_cons, skipped, sliced, Option.bind_eq_bind, Option.bind_some]
    rw [show Tokens.upTo _ after = group from rfl, read]
    cases Base.spellingTokens angles after <;> simp
  | case5 angles t ts token ih | case6 angles t ts token ih =>
    obtain ⟨left, rfl, more⟩ := exists_round enough
    have inside : t.token ≠ .eof := by simp [token]
    have read := ih (ahead.trans (Tokens.ahead_tail inside)) (before ++ [t.token]) more
    rw [spellingTokens?, peek?_position ahead, next_tail ahead inside, kept]
    simpa [token] using read
  | case7 t ts token | case9 t ts token =>
    obtain ⟨left, rfl, -⟩ := exists_round enough
    rw [spellingTokens?, peek?_position ahead]
    simp [token]
  | case8 angles t ts token open' ih | case10 angles t ts token open' ih =>
    obtain ⟨left, rfl, more⟩ := exists_round enough
    have inside : t.token ≠ .eof := by simp [token]
    have read := ih (ahead.trans (Tokens.ahead_tail inside)) (before ++ [t.token]) more
    rw [spellingTokens?, peek?_position ahead, next_tail ahead inside, kept]
    simpa [token, open'] using read
  | case11 angles t ts inside _ _ _ _ noBrace noComma ih =>
    obtain ⟨left, rfl, more⟩ := exists_round enough
    have read := ih (ahead.trans (Tokens.ahead_tail inside)) (before ++ [t.token]) more
    rw [spellingTokens?, peek?_position ahead, next_tail ahead inside, kept]
    simp only [Tokens.peek_cons, Option.bind_eq_bind, Option.bind_some]
    split <;> simp_all

end Moves

end TokenFile

end HeaderMeta
