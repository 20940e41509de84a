import HeaderMeta.Token

/-! Moving over the tokens of a header.

A reader holds the tokens that are left. The last of them is the end of the file, and no function
here moves past it. The functions skip balanced groups, template angles and whole declarations, and
take a statement up to its semicolon.
-/

set_option autoImplicit false

namespace HeaderMeta

abbrev Tokens := List Placed

namespace Tokens

def peekAt (ts : Tokens) (n : Nat) : Token :=
  match ts[n]? with
  | some t => t.token
  | none => .eof

def peek (ts : Tokens) : Token :=
  ts.peekAt 0

def here (ts : Tokens) : Span :=
  match ts with
  | [] => {}
  | t :: _ => t.span

def atMark (ts : Tokens) (m : Mark) : Bool :=
  ts.peek == .mark m

def atWord (ts : Tokens) (word : String) : Bool :=
  ts.peek == .word word

def word? (ts : Tokens) : Option String :=
  ts.peek.word?

/-- Move one token ahead, never past the end of the file. -/
def advance : Tokens → Tokens
  | [] => []
  | [t] => [t]
  | _ :: ts => ts

def eat (ts : Tokens) (m : Mark) : Bool × Tokens :=
  if ts.atMark m then (true, ts.advance) else (false, ts)

def atAttributes (ts : Tokens) : Bool :=
  ts.atMark .openBracket && ts.peekAt 1 == .mark .openBracket

def atAttributesEnd (ts : Tokens) : Bool :=
  ts.atMark .closeBracket && ts.peekAt 1 == .mark .closeBracket

theorem length_advance_le (ts : Tokens) : ts.advance.length ≤ ts.length := by
  match ts with
  | [] | [_] => simp [advance]
  | _ :: _ :: _ => simp [advance]

theorem length_advance_lt_of_peekAt {ts : Tokens} {m : Mark} (h : ts.peekAt 1 = .mark m) :
    ts.advance.length < ts.length := by
  match ts with
  | [] | [_] => simp [peekAt] at h
  | _ :: _ :: _ => simp [advance]

theorem length_advance_lt_of_atAttributes {ts : Tokens} (h : ts.atAttributes = true) :
    ts.advance.length < ts.length := by
  simp only [atAttributes, Bool.and_eq_true, beq_iff_eq] at h
  exact length_advance_lt_of_peekAt h.2

def closerOf? : Mark → Option Mark
  | .openParen => some .closeParen
  | .openBracket => some .closeBracket
  | .openBrace => some .closeBrace
  | _ => none

/-- Move to the `close` that ends the current group, or to the end of the file. `inner` groups of
the same kind are open inside it. -/
def findClose («open» close : Mark) : (inner : Nat) → Tokens → Tokens
  | _, [] => []
  | inner, t :: ts =>
    if t.token = .eof then t :: ts
    else if t.token = .mark «open» then findClose «open» close (inner + 1) ts
    else if t.token = .mark close then
      match inner with
      | 0 => t :: ts
      | inner + 1 => findClose «open» close inner ts
    else findClose «open» close inner ts

theorem length_findClose_le («open» close : Mark) (inner : Nat) (ts : Tokens) :
    (findClose «open» close inner ts).length ≤ ts.length := by
  fun_induction findClose «open» close inner ts <;> simp_all <;> omega

/-- From an opening mark, the tokens from the matching closing mark on. Elsewhere nothing moves. -/
def toClose (ts : Tokens) : Tokens :=
  match ts with
  | ⟨.mark m, span⟩ :: rest =>
    match closerOf? m with
    | some close => findClose m close 0 rest
    | none => ⟨.mark m, span⟩ :: rest
  | ts => ts

def skipGroup (ts : Tokens) : Tokens :=
  match ts with
  | ⟨.mark m, span⟩ :: rest =>
    match closerOf? m with
    | some close => (findClose m close 0 rest).advance
    | none => ⟨.mark m, span⟩ :: rest
  | ts => ts

theorem length_skipGroup_lt {m close : Mark} {span : Span} {rest : Tokens}
    (h : closerOf? m = some close) :
    (skipGroup (⟨.mark m, span⟩ :: rest)).length < rest.length + 1 := by
  have := length_findClose_le m close 0 rest
  have := length_advance_le (findClose m close 0 rest)
  simp only [skipGroup, h]
  omega

theorem length_skipGroup_le (ts : Tokens) : (skipGroup ts).length ≤ ts.length := by
  match ts with
  | [] => simp [skipGroup]
  | ⟨token, span⟩ :: rest =>
    cases token with
    | mark m =>
      cases h : closerOf? m with
      | some close => exact Nat.le_of_lt (length_skipGroup_lt h)
      | none => simp [skipGroup, h]
    | _ => simp [skipGroup]

theorem length_eat_le (ts : Tokens) (m : Mark) : (ts.eat m).2.length ≤ ts.length := by
  unfold eat
  split
  · exact length_advance_le ts
  · exact Nat.le_refl _

/-- Move over template angles, `angles` of which are open. Angles inside parentheses do not count,
and a semicolon or brace ends the attempt. -/
def closeAngles (angles : Nat) (ts : Tokens) : Tokens :=
  match ts with
  | [] => []
  | t :: rest =>
    match t.token with
    | .eof | .mark .semicolon | .mark .openBrace => t :: rest
    | .mark .openParen => closeAngles angles (skipGroup (⟨.mark .openParen, t.span⟩ :: rest))
    | .mark .less => closeAngles (angles + 1) rest
    | .mark .greater =>
      match angles with
      | 0 | 1 => rest
      | angles + 2 => closeAngles (angles + 1) rest
    | _ => closeAngles angles rest
termination_by ts.length
decreasing_by
  all_goals first
    | exact length_skipGroup_lt rfl
    | simp

def skipAngles (ts : Tokens) : Tokens :=
  if ts.atMark .less then closeAngles 0 ts else ts

def declarationStarts : List String :=
  ["struct", "class", "union", "enum", "namespace", "template", "typedef", "using", "public",
    "protected", "private", "friend", "extern"]

def startsDeclaration (ts : Tokens) : Bool :=
  match ts.peek with
  | .mark .closeBrace => true
  | .word word => declarationStarts.contains word
  | _ => false

/-- Move to the end of the current declaration, `depth` parentheses and brackets being open.

Stops after a semicolon or a brace body outside all brackets, before a brace that closes the scope
around, and after a macro call that a new declaration follows directly. -/
def skipFrom (depth : Nat) (ts : Tokens) : Tokens :=
  match ts with
  | [] => []
  | t :: rest =>
    match t.token with
    | .eof => t :: rest
    | .mark .closeBrace => if depth = 0 then t :: rest else skipFrom depth rest
    | .mark .semicolon => if depth = 0 then rest else skipFrom depth rest
    | .mark .openBrace =>
      let after := skipGroup (⟨.mark .openBrace, t.span⟩ :: rest)
      -- initialiser lists: a{1}, b{2} { ... }
      if depth != 0 || after.atMark .comma || after.atMark .openBrace then skipFrom depth after
      else (after.eat .semicolon).2
    | .mark .openParen | .mark .openBracket => skipFrom (depth + 1) rest
    | .mark .closeParen | .mark .closeBracket =>
      if depth ≤ 1 && startsDeclaration rest then rest else skipFrom (depth - 1) rest
    | _ => skipFrom depth rest
termination_by ts.length
decreasing_by
  all_goals first
    | exact length_skipGroup_lt rfl
    | simp

def skipDeclaration (ts : Tokens) : Tokens :=
  skipFrom 0 ts

/-- Names joined by `::` that start here, without the word `inline` among them. -/
def nameParts : Tokens → List String × Tokens
  | ⟨.word word, _⟩ :: rest =>
    let own := if word = "inline" then [] else [word]
    match rest with
    | ⟨.mark .colonColon, _⟩ :: next =>
      if (peek next).isWord then
        let (parts, after) := nameParts next
        (own ++ parts, after)
      else (own, rest)
    | _ => (own, rest)
  | ts => ([], ts)

theorem length_nameParts_le (ts : Tokens) : (nameParts ts).2.length ≤ ts.length := by
  fun_induction nameParts ts with
  | case1 word span own span' next goesOn parts after read ih =>
    rw [read] at ih
    exact Nat.le_add_right_of_le (Nat.le_add_right_of_le ih)
  | case2 => simp
  | case3 => simp
  | case4 => exact Nat.le_refl _

theorem length_nameParts_lt (word : String) (span : Span) (ts : Tokens) :
    (nameParts (⟨.word word, span⟩ :: ts)).2.length < ts.length + 1 := by
  match ts with
  | [] => simp [nameParts]
  | ⟨token, span⟩ :: next =>
    have := length_nameParts_le next
    by_cases h : token = .mark .colonColon
    · subst h
      by_cases hw : (peek next).isWord
      · simp [nameParts, hw]
        omega
      · simp [nameParts, hw]
    · rw [nameParts]
      · simp
      · intro _ _ e
        simp_all

def qualifiedName (ts : Tokens) : List String × Tokens :=
  nameParts (if ts.atMark .colonColon then ts.advance else ts)

theorem length_qualifiedName_le (ts : Tokens) : (qualifiedName ts).2.length ≤ ts.length := by
  unfold qualifiedName
  split
  · exact Nat.le_trans (length_nameParts_le _) (length_advance_le ts)
  · exact length_nameParts_le ts

structure Statement where
  body : Tokens
  rest : Tokens

/-- Take tokens up to the semicolon outside all brackets. When the scope or the file ends first there
is no statement, and the tokens from that end on are returned. -/
def takeFrom : (depth : Nat) → Tokens → Except Tokens Statement
  | _, [] => .error []
  | depth, t :: ts =>
    match t.token with
    | .eof => .error (t :: ts)
    | .mark .semicolon =>
      if depth = 0 then .ok ⟨[], ts⟩ else keep t (takeFrom depth ts)
    | .mark .closeBrace =>
      if depth = 0 then .error (t :: ts) else keep t (takeFrom (depth - 1) ts)
    | .mark .openParen | .mark .openBracket | .mark .openBrace => keep t (takeFrom (depth + 1) ts)
    | .mark .closeParen | .mark .closeBracket => keep t (takeFrom (depth - 1) ts)
    | _ => keep t (takeFrom depth ts)
where
  keep (t : Placed) : Except Tokens Statement → Except Tokens Statement
    | .ok s => .ok { s with body := t :: s.body }
    | .error ts => .error ts

def takeStatement (ts : Tokens) : Except Tokens Statement :=
  takeFrom 0 ts

def skipAttributes : Tokens → Tokens
  | [] => []
  | t :: ts =>
    if t.token = .eof then t :: ts
    else if Tokens.atAttributesEnd (t :: ts) then advance ts
    else skipAttributes ts

theorem length_skipAttributes_le (ts : Tokens) : (skipAttributes ts).length ≤ ts.length := by
  fun_induction skipAttributes ts with
  | case1 => simp
  | case2 => simp
  | case3 t ts _ _ => have := length_advance_le ts; simp; omega
  | case4 t ts _ _ ih => simp; omega

/-- Whether the declaration here declares a function: a parenthesis outside all angles comes before
any initialiser, body or bitfield width. -/
def declaresFunctionFrom : (angles : Nat) → (afterWord : Bool) → Tokens → Bool
  | _, _, [] => false
  | angles, afterWord, t :: ts =>
    match t.token with
    | .mark .openParen => angles = 0 || declaresFunctionFrom angles false ts
    | .word word => word = "operator" || declaresFunctionFrom angles true ts
    | .mark .semicolon | .mark .closeBrace | .eof => false
    | .mark .equal | .mark .openBrace | .mark .colon =>
      angles != 0 && declaresFunctionFrom angles false ts
    | .mark .less => declaresFunctionFrom (if afterWord then angles + 1 else angles) false ts
    | .mark .greater => declaresFunctionFrom (angles - 1) false ts
    | _ => declaresFunctionFrom angles false ts

def declaresFunction (ts : Tokens) : Bool :=
  declaresFunctionFrom 0 false ts

end Tokens

end HeaderMeta
