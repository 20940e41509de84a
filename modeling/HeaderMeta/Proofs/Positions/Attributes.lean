import HeaderMeta.Proofs.Positions.Walk

/-! Attribute lists read by positions. -/

set_option autoImplicit false

namespace HeaderMeta

namespace TokenFile

section Walks
variable (file : TokenFile)

def arguments : Walk (Option String) := do
  if (← file.look 0) == .mark .openParen then do
    let «open» ← file.span
    let close ← file.skipGroup
    return some (String.ofList (Text.trimChars (file.source.slice «open».stop close.start)))
  else return none

def attribute? (scope : Option String) : Walk (Option Attribute) := do
  let span ← file.span
  let parts ← file.qualifiedName
  match parts.reverse with
  | [] => return none
  | name :: outer => do
    let args ← file.arguments
    let _ ← file.eat .ellipsis
    return some ⟨if outer.isEmpty then scope else some (joinScope outer.reverse), name, args, span⟩

def attributeItems (start : Span) (scope : Option String) : (left : Nat) → Walk (List Attribute)
  | 0 => failure
  | left + 1 => do
    match ← file.look 0 with
    | .mark .comma => do
      file.bump
      attributeItems start scope left
    | .word _ => do
      match ← file.attribute? scope with
      | some a => do
        let more ← attributeItems start scope left
        return a :: more
      | none => do
        file.skipAttributes
        return []
    | .eof => do
      file.fail "Unterminated attribute list" start
      return []
    | token => do
      if token == .mark .closeBracket && (← file.look 1) == .mark .closeBracket then do
        file.bump
        file.bump
        return []
      else do
        file.warn "Malformed attribute list" (← file.span)
        file.skipAttributes
        return []

def usingScope : Walk (Option String) := do
  if (← file.look 0) == .word "using" then do
    file.bump
    let parts ← file.qualifiedName
    let _ ← file.eat .colon
    return some (joinScope parts)
  else return none

def attributeList : Walk (List Attribute) := do
  let start ← file.span
  file.bump
  file.bump
  let scope ← file.usingScope
  file.attributeItems start scope file.tokens.length

def attributeSpecifiersFrom : (left : Nat) → Walk (List Attribute)
  | 0 => failure
  | left + 1 => do
    if (← file.look 0) == .mark .openBracket && (← file.look 1) == .mark .openBracket then do
      let list ← file.attributeList
      let more ← attributeSpecifiersFrom left
      return list ++ more
    else if (← file.look 0).word?.any Cursor.specifierWords.contains &&
        (← file.look 1) == .mark .openParen then do
      file.bump
      let _ ← file.skipGroup
      attributeSpecifiersFrom left
    else return []

def attributeSpecifiers : Walk (List Attribute) :=
  file.attributeSpecifiersFrom file.tokens.length

end Walks

variable {file : TokenFile} {d : Depth} {c : Cursor} {ts : Tokens}

theorem runs_arguments (holds : file.Holds c) :
    file.Runs d file.arguments c (Cursor.arguments c.source c.rest).1
      (c.goto (Cursor.arguments c.source c.rest).2) := by
  refine (runs_look holds 0).bind fun holds => ?_
  unfold Cursor.arguments
  by_cases here : c.rest.atMark .openParen = true
  · rw [if_pos here]
    refine .yes here <| (runs_span holds).bind fun holds => (runs_skipGroup holds).bind fun after => ?_
    exact holds.source ▸ .pure after _
  · rw [if_neg here]
    exact .no here (.pure holds none)

theorem runs_attribute? {word : String} (holds : file.Holds c) (scope : Option String)
    (atWord : c.rest.peek = .word word) :
    match Cursor.attribute? c.source scope c.rest with
    | some (a, rest) => file.Runs d (file.attribute? scope) c (some a) (c.goto rest)
    | none => file.Runs d (file.attribute? scope) c none (c.goto (Tokens.nameParts c.rest).2) := by
  have named := runs_qualifiedName (d := d) holds
  have plain : c.rest.qualifiedName = c.rest.nameParts := by
    simp [Tokens.qualifiedName, Tokens.atMark, atWord]
  rw [plain] at named
  unfold Cursor.attribute?
  dsimp only
  cases parts : c.rest.nameParts.1.reverse with
  | nil =>
    refine (runs_span holds).bind fun holds => named.bind fun holds => ?_
    rw [parts]
    exact .pure holds none
  | cons name outer =>
    refine (runs_span holds).bind fun holds => named.bind fun holds => ?_
    rw [parts]
    exact (runs_arguments holds).bind fun holds => (runs_eat holds .ellipsis).bind fun holds =>
      .pure holds _

theorem runs_attributeItems {left : Nat} (start : Span) (scope : Option String) (holds : file.Holds c)
    (enough : c.rest.length ≤ left) :
    file.Runs d (file.attributeItems start scope left) c (Cursor.attributeItems start scope c).1
      (Cursor.attributeItems start scope c).2 := by
  -- each case looks at the next token first, and then runs what the branch for that token does
  fun_induction Cursor.attributeItems start scope c generalizing left with
  | case1 c here => exact absurd here holds.closed.ne_nil
  | case2 c t ts here token ih =>
    obtain ⟨left, rfl, more⟩ := holds.exists_round enough
    have comma : c.rest.peekAt 0 = .mark .comma := here ▸ token
    rw [attributeItems]
    refine (runs_look holds 0).bind fun holds => ?_
    rw [comma]
    exact (runs_bump_tail holds here (by simp [token])).bind fun holds => ih holds (more ts (by simp [here]))
  | case3 c t ts here word token a rest read others after items ih =>
    obtain ⟨left, rfl, more⟩ := holds.exists_round enough
    obtain ⟨_, span⟩ := t
    cases token
    have atWord : c.rest.peekAt 0 = .word word := by simp [here]
    have first := runs_attribute? (d := d) holds scope atWord
    rw [← here] at read
    rw [read] at first
    rw [attributeItems]
    refine (runs_look holds 0).bind fun holds => ?_
    rw [atWord]
    have others := ih first.holds (more rest (by simpa [here] using Cursor.length_attribute?_lt (here ▸ read)))
    rw [items] at others
    exact first.bind fun _ => others.bind fun holds => .pure holds _
  | case4 c t ts here word token none =>
    obtain ⟨left, rfl, -⟩ := holds.exists_round enough
    obtain ⟨_, span⟩ := t
    cases token
    have atWord : c.rest.peekAt 0 = .word word := by simp [here]
    have first := runs_attribute? (d := d) holds scope atWord
    rw [← here] at none
    rw [none] at first
    rw [attributeItems, ← here]
    refine (runs_look holds 0).bind fun holds => ?_
    rw [atWord]
    exact first.bind fun holds => (runs_skipAttributes holds).bind fun holds => .pure holds _
  | case5 c t ts here eof =>
    obtain ⟨left, rfl, -⟩ := holds.exists_round enough
    have atEnd : c.rest.peekAt 0 = .eof := here ▸ eof
    rw [attributeItems]
    refine (runs_look holds 0).bind fun holds => ?_
    rw [atEnd]
    exact (runs_fail holds _ _).bind fun holds => .pure holds _
  | case6 c t ts here ends noComma noWord inside =>
    obtain ⟨left, rfl, -⟩ := holds.exists_round enough
    rw [attributeItems]
    refine (runs_look holds 0).bind fun holds => ?_
    split
    next found => exact (noComma (by simpa [here] using found)).elim
    next found => exact (noWord _ (by simpa [here] using found)).elim
    next found => exact (inside (by simpa [here] using found)).elim
    next =>
      refine (runs_look holds 1).bind fun holds => .yes ends ?_
      exact (runs_bump holds).bind fun holds => (runs_bump holds).bind fun holds => .pure holds _
  | case7 c t ts here goesOn noComma noWord inside =>
    obtain ⟨left, rfl, -⟩ := holds.exists_round enough
    rw [attributeItems]
    refine (runs_look holds 0).bind fun holds => ?_
    split
    next found => exact (noComma (by simpa [here] using found)).elim
    next found => exact (noWord _ (by simpa [here] using found)).elim
    next found => exact (inside (by simpa [here] using found)).elim
    next =>
      refine (runs_look holds 1).bind fun holds => .no goesOn <| (runs_span holds).bind fun holds => ?_
      exact (runs_warn holds _ _).bind fun holds => (runs_skipAttributes holds).bind fun holds =>
        .pure holds _

theorem runs_usingScope (holds : file.Holds c) :
    file.Runs d file.usingScope c (Cursor.usingScope c.rest).1 (c.goto (Cursor.usingScope c.rest).2) := by
  refine (runs_look holds 0).bind fun holds => ?_
  unfold Cursor.usingScope
  by_cases here : c.rest.atWord "using" = true
  · rw [if_pos here]
    refine .yes here <| (runs_bump holds).bind fun holds => (runs_qualifiedName holds).bind fun holds => ?_
    exact (runs_eat holds .colon).bind fun holds => .pure holds _
  · rw [if_neg here]
    exact .no here (.pure holds none)

theorem runs_attributeList (holds : file.Holds c) :
    file.Runs d file.attributeList c c.attributeList.1 c.attributeList.2 :=
  (runs_span holds).bind fun holds => (runs_bump holds).bind fun holds => (runs_bump holds).bind
    fun holds => (runs_usingScope holds).bind fun holds =>
      runs_attributeItems _ _ holds holds.ahead.length_le

theorem runs_attributeSpecifiersFrom {left : Nat} (holds : file.Holds c) (enough : c.rest.length ≤ left) :
    file.Runs d (file.attributeSpecifiersFrom left) c c.attributeSpecifiers.1 c.attributeSpecifiers.2 := by
  fun_induction Cursor.attributeSpecifiers c generalizing left with
  | case1 c lists list others =>
    rename_i ih
    obtain ⟨left, rfl, more⟩ := holds.exists_round enough
    rw [attributeSpecifiersFrom]
    refine (runs_look holds 0).bind fun holds => (runs_look holds 1).bind fun holds => ?_
    refine .yes lists <| (runs_attributeList holds).bind fun holds => ?_
    exact (ih holds (more _ (Cursor.length_attributeList_lt lists))).bind fun holds => .pure holds _
  | case2 c noList specifier ih =>
    obtain ⟨left, rfl, more⟩ := holds.exists_round enough
    rw [attributeSpecifiersFrom]
    refine (runs_look holds 0).bind fun holds => (runs_look holds 1).bind fun holds => .no noList ?_
    refine (runs_look holds 0).bind fun holds => (runs_look holds 1).bind fun holds => ?_
    refine .yes specifier <| (runs_bump holds).bind fun holds => (runs_skipGroup holds).bind fun holds => ?_
    exact ih holds (more _ (Cursor.length_specifier_lt specifier))
  | case3 c noList noSpecifier =>
    obtain ⟨left, rfl, -⟩ := holds.exists_round enough
    rw [attributeSpecifiersFrom]
    refine (runs_look holds 0).bind fun holds => (runs_look holds 1).bind fun holds => .no noList ?_
    refine (runs_look holds 0).bind fun holds => (runs_look holds 1).bind fun holds => ?_
    exact .no noSpecifier (.pure holds [])

theorem runs_attributeSpecifiers (holds : file.Holds c) :
    file.Runs d file.attributeSpecifiers c c.attributeSpecifiers.1 c.attributeSpecifiers.2 :=
  runs_attributeSpecifiersFrom holds holds.ahead.length_le

end TokenFile

end HeaderMeta
