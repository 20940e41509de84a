import HeaderMeta.Header.Scope
import HeaderMeta.Proofs.Nesting

/-! Function definitions are skipped as a whole.

A definition ends with the brace that closes its body, whatever stands between the brackets. What
could mislead the reader lies around them: a word that starts a declaration behind the parameters, and
a comma or a brace behind the body, which make it the initialiser of a member.
-/

set_option autoImplicit false

namespace HeaderMeta

namespace Tokens
open Grammar (IsGroup)

variable {own inner rest : Tokens} {s₁ s₂ : Span}

def pastSemicolon : Tokens → Tokens
  | [] => []
  | t :: ts => if t.token = .mark .semicolon then ts else t :: ts

theorem Closed.eat_semicolon (closed : rest.Closed) : (rest.eat .semicolon).2 = rest.pastSemicolon := by
  cases rest with
  | nil => rfl
  | cons t ts =>
    by_cases semicolon : t.token = .mark .semicolon
    · have behind : ts ≠ [] := (closed.tail (by simp [semicolon])).ne_nil
      simp [eat, pastSemicolon, semicolon, behind]
    · simp [eat, pastSemicolon, semicolon]

inductive Enclosed («open» close : Mark) (P : Tokens → Prop) : Tokens → Prop where
  | mk (s₁ s₂ : Span) {inner : Tokens} (inside : P inner) :
      Enclosed «open» close P (⟨.mark «open», s₁⟩ :: (inner ++ [⟨.mark close, s₂⟩]))

abbrev InParens : Tokens → Prop :=
  Enclosed .openParen .closeParen Nested

abbrev InBraces : Tokens → Prop :=
  Enclosed .openBrace .closeBrace (BalancedIn .openBrace .closeBrace)

inductive Initialisers : Tokens → Prop where
  | one {member : String} {s : Span} {own : Tokens} (group : InParens own ∨ InBraces own) :
      Initialisers (⟨.word member, s⟩ :: own)
  | cons {member : String} {s₁ s₂ : Span} {own more : Tokens} (group : InParens own ∨ InBraces own)
      (others : Initialisers more) :
      Initialisers (⟨.word member, s₁⟩ :: (own ++ ⟨.mark .comma, s₂⟩ :: more))

/-- The definition of a function with a result. -/
inductive IsFunction : Tokens → Prop where
  | mk (result : Grammar.Name) (name : String) (s₁ s₂ : Span) {parameters body : Tokens}
      (parens : InParens parameters) (braces : InBraces body) :
      IsFunction (⟨.word result.text, s₁⟩ :: ⟨.word name, s₂⟩ :: (parameters ++ body))

inductive IsConstructor (name : String) : Tokens → Prop where
  | plain (s : Span) {parameters body : Tokens} (parens : InParens parameters)
      (braces : InBraces body) : IsConstructor name (⟨.word name, s⟩ :: (parameters ++ body))
  | initialised (s₁ s₂ : Span) {parameters members body : Tokens} (parens : InParens parameters)
      (initialisers : Initialisers members) (braces : InBraces body) :
      IsConstructor name
        (⟨.word name, s₁⟩ :: (parameters ++ ⟨.mark .colon, s₂⟩ :: (members ++ body)))

section Skipping

/-- Parameters are passed when no new declaration starts behind them. -/
theorem skipFrom_parens (parens : InParens own) (noStart : startsDeclaration rest = false) :
    skipFrom 0 (own ++ rest) = skipFrom 0 rest := by
  obtain ⟨s₁, s₂, nested⟩ := parens
  have inside := nested.skipFrom 0 (⟨.mark .closeParen, s₂⟩ :: rest) (by simp)
  rw [List.cons_append, List.append_assoc, skipFrom]
  simp [inside, skipFrom, noStart]

/-- Braces before a comma or another brace are values of a member, not a body. -/
theorem skipFrom_braces (braces : InBraces own) (remains : rest ≠ [])
    (goesOn : rest.peek = .mark .comma ∨ rest.peek = .mark .openBrace) :
    skipFrom 0 (own ++ rest) = skipFrom 0 rest := by
  obtain ⟨s₁, s₂, balanced⟩ := braces
  have leapt := balanced.skipGroup .braces s₁ s₂ remains
  have values : rest.atMark .comma = true ∨ rest.atMark .openBrace = true := by
    simpa [atMark] using goesOn
  rw [List.cons_append, List.append_assoc, List.singleton_append, skipFrom]
  simp [leapt, values]

/-- A body ends the definition. -/
theorem skipFrom_body (braces : InBraces own) (closed : rest.Closed)
    (noComma : rest.peek ≠ .mark .comma) (noBrace : rest.peek ≠ .mark .openBrace) :
    skipFrom 0 (own ++ rest) = rest.pastSemicolon := by
  obtain ⟨s₁, s₂, balanced⟩ := braces
  have leapt := balanced.skipGroup .braces s₁ s₂ closed.ne_nil
  rw [List.cons_append, List.append_assoc, List.singleton_append, skipFrom]
  simp [leapt, atMark, noComma, noBrace, closed.eat_semicolon]

theorem skipFrom_word (depth : Nat) (word : String) (s : Span) (ts : Tokens) :
    skipFrom depth (⟨.word word, s⟩ :: ts) = skipFrom depth ts := by
  rw [skipFrom]

theorem skipFrom_colon (depth : Nat) (s : Span) (ts : Tokens) :
    skipFrom depth (⟨.mark .colon, s⟩ :: ts) = skipFrom depth ts := by
  rw [skipFrom]

theorem skipFrom_comma (depth : Nat) (s : Span) (ts : Tokens) :
    skipFrom depth (⟨.mark .comma, s⟩ :: ts) = skipFrom depth ts := by
  rw [skipFrom]

theorem skipFrom_initialiser (group : InParens own ∨ InBraces own)
    (goesOn : rest.peek = .mark .comma ∨ rest.peek = .mark .openBrace) :
    skipFrom 0 (own ++ rest) = skipFrom 0 rest := by
  rcases group with parens | braces
  · apply skipFrom_parens parens
    rcases goesOn with comma | brace <;> simp [startsDeclaration, *]
  · apply skipFrom_braces braces ?_ goesOn
    rintro rfl
    simp [peek, peekAt] at goesOn

theorem Initialisers.skipFrom (initialisers : Initialisers own)
    (body : rest.peek = .mark .openBrace) :
    Tokens.skipFrom 0 (own ++ rest) = Tokens.skipFrom 0 rest := by
  induction initialisers with
  | one group => rw [List.cons_append, skipFrom_word, skipFrom_initialiser group (.inr body)]
  | cons group _ ih =>
    rw [List.cons_append, List.append_assoc, skipFrom_word, skipFrom_initialiser group (.inl rfl),
      List.cons_append, skipFrom_comma, ih]

theorem InBraces.peek (braces : InBraces own) : peek (own ++ rest) = .mark .openBrace := by
  cases braces
  rfl

theorem skipFrom_function {own body : Tokens} (parens : InParens own) (braces : InBraces body)
    (closed : rest.Closed) (noComma : rest.peek ≠ .mark .comma)
    (noBrace : rest.peek ≠ .mark .openBrace) :
    skipFrom 0 (own ++ (body ++ rest)) = rest.pastSemicolon := by
  rw [skipFrom_parens parens (by simp [startsDeclaration, braces.peek]),
    skipFrom_body braces closed noComma noBrace]

variable (closed : rest.Closed) (noComma : rest.peek ≠ .mark .comma)
  (noBrace : rest.peek ≠ .mark .openBrace)
include closed noComma noBrace

theorem IsFunction.skipDeclaration (function : IsFunction own) :
    Tokens.skipDeclaration (own ++ rest) = rest.pastSemicolon := by
  obtain ⟨result, name, s₁, s₂, parens, braces⟩ := function
  rw [Tokens.skipDeclaration, List.cons_append, List.cons_append, List.append_assoc, skipFrom_word,
    skipFrom_word, skipFrom_function parens braces closed noComma noBrace]

/-- From the parameters on, a constructor is skipped as from its name on. -/
theorem IsConstructor.skipFrom {name : String} (constructor : IsConstructor name own) :
    ∃ s₁ s₂ us, own ++ rest = ⟨.word name, s₁⟩ :: ⟨.mark .openParen, s₂⟩ :: us ∧
      Tokens.skipFrom 0 (⟨.mark .openParen, s₂⟩ :: us) = rest.pastSemicolon := by
  have opens {parameters : Tokens} (parens : InParens parameters) (tail : Tokens) :
      ∃ s us, parameters ++ tail = ⟨.mark .openParen, s⟩ :: us := by
    cases parens
    exact ⟨_, _, List.cons_append⟩
  cases constructor with
  | @plain s parameters body parens braces =>
    obtain ⟨s', us, split⟩ := opens parens (body ++ rest)
    refine ⟨s, s', us, by simp [← split], ?_⟩
    rw [← split, skipFrom_function parens braces closed noComma noBrace]
  | @initialised s₁ s₂ parameters members body parens initialisers braces =>
    obtain ⟨s', us, split⟩ := opens parens (⟨.mark .colon, s₂⟩ :: (members ++ (body ++ rest)))
    refine ⟨s₁, s', us, by simp [← split], ?_⟩
    rw [← split, skipFrom_parens parens (by simp [startsDeclaration]), skipFrom_colon,
      initialisers.skipFrom braces.peek, skipFrom_body braces closed noComma noBrace]

end Skipping

end Tokens

section Rounds
open Tokens
variable {own us rest : Tokens} {body : BodyReader} {word : String} {s₁ s₂ : Span}

namespace Cursor
variable {c : Cursor}

/-- A key before a parenthesis introduces no record. -/
theorem record_paren (tokens : c.rest = ⟨.word word, s₁⟩ :: ⟨.mark .openParen, s₂⟩ :: us)
    (namespaces enclosing : List String) (isTemplate : Bool) :
    c.record body namespaces enclosing isTemplate = (.ok .notDefinition, c) := by
  obtain ⟨source, _, issues⟩ := c
  subst tokens
  cases key : RecordKey.ofWord? word with
  | none => simp [record, Tokens.word?, Token.word?, key]
  | some key' =>
    have plain : attributeSpecifiers ⟨source, ⟨.mark .openParen, s₂⟩ :: us, issues⟩ =
        ([], ⟨source, ⟨.mark .openParen, s₂⟩ :: us, issues⟩) :=
      Grammar.attributeSpecifiers_none rfl rfl
    have undecorated : decorators ⟨source, ⟨.mark .openParen, s₂⟩ :: us, issues⟩ =
        ([], ⟨source, ⟨.mark .openParen, s₂⟩ :: us, issues⟩) := Grammar.decorators_none rfl
    simp [record, Tokens.word?, Token.word?, key, advance, recordHead, plain, undecorated, goto,
      qualifiedName, nameParts, atWord, peek]

theorem enumeration_paren (tokens : c.rest = ⟨.word word, s₁⟩ :: ⟨.mark .openParen, s₂⟩ :: us)
    (namespaces enclosing : List String) : c.enumeration namespaces enclosing = (none, c) := by
  obtain ⟨source, _, issues⟩ := c
  subst tokens
  have plain : attributeSpecifiers ⟨source, ⟨.mark .openParen, s₂⟩ :: us, issues⟩ =
      ([], ⟨source, ⟨.mark .openParen, s₂⟩ :: us, issues⟩) :=
    Grammar.attributeSpecifiers_none rfl rfl
  simp [enumeration, advance, goto, peek, plain, qualifiedName, nameParts]

end Cursor

namespace MemberState
variable {s : MemberState}

theorem member_skips (noList : s.cursor.rest.atAttributes = false)
    (noSpecifier : Cursor.atSpecifier s.cursor.rest = false)
    (function : s.cursor.rest.declaresFunction = true) : s.member = s.skip := by
  have plain := Grammar.attributeSpecifiers_none noList noSpecifier
  simp [member, plain, function]

theorem nestedAlias_skips (next : s.cursor.rest.peekAt 1 = .mark .openParen) :
    s.nestedAlias = s.skip := by
  obtain ⟨⟨⟩, access, cursor⟩ := s
  simp only at next
  simp [nestedAlias, Cursor.usingAlias, next, skip]

/-- Whatever the word before the parameters means to the reader, the member is skipped; only `typedef`
never names a record. -/
theorem wordRound_constructor
    (tokens : s.cursor.rest = ⟨.word s.record.name, s₁⟩ :: ⟨.mark .openParen, s₂⟩ :: us)
    (noTypedef : s.record.name ≠ "typedef") :
    s.wordRound body s.record.name = .again (s.goto (skipFrom 0 (⟨.mark .openParen, s₂⟩ :: us))) := by
  have next : s.cursor.rest.peekAt 1 = .mark .openParen := by simp [tokens]
  have skipped : s.skip = s.goto (skipFrom 0 (⟨.mark .openParen, s₂⟩ :: us)) := by
    simp [skip, goto, Cursor.skipDeclaration, Tokens.skipDeclaration, tokens, skipFrom_word]
  have asMember (plain : s.record.name ∉ Cursor.specifierWords) : s.member = s.skip := by
    apply member_skips
    · simp [tokens, Tokens.atAttributes]
    · simp [tokens, Cursor.atSpecifier, Tokens.word?, Token.word?, plain]
    · simp [tokens, Tokens.declaresFunction, Tokens.declaresFunctionFrom]
  -- the name may be a word that opens a member; each of these readers skips at the parenthesis
  unfold wordRound
  simp only [next, if_neg noTypedef]
  split
  next => simp_all
  split
  next key =>
    have plain : s.record.name ∉ Cursor.specifierWords := fun mem => by
      simp [Cursor.specifierWords] at mem
      rcases mem with same | same | same <;> simp [same, RecordKey.ofWord?] at key
    simp [nestedRecord, Cursor.record_paren tokens, asMember plain, skipped]
  split
  next =>
    have still : s.cursor.rest.advance.skipAngles = ⟨.mark .openParen, s₂⟩ :: us := by
      simp [tokens, Tokens.skipAngles]
    simp [nestedTemplate, goto, skip, still, Tokens.word?, Token.word?, Cursor.skipDeclaration,
      Tokens.skipDeclaration]
  split
  next isEnum =>
    have plain : s.record.name ∉ Cursor.specifierWords := by simp [isEnum, Cursor.specifierWords]
    simp [nestedEnum, Cursor.enumeration_paren tokens, asMember plain, skipped]
  split
  next => rw [nestedAlias_skips next, skipped]
  split
  next => rw [skipped]
  split
  next => rw [skipped]
  next foreign => simp at foreign

theorem round_constructor (closed : rest.Closed) (noComma : rest.peek ≠ .mark .comma)
    (noBrace : rest.peek ≠ .mark .openBrace) (constructor : IsConstructor s.record.name own)
    (noTypedef : s.record.name ≠ "typedef") (tokens : s.cursor.rest = own ++ rest) :
    s.round body = .again (s.goto rest.pastSemicolon) := by
  obtain ⟨s₁, s₂, us, split, skipped⟩ := constructor.skipFrom closed noComma noBrace
  rw [split] at tokens
  have started : s.round body = s.wordRound body s.record.name := by
    simp [round, Cursor.peek, tokens]
  rw [started, wordRound_constructor tokens noTypedef, skipped]

theorem round_function (closed : rest.Closed) (noComma : rest.peek ≠ .mark .comma)
    (noBrace : rest.peek ≠ .mark .openBrace) (function : IsFunction own)
    (tokens : s.cursor.rest = own ++ rest) : s.round body = .again (s.goto rest.pastSemicolon) := by
  have skipped := function.skipDeclaration closed noComma noBrace
  rw [← tokens] at skipped
  obtain ⟨result, name, s₁, s₂, ⟨s₃, s₄, nested⟩, braces⟩ := function
  have started : s.round body = .again s.member := Grammar.round_name tokens (by simp) body
  have passed : s.member = s.skip := by
    apply member_skips
    · simp [tokens, Tokens.atAttributes]
    · rw [tokens]
      exact result.not_atSpecifier s₁ _
    · simp [tokens, Tokens.declaresFunction, Tokens.declaresFunctionFrom]
  simp [started, passed, skip, goto, Cursor.skipDeclaration, skipped]

end MemberState

namespace ScopeState
variable {s : ScopeState}

theorem round_function (closed : rest.Closed) (noComma : rest.peek ≠ .mark .comma)
    (noBrace : rest.peek ≠ .mark .openBrace) (function : IsFunction own)
    (tokens : s.cursor.rest = own ++ rest) (inner : ScopeReader) (scope : List String) :
    s.round body inner scope = .again { s with cursor := s.cursor.goto rest.pastSemicolon } := by
  have skipped := function.skipDeclaration closed noComma noBrace
  rw [← tokens] at skipped
  obtain ⟨result, name, s₁, s₂, parens, braces⟩ := function
  have started : s.round body inner scope = .again s.skip := by
    simp [round, wordRound, Cursor.peek, tokens, result.ofWord?_key,
      result.ne (w := "namespace") (by decide), result.ne (w := "inline") (by decide),
      result.ne (w := "extern") (by decide), result.ne (w := "template") (by decide),
      result.ne (w := "enum") (by decide), result.ne (w := "typedef") (by decide),
      result.ne (w := "using") (by decide)]
  simp [started, skip, Cursor.skipDeclaration, skipped]

end ScopeState

/-- The definition of a function is passed in one round, and so is one of the record's constructors,
whatever the parentheses and the body hold: the reader stands behind the definition and a semicolon
there, and nothing else has changed. -/
theorem rounds_pass_definitions (closed : rest.Closed) (noComma : rest.peek ≠ .mark .comma)
    (noBrace : rest.peek ≠ .mark .openBrace) (body : BodyReader) :
    (∀ (inner : ScopeReader) (scope : List String) (s : ScopeState), IsFunction own →
      s.cursor.rest = own ++ rest →
      s.round body inner scope = .again { s with cursor := s.cursor.goto rest.pastSemicolon }) ∧
    ∀ s : MemberState,
      IsFunction own ∨ s.record.name ≠ "typedef" ∧ IsConstructor s.record.name own →
      s.cursor.rest = own ++ rest →
      s.round body = .again { s with cursor := s.cursor.goto rest.pastSemicolon } := by
  constructor
  · intro inner scope s function tokens
    exact ScopeState.round_function closed noComma noBrace function tokens inner scope
  · rintro s (function | ⟨noTypedef, constructor⟩) tokens
    · exact MemberState.round_function closed noComma noBrace function tokens
    · exact MemberState.round_constructor closed noComma noBrace constructor noTypedef tokens

/-- `Pump make(int n[2] = { 1 }) { struct X { int y; }; ( ] }`: the body looks like a record and closes
what it never opened. -/
def pumpFactory : Tokens :=
  [.word "Pump", .word "make", .mark .openParen, .word "int", .word "n", .mark .openBracket,
    .number "2", .mark .closeBracket, .mark .equal, .mark .openBrace, .number "1", .mark .closeBrace,
    .mark .closeParen, .mark .openBrace, .word "struct", .word "X", .mark .openBrace, .word "int",
    .word "y", .mark .semicolon, .mark .closeBrace, .mark .semicolon, .mark .openParen,
    .mark .closeBracket, .mark .closeBrace].map (⟨·, {}⟩)

/-- `Pump() : Base(1), tag{ 2, ) } { enum }`. -/
def pumpConstructor : Tokens :=
  [.word "Pump", .mark .openParen, .mark .closeParen, .mark .colon, .word "Base", .mark .openParen,
    .number "1", .mark .closeParen, .mark .comma, .word "tag", .mark .openBrace, .number "2",
    .mark .comma, .mark .closeParen, .mark .closeBrace, .mark .openBrace, .word "enum",
    .mark .closeBrace].map (⟨·, {}⟩)

theorem isFunction_pumpFactory : IsFunction pumpFactory := by
  have bound : Nested [⟨.number "2", {}⟩] := .token (by decide) rfl .nil
  have value : Nested [⟨.number "1", {}⟩] := .token (by decide) rfl .nil
  have parameters : Nested
      (⟨.word "int", {}⟩ :: ⟨.word "n", {}⟩ :: ⟨.mark .openBracket, {}⟩ :: ([⟨.number "2", {}⟩] ++
        ⟨.mark .closeBracket, {}⟩ :: ⟨.mark .equal, {}⟩ :: ⟨.mark .openBrace, {}⟩ ::
          ([⟨.number "1", {}⟩] ++ [⟨.mark .closeBrace, {}⟩]))) :=
    .token (by decide) rfl (.token (by decide) rfl (.group .brackets bound
      (.token (by decide) rfl (.group .braces value .nil))))
  have head : BalancedIn .openBrace .closeBrace ([.word "struct", .word "X"].map (⟨·, {}⟩)) :=
    .of_plain (by decide)
  have members : BalancedIn .openBrace .closeBrace
      ([.word "int", .word "y", .mark .semicolon].map (⟨·, {}⟩)) := .of_plain (by decide)
  have behind : BalancedIn .openBrace .closeBrace
      ([.mark .semicolon, .mark .openParen, .mark .closeBracket].map (⟨·, {}⟩)) :=
    .of_plain (by decide)
  exact .mk ⟨"Pump", by decide, by decide⟩ "make" {} {} (.mk {} {} parameters)
    (.mk {} {} (head.append (.group members behind)))

theorem isConstructor_pumpConstructor : IsConstructor "Pump" pumpConstructor := by
  have value : Nested [⟨.number "1", {}⟩] := .token (by decide) rfl .nil
  have values : BalancedIn .openBrace .closeBrace
      ([.number "2", .mark .comma, .mark .closeParen].map (⟨·, {}⟩)) := .of_plain (by decide)
  have body : BalancedIn .openBrace .closeBrace [⟨.word "enum", {}⟩] := .of_plain (by decide)
  have tag : Initialisers (⟨.word "tag", {}⟩ :: ⟨.mark .openBrace, {}⟩ ::
      (_ ++ [⟨.mark .closeBrace, {}⟩])) := .one (.inr (.mk {} {} values))
  have members : Initialisers (⟨.word "Base", {}⟩ :: (⟨.mark .openParen, {}⟩ :: ([⟨.number "1", {}⟩] ++
      [⟨.mark .closeParen, {}⟩]) ++ ⟨.mark .comma, {}⟩ :: _)) := .cons (.inl (.mk {} {} value)) tag
  exact .initialised {} {} (.mk {} {} .nil) members (.mk {} {} body)

theorem rounds_pass_definitions_pump :
    let rest : Tokens :=
      [.mark .semicolon, .word "int", .word "z", .mark .semicolon, .eof].map (⟨·, {}⟩)
    let source : Source := ⟨⟨"pump.hpp"⟩, ""⟩
    let pump : TypeDecl := { name := "Pump", key := .struct, path := source.path }
    let file : ScopeState := ⟨{}, ⟨source, pumpFactory ++ rest, []⟩⟩
    let members : MemberState := ⟨pump, .pub, ⟨source, pumpConstructor ++ rest, []⟩⟩
    rest.Closed ∧ rest.peek ≠ .mark .comma ∧ rest.peek ≠ .mark .openBrace ∧ IsFunction pumpFactory ∧
      pump.name ≠ "typedef" ∧ IsConstructor pump.name pumpConstructor ∧
      file.round (typeBody 0) (fun _ => declarations 0) [] =
        .again { file with cursor := file.cursor.goto rest.tail } ∧
      members.round (typeBody 0) = .again { members with cursor := members.cursor.goto rest.tail } := by
  intro rest source pump file members
  have closed : rest.Closed := ⟨⟨.eof, {}⟩, rfl, rfl⟩
  have noComma : rest.peek ≠ .mark .comma := by decide
  have noBrace : rest.peek ≠ .mark .openBrace := by decide
  have atFile := (rounds_pass_definitions closed noComma noBrace (typeBody 0)).1
    (fun _ => declarations 0) [] file isFunction_pumpFactory rfl
  have atMembers := (rounds_pass_definitions closed noComma noBrace (typeBody 0)).2 members
    (.inr ⟨by decide, isConstructor_pumpConstructor⟩) rfl
  exact ⟨closed, noComma, noBrace, isFunction_pumpFactory, by decide, isConstructor_pumpConstructor,
    atFile, atMembers⟩

end Rounds

end HeaderMeta
