import Mathlib
import HeaderMeta.Proofs.Attribution
import HeaderMeta.Proofs.Initializers

/-! Macros between a record key and the name of the record.

A word of capitals with another word behind it is taken for a macro. That is also the look of a type's
own name before `final`, which then becomes the name, and of the type in `struct T x;`, which then is
no field. Names of any other look are read as names (`rounds_name_types`).
-/

set_option autoImplicit false

namespace HeaderMeta
open Grammar (Name)

section Heads
namespace Cursor
variable {c d e : Cursor} {key : RecordKey} {word second : String} {next rest : Tokens}
  {s₁ s₂ : Span}

def AtBody (key : RecordKey) (ts : Tokens) : Prop :=
  ts.peek = .mark .openBrace ∨
    ts.peek = .mark .colon ∧ (Base.readAll key ts.advance).isSome = true

theorem AtBody.mark (body : AtBody key rest) :
    ∃ m span us, rest = ⟨.mark m, span⟩ :: us ∧ (m = .colon ∨ m = .openBrace) := by
  cases rest with
  | nil => rcases body with brace | ⟨colon, -⟩ <;> simp_all [Tokens.peek, Tokens.peekAt]
  | cons t us =>
    obtain ⟨token, span⟩ := t
    rcases body with brace | ⟨colon, -⟩
    · exact ⟨.openBrace, span, us, by simpa using brace, .inr rfl⟩
    · exact ⟨.colon, span, us, by simpa using colon, .inl rfl⟩

theorem atDecorator_word :
    atDecorator (⟨.word word, s₁⟩ :: ⟨.word second, s₂⟩ :: rest) = isMacroName word := by
  simp [atDecorator, Tokens.word?, Token.word?]

/-- A macro before a word is passed. -/
theorem decorators_macro (c : Cursor) (s₁ s₂ : Span) {word second : String} {rest : Tokens}
    (shape : isMacroName word = true)
    (noSpecifier : atSpecifier (⟨.word second, s₂⟩ :: rest) = false)
    (plain : atDecorator (⟨.word second, s₂⟩ :: rest) = false) :
    (c.goto (⟨.word word, s₁⟩ :: ⟨.word second, s₂⟩ :: rest)).decorators =
      ([], c.goto (⟨.word second, s₂⟩ :: rest)) := by
  have macroHere : atDecorator (⟨.word word, s₁⟩ :: ⟨.word second, s₂⟩ :: rest) = true := by
    rw [atDecorator_word, shape]
  have specifiers : (c.goto (⟨.word second, s₂⟩ :: rest)).attributeSpecifiers =
      ([], c.goto (⟨.word second, s₂⟩ :: rest)) :=
    Grammar.attributeSpecifiers_none (by simp [Tokens.atAttributes]) noSpecifier
  have done := Grammar.decorators_none (c := c.goto (⟨.word second, s₂⟩ :: rest)) plain
  rw [decorators, rest_goto, dif_pos macroHere]
  simp [skipMacro, specifiers, done]

theorem qualifiedName_word (ordinary : word ≠ "inline") (noScope : next.peek ≠ .mark .colonColon) :
    Tokens.qualifiedName (⟨.word word, s₁⟩ :: next) = ([word], next) := by
  have parts : Tokens.nameParts (⟨.word word, s₁⟩ :: next) = ([word], next) := by
    rw [Tokens.nameParts]
    · simp [ordinary]
    · rintro s us rfl
      simp at noScope
  simpa [Tokens.qualifiedName] using parts

theorem recordHead_word (isTemplate : Bool) (noList : c.rest.atAttributes = false)
    (noSpecifier : atSpecifier c.rest = false)
    (decorated : c.decorators = ([], c.goto (⟨.word word, s₁⟩ :: next)))
    (ordinary : word ≠ "inline") (noScope : next.peek ≠ .mark .colonColon)
    (noAngle : next.peek ≠ .mark .less) :
    c.recordHead isTemplate =
      (⟨word, [], isTemplate, s₁⟩, c.goto (if next.atWord "final" then next.advance else next)) := by
  have specifiers := Grammar.attributeSpecifiers_none noList noSpecifier
  simp [recordHead, specifiers, decorated, here, qualifiedName_word ordinary noScope, Tokens.atMark,
    noAngle]

theorem recordHead_body (c : Cursor) (s₁ : Span) (isTemplate : Bool) (body : AtBody key rest)
    (noSpecifier : word ∉ specifierWords) (ordinary : word ≠ "inline") :
    (c.goto (⟨.word word, s₁⟩ :: rest)).recordHead isTemplate =
      (⟨word, [], isTemplate, s₁⟩, c.goto rest) := by
  obtain ⟨m, s, us, rfl, either⟩ := body.mark
  have plain := Grammar.decorators_none (c := c.goto (⟨.word word, s₁⟩ :: ⟨.mark m, s⟩ :: us))
    (Grammar.not_atDecorator either)
  have head := recordHead_word (c := c.goto (⟨.word word, s₁⟩ :: ⟨.mark m, s⟩ :: us)) isTemplate
    (by simp [Tokens.atAttributes])
    (by simp [atSpecifier, Tokens.word?, Token.word?, noSpecifier]) plain ordinary
    (by rcases either with rfl | rfl <;> simp) (by rcases either with rfl | rfl <;> simp)
  simpa [Tokens.atWord] using head

/-- Before `final` a word of capitals is a macro, and any other word is the name. -/
theorem recordHead_final (c : Cursor) (s₁ s₂ : Span) (isTemplate : Bool) (name : Name)
    (body : AtBody key rest) :
    (c.goto (⟨.word name.text, s₁⟩ :: ⟨.word "final", s₂⟩ :: rest)).recordHead isTemplate =
      (if isMacroName name.text then ⟨"final", [], isTemplate, s₂⟩ else ⟨name.text, [], isTemplate, s₁⟩,
        c.goto rest) := by
  obtain ⟨m, s, us, rfl, either⟩ := body.mark
  have noList : Tokens.atAttributes (⟨.word name.text, s₁⟩ :: ⟨.word "final", s₂⟩ :: ⟨.mark m, s⟩ ::
      us) = false := by simp [Tokens.atAttributes]
  have noSpecifier := name.not_atSpecifier s₁ (⟨.word "final", s₂⟩ :: ⟨.mark m, s⟩ :: us)
  cases shape : isMacroName name.text with
  | true =>
    have plain : atSpecifier (⟨.word "final", s₂⟩ :: ⟨.mark m, s⟩ :: us) = false := by
      simp [atSpecifier, Tokens.word?, Token.word?, specifierWords]
    have passed := decorators_macro c s₁ s₂ shape plain (Grammar.not_atDecorator either)
    have head := recordHead_word isTemplate noList noSpecifier passed (by decide)
      (by rcases either with rfl | rfl <;> simp) (by rcases either with rfl | rfl <;> simp)
    simpa [Tokens.atWord] using head
  | false =>
    have plain := Grammar.decorators_none
      (c := c.goto (⟨.word name.text, s₁⟩ :: ⟨.word "final", s₂⟩ :: ⟨.mark m, s⟩ :: us))
      (atDecorator_word.trans shape)
    have head := recordHead_word isTemplate noList noSpecifier plain
      (name.ne (w := "inline") (by decide)) (by simp) (by simp)
    simpa [Tokens.atWord] using head

/-- What a key introduces depends only on the head read behind it, where a body follows. -/
theorem record_congr {body : BodyReader} {ts us : Tokens} {isTemplate : Bool} {head : RecordHead}
    (some : ts ≠ []) (some' : us ≠ []) (first : (c.goto ts).recordHead isTemplate = (head, c.goto rest))
    (second : (c.goto us).recordHead isTemplate = (head, c.goto rest)) (atBody : AtBody key rest)
    (namespaces enclosing : List String) :
    (c.goto (⟨.word key.word, s₁⟩ :: ts)).record body namespaces enclosing isTemplate =
      (c.goto (⟨.word key.word, s₁⟩ :: us)).record body namespaces enclosing isTemplate := by
  have keyed : RecordKey.ofWord? key.word = Option.some key := Grammar.ofWord?_word key
  rcases atBody with brace | ⟨colon, read⟩
  · simp [record, Tokens.word?, Token.word?, keyed, advance, some, some', first, second, peek, brace,
      here]
  · obtain ⟨_, read⟩ := Option.isSome_iff_exists.mp read
    simp [record, Tokens.word?, Token.word?, keyed, advance, some, some', first, second, peek, colon,
      here, read]

theorem definition_of_record {body : BodyReader} {isTemplate : Bool} {head : RecordHead}
    {ts : Tokens} (some : ts ≠ []) (readHead : (c.goto ts).recordHead isTemplate = (head, c.goto rest))
    (atBody : AtBody key rest) {namespaces enclosing : List String} {outcome : RecordOutcome}
    (read : ((c.goto (⟨.word key.word, s₁⟩ :: ts)).record body namespaces enclosing isTemplate).1 =
      .ok outcome) : ∃ d, outcome = .definition d := by
  have keyed : RecordKey.ofWord? key.word = Option.some key := Grammar.ofWord?_word key
  rcases atBody with brace | ⟨colon, based⟩
  · simp only [record, Tokens.word?, Token.word?, keyed, advance, readHead, peek, brace, rest_goto,
      Tokens.peek_cons, Option.bind_some, Tokens.advance_cons some, goto_goto] at read
    exact definition_of_recordBody read
  · obtain ⟨_, based⟩ := Option.isSome_iff_exists.mp based
    simp only [record, Tokens.word?, Token.word?, keyed, advance, readHead, peek, colon, rest_goto,
      Tokens.peek_cons, Option.bind_some, Tokens.advance_cons some, goto_goto, based] at read
    exact definition_of_recordBody read

/-- A type is recorded under the name that stands before its body. -/
theorem record_names {room : Nat} (closed : rest.Closed) (atBody : AtBody key rest)
    (noSpecifier : word ∉ specifierWords) (ordinary : word ≠ "inline")
    {namespaces enclosing : List String} {isTemplate : Bool} {outcome : RecordOutcome}
    (read : ((c.goto (⟨.word key.word, s₁⟩ :: ⟨.word word, s₂⟩ :: rest)).record (typeBody room)
      namespaces enclosing isTemplate).1 = .ok outcome) :
    ∃ decl, outcome = .definition decl ∧ decl.name = word := by
  have head := recordHead_body c s₂ isTemplate atBody noSpecifier ordinary
  obtain ⟨decl, rfl⟩ := definition_of_record (by simp) head atBody read
  have ends : Tokens.Closed (⟨.word key.word, s₁⟩ :: ⟨.word word, s₂⟩ :: rest) := by
    obtain ⟨m, s, us, rfl, -⟩ := atBody.mark
    simpa [Tokens.Closed] using closed
  have opened := open_record (seats_typeBody ends room) (.refl _) (Prod.ext read rfl)
  refine ⟨decl, rfl, ?_⟩
  simpa [advance, head] using opened.named

end Cursor

end Heads

section Rounds
open Cursor (isMacroName AtBody)
variable {key : RecordKey} {rest : Tokens} {s₁ s₂ s₃ s₄ : Span} {body : BodyReader}

def nameBeforeFinal (type : Name) (s₁ s₂ : Span) : Placed :=
  if isMacroName type.text then ⟨.word "final", s₂⟩ else ⟨.word type.text, s₁⟩

/-- A definition with `final` is read as the one without it, under the name taken. -/
theorem Cursor.record_final (c : Cursor) (body : BodyReader) (s₁ s₂ s₃ : Span) (type : Name)
    (atBody : AtBody key rest) (namespaces enclosing : List String) (isTemplate : Bool) :
    (c.goto (⟨.word key.word, s₁⟩ :: ⟨.word type.text, s₂⟩ :: ⟨.word "final", s₃⟩ :: rest)).record body
        namespaces enclosing isTemplate =
      (c.goto (⟨.word key.word, s₁⟩ :: nameBeforeFinal type s₂ s₃ :: rest)).record body
        namespaces enclosing isTemplate := by
  have withFinal := recordHead_final c s₂ s₃ isTemplate type atBody
  unfold nameBeforeFinal
  split at withFinal
  next shape =>
    have short : (c.goto (⟨.word "final", s₃⟩ :: rest)).recordHead isTemplate =
        (⟨"final", [], isTemplate, s₃⟩, c.goto rest) :=
      recordHead_body c s₃ isTemplate atBody (by decide) (by decide)
    rw [if_pos shape]
    exact record_congr (by simp) (by simp) withFinal short atBody namespaces enclosing
  next shape =>
    have noSpecifier : type.text ∉ specifierWords := fun mem =>
      type.ordinary (by simp [Grammar.reservedWords, mem])
    have short := recordHead_body c s₂ isTemplate atBody noSpecifier
      (type.ne (w := "inline") (by decide))
    rw [if_neg shape]
    exact record_congr (by simp) (by simp) withFinal short atBody namespaces enclosing

namespace MemberState
variable {s : MemberState} {type name : Name}

def plainField (access : Visibility) (type name : Name) (span : Span) : Field :=
  { name := name.text, type := { spelling := type.text, kind := .unresolved }, visibility := access
    attributes := [], span }

theorem round_plain (tokens : s.cursor.rest =
      ⟨.word type.text, s₁⟩ :: ⟨.word name.text, s₂⟩ :: ⟨.mark .semicolon, s₃⟩ :: rest) :
    s.round body = .again ((s.goto rest).addField (plainField s.access type name s₂)) := by
  have typed : Grammar.IsFieldType [⟨.word type.text, s₁⟩] := .path ⟨⟨[], type⟩, .inl rfl⟩
  have read := Grammar.member_field typed .none (s := s) tokens
  have spelled : spell [.word type.text] = type.text := Grammar.spell_tokens ⟨[], type⟩
  rw [Grammar.round_name tokens (by simp) body, read]
  simp [plainField, spelled]

theorem ofPart?_elaborated (key : RecordKey) (type name : Name) (s₁ s₂ s₃ : Span) :
    let own : Tokens := [⟨.word key.word, s₁⟩, ⟨.word type.text, s₂⟩, ⟨.word name.text, s₃⟩]
    DeclaratorPart.split own = [⟨own, false⟩] ∧
      Declarator.ofPart? ⟨own, false⟩ =
        some ([.word key.word, .word type.text], { name := name.text, span := s₃ }) ∧
      spell [.word key.word, .word type.text] = type.text := by
  intro own
  refine ⟨?_, ?_, ?_⟩
  · simp [own, DeclaratorPart.split, DeclaratorPart.splitFrom, DeclaratorPart.Cut.note,
      DeclaratorPart.Cut.keep, DeclaratorPart.Cut.part]
  · simp [own, Declarator.ofPart?, Declarator.ofTokens?, Declarator.dropBounds, Declarator.dropMarks,
      Token.isQualifier, type.ne (w := "const") (by decide), type.ne (w := "volatile") (by decide)]
  · have plain : spell [.word type.text] = type.text := Grammar.spell_tokens ⟨[], type⟩
    have noise : Token.isNoise (.word key.word) = true := by cases key <;> decide
    simpa [spell, noise] using plain

/-- With a record key before it the type is spelled the same. -/
theorem member_elaborated (tokens : s.cursor.rest = ⟨.word key.word, s₁⟩ :: ⟨.word type.text, s₂⟩ ::
      ⟨.word name.text, s₃⟩ :: ⟨.mark .semicolon, s₄⟩ :: rest) :
    s.member = (s.goto rest).addField (plainField s.access type name s₃) := by
  have specifiers : s.cursor.attributeSpecifiers = ([], s.cursor) := by
    apply Grammar.attributeSpecifiers_none
    · simp [tokens, Tokens.atAttributes]
    · cases key <;> simp [tokens, Cursor.atSpecifier, Tokens.word?, Token.word?, RecordKey.word,
        Cursor.specifierWords]
  have notStart : key.word ∉ nonFieldStarts := by cases key <;> decide
  have noFunction : s.cursor.rest.declaresFunction = false := by
    have noOperator : key.word ≠ "operator" := by cases key <;> decide
    simp [tokens, Tokens.declaresFunction, Tokens.declaresFunctionFrom, noOperator,
      type.ne (w := "operator") (by decide), name.ne (w := "operator") (by decide)]
  have taken : s.cursor.rest.takeStatement = .ok ⟨[⟨.word key.word, s₁⟩, ⟨.word type.text, s₂⟩,
      ⟨.word name.text, s₃⟩], rest⟩ := by
    simp [tokens, Tokens.takeStatement, Tokens.takeFrom, Tokens.takeFrom.keep]
  obtain ⟨cut, read, spelled⟩ := ofPart?_elaborated key type name s₁ s₂ s₃
  simp only [member, specifiers, noFunction, taken, cut]
  simp [tokens, Tokens.word?, Token.word?, notStart, addParts, read, spelled, type.text_ne_empty, goto,
    addField, plainField, Declarator.kind]

theorem round_key {us : Tokens} (tokens : s.cursor.rest = ⟨.word key.word, s₁⟩ :: us) :
    s.round body = s.nestedRecord body false := by
  have keyed : RecordKey.ofWord? key.word = Option.some key := Grammar.ofWord?_word key
  have noAccess : Visibility.ofWord? key.word = none := by cases key <;> rfl
  simp [round, wordRound, Cursor.peek, tokens, keyed, noAccess]

/-- A type of capitals before a name makes a forward declaration, any other type a field. -/
theorem round_elaborated (some : rest ≠ []) (tokens : s.cursor.rest = ⟨.word key.word, s₁⟩ ::
      ⟨.word type.text, s₂⟩ :: ⟨.word name.text, s₃⟩ :: ⟨.mark .semicolon, s₄⟩ :: rest) :
    s.round body = .again (if isMacroName type.text then s.goto rest
      else (s.goto rest).addField (plainField s.access type name s₃)) := by
  have keyed : RecordKey.ofWord? key.word = Option.some key := Grammar.ofWord?_word key
  have noList : Tokens.atAttributes (⟨.word type.text, s₂⟩ :: ⟨.word name.text, s₃⟩ ::
      ⟨.mark .semicolon, s₄⟩ :: rest) = false := by simp [Tokens.atAttributes]
  have noSpecifier := type.not_atSpecifier s₂ (⟨.word name.text, s₃⟩ :: ⟨.mark .semicolon, s₄⟩ :: rest)
  have named : Cursor.atDecorator (⟨.word name.text, s₃⟩ :: ⟨.mark .semicolon, s₄⟩ :: rest) = false := by
    simp [Cursor.atDecorator]
  rw [round_key tokens]
  split
  next shape =>
    -- the type is passed as a macro, and the name of the field becomes that of a record without a body
    have passed := Cursor.decorators_macro s.cursor s₂ s₃ shape
      (name.not_atSpecifier s₃ (⟨.mark .semicolon, s₄⟩ :: rest)) named
    have head := Cursor.recordHead_word false noList noSpecifier passed
      (name.ne (w := "inline") (by decide)) (by simp) (by simp)
    simp [nestedRecord, Cursor.record, tokens, Tokens.word?, Token.word?, keyed, Cursor.advance, head,
      Tokens.atWord, Cursor.peek, name.text_ne_empty, some, goto]
  next shape =>
    have plain := Grammar.decorators_none (c := s.cursor.goto (⟨.word type.text, s₂⟩ ::
      ⟨.word name.text, s₃⟩ :: ⟨.mark .semicolon, s₄⟩ :: rest))
      (by rw [Cursor.rest_goto, Cursor.atDecorator_word]; simpa using shape)
    have head := Cursor.recordHead_word false noList noSpecifier plain
      (type.ne (w := "inline") (by decide)) (by simp) (by simp)
    -- what follows the type is no head of a record, so the reader goes back and reads a field
    have back : s.cursor.record body s.record.namespaces s.record.innerEnclosing false =
        (.ok .notDefinition, s.cursor) := by
      simp [Cursor.record, tokens, Tokens.word?, Token.word?, keyed, Cursor.advance, head, Tokens.atWord,
        Cursor.peek, name.ne (w := "final") (by decide)]
      rw [← tokens, Cursor.goto_rest]
    simp [nestedRecord, back, member_elaborated tokens]

end MemberState

namespace ScopeState
variable {s : ScopeState}

def goto (s : ScopeState) (rest : Tokens) : ScopeState :=
  { s with cursor := s.cursor.goto rest }

theorem round_key {us : Tokens} {inner : ScopeReader} {scope : List String}
    (tokens : s.cursor.rest = ⟨.word key.word, s₁⟩ :: us) :
    s.round body inner scope = s.record body scope false := by
  have other {w : String} (noKey : RecordKey.ofWord? w = none) : key.word ≠ w := fun same => by
    simp [← same, Grammar.ofWord?_word] at noKey
  simp [round, wordRound, Cursor.peek, tokens, Grammar.ofWord?_word, other (w := "namespace") rfl,
    other (w := "inline") rfl, other (w := "extern") rfl, other (w := "template") rfl]

end ScopeState

/-- How names that may look like macros are read. A definition `K T final` in a namespace or a record is
read as the one without `final`, under the name `T` unless that is a word of capitals. Inside a record
`K T x;` declares the field that `T x;` declares, unless `T` is a word of capitals: then it declares
nothing. -/
theorem rounds_name_types (key : RecordKey) (type name : Name) (s₁ s₂ s₃ s₄ : Span)
    (closed : rest.Closed) :
    let keyed (ts : Tokens) : Tokens := ⟨.word key.word, s₁⟩ :: ts
    let typed (ts : Tokens) : Tokens := ⟨.word type.text, s₂⟩ :: ts
    let declarator : Tokens := ⟨.word name.text, s₃⟩ :: ⟨.mark .semicolon, s₄⟩ :: rest
    (AtBody key rest →
      let withFinal := keyed (typed (⟨.word "final", s₃⟩ :: rest))
      let without := keyed (nameBeforeFinal type s₂ s₃ :: rest)
      (∀ (body : BodyReader) (inner : ScopeReader) (scope : List String) (s : ScopeState),
        (s.goto withFinal).round body inner scope = (s.goto without).round body inner scope) ∧
      (∀ (body : BodyReader) (s : MemberState),
        (s.goto withFinal).round body = (s.goto without).round body) ∧
      ∀ (room : Nat) (c : Cursor) (namespaces enclosing : List String) (isTemplate : Bool) outcome,
        ((c.goto (keyed (typed rest))).record (typeBody room) namespaces enclosing isTemplate).1 =
          .ok outcome →
        ∃ decl, outcome = .definition decl ∧ decl.name = type.text) ∧
    ∀ (body : BodyReader) (s : MemberState),
      let field := MemberState.plainField s.access type name s₃
      (s.goto (typed declarator)).round body = .again ((s.goto rest).addField field) ∧
      (s.goto (keyed (typed declarator))).round body =
        .again (if isMacroName type.text then s.goto rest else (s.goto rest).addField field) := by
  intro keyed typed declarator
  -- in a namespace, in a record, the name of the definition; then the two fields
  refine ⟨fun atBody => ⟨fun body inner scope s => ?_, fun body s => ?_, ?_⟩, fun body s => ⟨?_, ?_⟩⟩
  · rw [ScopeState.round_key rfl, ScopeState.round_key rfl]
    have same := s.cursor.record_final body s₁ s₂ s₃ type atBody scope [] false
    simp only [ScopeState.record, ScopeState.addTypes, ScopeState.goto, keyed, typed, same]
  · rw [MemberState.round_key rfl, MemberState.round_key rfl]
    have same := s.cursor.record_final body s₁ s₂ s₃ type atBody s.record.namespaces
      s.record.innerEnclosing false
    simp only [MemberState.nestedRecord, MemberState.goto, keyed, typed, same]
  · intro room c namespaces enclosing isTemplate outcome read
    have noSpecifier : type.text ∉ Cursor.specifierWords := fun mem =>
      type.ordinary (by simp [Grammar.reservedWords, mem])
    exact Cursor.record_names closed atBody noSpecifier (type.ne (w := "inline") (by decide)) read
  · exact MemberState.round_plain rfl
  · exact MemberState.round_elaborated closed.ne_nil rfl

theorem rounds_name_types_box :
    let rest : Tokens :=
      [.mark .colon, .word "public", .word "Base", .mark .openBrace, .word "int", .word "x",
        .mark .semicolon, .mark .closeBrace, .mark .semicolon, .eof].map (⟨·, {}⟩)
    let outer : TypeDecl := { name := "Scene", key := .struct, path := ⟨"scene.hpp"⟩ }
    let s : MemberState := ⟨outer, .priv, ⟨⟨outer.path, ""⟩, [], []⟩⟩
    let read (tokens : List Token) := (s.goto (tokens.map (⟨·, {}⟩) ++ rest)).round (typeBody 1)
    rest.Closed ∧ AtBody .struct rest ∧ isMacroName "Box" = false ∧
      read [.word "struct", .word "Box", .word "final"] = read [.word "struct", .word "Box"] ∧
      read [.word "struct", .word "Box", .word "box", .mark .semicolon] = .again ((s.goto rest).addField
        { name := "box", type := { spelling := "Box" }, visibility := .priv }) := by
  intro rest outer s read
  have closed : rest.Closed := ⟨⟨.eof, {}⟩, rfl, rfl⟩
  have atBody : AtBody .struct rest := .inr ⟨rfl, by decide +kernel⟩
  have plain : isMacroName "Box" = false := by cbv
  have rounds := rounds_name_types .struct ⟨"Box", by decide, by decide⟩ ⟨"box", by decide, by decide⟩
    {} {} {} {} closed
  have definition := (rounds.1 atBody).2.1 (typeBody 1) s
  have elaborated := (rounds.2 (typeBody 1) s).2
  rw [nameBeforeFinal, if_neg (by simp [plain])] at definition
  rw [if_neg (by simp [plain])] at elaborated
  exact ⟨closed, atBody, plain, definition, elaborated⟩

end Rounds

namespace Header

def fieldsOf (text : String) : List (String × List (String × String)) :=
  (read ⟨⟨"box.hpp"⟩, text⟩).root.types.map fun type =>
    (type.name, type.fields.map fun f => (f.name, f.type.spelling))

/-- The name of a type is taken for a macro where it is of capitals alone: before `final` the type is
recorded under the name `final`, and a member of the type is lost. -/
theorem read_takes_name_for_macro :
    fieldsOf "struct AB final {};" = [("final", [])] ∧
      fieldsOf "struct A { struct AB x; };" = [("A", [])] := by
  constructor <;> cbv

end Header

end HeaderMeta
