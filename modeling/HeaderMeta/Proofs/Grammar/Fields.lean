import HeaderMeta.Header.Members
import HeaderMeta.Proofs.Grammar.Parts

/-! Reading statements: the fields of a record, alias targets, and enumerations.

A statement is taken up to its semicolon, then cut at its outer commas. `Declares` says what one part
of the cut declares.
-/

set_option autoImplicit false

namespace HeaderMeta

namespace Grammar

variable {source : Source} {ts rest : Tokens}

theorem Name.not_atSpecifier (n : Name) (span : Span) (ts : Tokens) :
    Cursor.atSpecifier (⟨.word n.text, span⟩ :: ts) = false := by
  have ordinary : n.text ∉ Cursor.specifierWords := fun mem => n.ordinary (by simp [reservedWords, mem])
  simp [Cursor.atSpecifier, Tokens.word?, Token.word?, ordinary]

theorem Name.not_nonFieldStart (n : Name) : MemberState.nonFieldStarts.contains n.text = false := by
  have ordinary : n.text ∉ MemberState.nonFieldStarts := fun mem =>
    n.ordinary (by simp [reservedWords, mem])
  simpa using ordinary

section Statements

/-- Tokens that end no statement: taking goes on behind them. -/
def Passed (own : Tokens) : Prop :=
  ∀ tail, Tokens.takeFrom 0 (own ++ tail) =
    (Tokens.takeFrom 0 tail).map fun s => { s with body := own ++ s.body }

theorem Passed.append {own more : Tokens} (first : Passed own) (second : Passed more) :
    Passed (own ++ more) := by
  intro tail
  rw [List.append_assoc, first, second]
  cases Tokens.takeFrom 0 tail <;> simp [Except.map]

theorem Passed.names {own : Tokens} (named : ∀ t ∈ own, IsNameToken t.token) : Passed own := by
  intro tail
  induction own with
  | nil => cases h : Tokens.takeFrom 0 tail <;> simp [Except.map, h]
  | cons t own ih =>
    obtain ⟨first, others⟩ := List.forall_mem_cons.mp named
    obtain ⟨token, span⟩ := t
    rcases first with rfl | ⟨n, rfl⟩ <;>
    · simp only [List.cons_append, Tokens.takeFrom, ih others]
      cases Tokens.takeFrom 0 tail <;> rfl

inductive DeclaratorForm.Spelled : DeclaratorForm → Tokens → Prop where
  | plain (name : Name) (s : Span) : Spelled (.plain name) [⟨.word name.text, s⟩]
  | pointer (name : Name) (s₁ s₂ : Span) :
      Spelled (.pointer name) [⟨.mark .star, s₁⟩, ⟨.word name.text, s₂⟩]
  | reference (name : Name) (s₁ s₂ : Span) :
      Spelled (.reference name) [⟨.mark .amp, s₁⟩, ⟨.word name.text, s₂⟩]
  | array (name : Name) (size : Nat) (s₁ s₂ s₃ s₄ : Span) :
      Spelled (.array name size) [⟨.word name.text, s₁⟩, ⟨.mark .openBracket, s₂⟩,
        ⟨.number (toString size), s₃⟩, ⟨.mark .closeBracket, s₄⟩]
  | bitfield (name : Name) (width : Nat) (s₁ s₂ s₃ : Span) :
      Spelled (.bitfield name width)
        [⟨.word name.text, s₁⟩, ⟨.mark .colon, s₂⟩, ⟨.number (toString width), s₃⟩]

theorem DeclaratorForm.spelled_of_covers {d : DeclaratorForm} (covers : Covers source d.pieces ts rest) :
    ∃ own, ts = own ++ rest ∧ d.Spelled own := by
  cases d <;> simp only [DeclaratorForm.pieces, Name.piece, covers_word, covers_mark, covers_number,
    covers_nil] at covers
  case plain name =>
    obtain ⟨s, us, rfl, rfl⟩ := covers
    exact ⟨_, rfl, .plain name s⟩
  case pointer name =>
    obtain ⟨s₁, -, rfl, s₂, us, rfl, rfl⟩ := covers
    exact ⟨[_, _], rfl, .pointer name s₁ s₂⟩
  case reference name =>
    obtain ⟨s₁, -, rfl, s₂, us, rfl, rfl⟩ := covers
    exact ⟨[_, _], rfl, .reference name s₁ s₂⟩
  case array name size =>
    obtain ⟨s₁, -, rfl, s₂, -, rfl, s₃, -, rfl, s₄, us, rfl, rfl⟩ := covers
    exact ⟨[_, _, _, _], rfl, .array name size s₁ s₂ s₃ s₄⟩
  case bitfield name width =>
    obtain ⟨s₁, -, rfl, s₂, -, rfl, s₃, us, rfl, rfl⟩ := covers
    exact ⟨[_, _, _], rfl, .bitfield name width s₁ s₂ s₃⟩

theorem Passed.declarator {d : DeclaratorForm} {own : Tokens} (spelled : d.Spelled own) :
    Passed own := by
  intro tail
  cases spelled <;> cases found : Tokens.takeFrom 0 tail <;>
    simp [Tokens.takeFrom, Tokens.takeFrom.keep, Except.map, found]

inductive SpelledList : List DeclaratorForm → Tokens → Prop where
  | last {d : DeclaratorForm} {own : Tokens} (spelled : d.Spelled own) : SpelledList [d] own
  | cons {d : DeclaratorForm} {ds : List DeclaratorForm} {own more : Tokens} (s : Span)
      (spelled : d.Spelled own) (others : SpelledList ds more) :
      SpelledList (d :: ds) (own ++ ⟨.mark .comma, s⟩ :: more)

theorem spelledList_of_covers {d : DeclaratorForm} {ds : List DeclaratorForm}
    (covers : Covers source (separated ((d :: ds).map DeclaratorForm.pieces)) ts rest) :
    ∃ own, ts = own ++ rest ∧ SpelledList (d :: ds) own := by
  induction ds generalizing d ts with
  | nil =>
    obtain ⟨own, rfl, spelled⟩ := DeclaratorForm.spelled_of_covers covers
    exact ⟨own, rfl, .last spelled⟩
  | cons e ds ih =>
    obtain ⟨mid, first, inner⟩ := covers_append.mp covers
    obtain ⟨s, us, rfl, others⟩ := covers_mark.mp inner
    obtain ⟨own, rfl, spelled⟩ := DeclaratorForm.spelled_of_covers first
    obtain ⟨more, rfl, spelledMore⟩ := ih others
    exact ⟨own ++ ⟨.mark .comma, s⟩ :: more, by simp, .cons s spelled spelledMore⟩

theorem Passed.comma (s : Span) : Passed [⟨.mark .comma, s⟩] := by
  intro tail
  cases found : Tokens.takeFrom 0 tail <;>
    simp [Tokens.takeFrom, Tokens.takeFrom.keep, Except.map, found]

theorem Passed.declarators {ds : List DeclaratorForm} {own : Tokens}
    (spelled : SpelledList ds own) : Passed own := by
  induction spelled with
  | last spelled => exact .declarator spelled
  | cons s spelled _ ih => exact (Passed.declarator spelled).append ((Passed.comma s).append ih)

theorem Passed.takeStatement {own : Tokens} (passed : Passed own) (s : Span) (rest : Tokens) :
    Tokens.takeStatement (own ++ ⟨.mark .semicolon, s⟩ :: rest) = .ok ⟨own, rest⟩ := by
  rw [Tokens.takeStatement, passed]
  simp [Tokens.takeFrom, Except.map]

def IsMild (t : Token) : Prop :=
  t ≠ .mark .openParen ∧ t ≠ .mark .less ∧ t ≠ .word "operator"

theorem IsNameToken.isMild {t : Token} (named : IsNameToken t) : IsMild t := by
  rcases named with rfl | ⟨n, rfl⟩
  · exact ⟨by decide, by decide, by decide⟩
  · exact ⟨by simp, by simp, by simpa using n.ne (w := "operator") (by decide)⟩

theorem SpelledList.isMild {ds : List DeclaratorForm} {own : Tokens} (spelled : SpelledList ds own) :
    ∀ t ∈ own, IsMild t.token := by
  have one {d : DeclaratorForm} {own : Tokens} (spelled : d.Spelled own) :
      ∀ t ∈ own, IsMild t.token := by
    cases spelled <;> simp [IsMild, Name.ne _ (w := "operator") (by decide)]
  induction spelled with
  | last spelled => exact one spelled
  | cons s spelled _ ih =>
    simp only [List.forall_mem_append, List.forall_mem_cons]
    exact ⟨one spelled, ⟨by decide, by decide, by decide⟩, ih⟩

theorem declaresFunction_eq_false {own : Tokens} (mild : ∀ t ∈ own, IsMild t.token) (s : Span)
    (rest : Tokens) :
    Tokens.declaresFunction (own ++ ⟨.mark .semicolon, s⟩ :: rest) = false := by
  suffices all : ∀ afterWord, Tokens.declaresFunctionFrom 0 afterWord
      (own ++ ⟨.mark .semicolon, s⟩ :: rest) = false from all false
  induction own with
  | nil => simp [Tokens.declaresFunctionFrom]
  | cons t own ih =>
    intro afterWord
    obtain ⟨⟨noParen, noAngle, noOperator⟩, others⟩ := List.forall_mem_cons.mp mild
    have next := ih others
    obtain ⟨token, span⟩ := t
    simp only [List.cons_append, Tokens.declaresFunctionFrom]
    split <;> simp_all

end Statements

section Declarators

def TypeEnd (pre : Tokens) : Prop :=
  pre = [] ∨ ∃ own name s, pre = own ++ [⟨.word (Name.text name), s⟩]

def Declares (pre : Tokens) (d : DeclaratorForm) (part : DeclaratorPart) : Prop :=
  ∃ read, Declarator.ofPart? part = some (pre.map Placed.token, read) ∧
    read.name = d.name.text ∧ read.kind = d.kind

theorem dropMarks_typeEnd {pre : Tokens} (ends : TypeEnd pre) (d : Declarator) :
    Declarator.dropMarks d pre.reverse = (pre.reverse, d) := by
  rcases ends with rfl | ⟨own, name, s, rfl⟩
  · rfl
  · have notConst := name.ne (w := "const") (by decide)
    have notVolatile := name.ne (w := "volatile") (by decide)
    simp [Declarator.dropMarks, Token.isQualifier, notConst, notVolatile]

open DeclaratorPart (Cut splitFrom)

/-- A declarator behind type tokens makes one part of a cut. -/
theorem splitFrom_declarator {d : DeclaratorForm} {pre own : Tokens} (spelled : d.Spelled own)
    (ends : TypeEnd pre) (afterWord : Bool) :
    ∃ c : Cut, c.isOuter = true ∧ c.restart = {} ∧ c.current ≠ [] ∧ Declares pre d c.part ∧
      ∀ tail, splitFrom { current := pre.reverse, afterWord } (own ++ tail) = splitFrom c tail := by
  have marks := dropMarks_typeEnd ends
  cases spelled with
  -- for each form: the cut behind it, in reverse, what it declares, and that it is reached
  | plain name s =>
    refine ⟨⟨⟨.word name.text, s⟩ :: pre.reverse, false, false, 0, 0, true⟩, rfl, rfl, by simp,
      ⟨⟨name.text, s, false, false, false, false⟩, ?_, rfl, rfl⟩, fun tail => ?_⟩
    · simp [Declarator.ofPart?, Declarator.ofTokens?, Cut.part, Declarator.dropBounds, marks]
    · simp [splitFrom, Cut.note, Cut.keep, Token.isWord, Token.word?]
  | pointer name s₁ s₂ =>
    refine ⟨⟨⟨.word name.text, s₂⟩ :: ⟨.mark .star, s₁⟩ :: pre.reverse, false, false, 0, 0, true⟩,
      rfl, rfl, by simp, ⟨⟨name.text, s₂, true, false, false, false⟩, ?_, rfl, rfl⟩, fun tail => ?_⟩
    · simp [Declarator.ofPart?, Declarator.ofTokens?, Cut.part, Declarator.dropBounds,
        Declarator.dropMarks, marks]
    · simp [splitFrom, Cut.note, Cut.keep, Token.isWord, Token.word?]
  | reference name s₁ s₂ =>
    refine ⟨⟨⟨.word name.text, s₂⟩ :: ⟨.mark .amp, s₁⟩ :: pre.reverse, false, false, 0, 0, true⟩,
      rfl, rfl, by simp, ⟨⟨name.text, s₂, false, true, false, false⟩, ?_, rfl, rfl⟩, fun tail => ?_⟩
    · simp [Declarator.ofPart?, Declarator.ofTokens?, Cut.part, Declarator.dropBounds,
        Declarator.dropMarks, marks]
    · simp [splitFrom, Cut.note, Cut.keep, Token.isWord, Token.word?]
  | array name size s₁ s₂ s₃ s₄ =>
    refine ⟨⟨⟨.mark .closeBracket, s₄⟩ :: ⟨.number (toString size), s₃⟩ ::
        ⟨.mark .openBracket, s₂⟩ :: ⟨.word name.text, s₁⟩ :: pre.reverse,
        false, false, 0, 0, false⟩,
      rfl, rfl, by simp, ⟨⟨name.text, s₁, false, false, true, false⟩, ?_, rfl, rfl⟩, fun tail => ?_⟩
    · simp [Declarator.ofPart?, Declarator.ofTokens?, Cut.part, Declarator.dropBounds,
        beforeBracket?, marks]
    · simp [splitFrom, Cut.note, Cut.keep, Token.isWord, Token.word?]
  | bitfield name width s₁ s₂ s₃ =>
    refine ⟨⟨⟨.word name.text, s₁⟩ :: pre.reverse, true, true, 0, 0, false⟩, rfl, rfl, by simp,
      ⟨⟨name.text, s₁, false, false, false, true⟩, ?_, rfl, rfl⟩, fun tail => ?_⟩
    · simp [Declarator.ofPart?, Declarator.ofTokens?, Cut.part, Declarator.dropBounds, marks]
    · simp [splitFrom, Cut.note, Cut.keep, Cut.isOuter, Token.isWord, Token.word?]

/-- The first part has the type, the others have none. -/
theorem splitFrom_declarators {d : DeclaratorForm} {ds : List DeclaratorForm} {pre own : Tokens}
    (spelled : SpelledList (d :: ds) own) (ends : TypeEnd pre) (afterWord : Bool) :
    ∃ part parts, splitFrom { current := pre.reverse, afterWord } own = part :: parts ∧
      Declares pre d part ∧ List.Forall₂ (Declares []) ds parts := by
  induction ds generalizing d pre own afterWord with
  | nil =>
    cases spelled with
    | last spelled =>
      obtain ⟨c, -, -, some, declares, cut⟩ := splitFrom_declarator spelled ends afterWord
      refine ⟨c.part, [], ?_, declares, .nil⟩
      simpa [splitFrom, some] using cut []
    | cons s spelled others => cases others
  | cons e ds ih =>
    cases spelled with
    | cons s spelled others =>
      obtain ⟨c, outer, restart, -, declares, cut⟩ := splitFrom_declarator spelled ends afterWord
      obtain ⟨part, parts, split, first, more⟩ := ih others (.inl rfl) false
      refine ⟨c.part, part :: parts, ?_, declares, .cons first more⟩
      rw [cut, splitFrom, ← split]
      simp [outer, restart]

theorem splitFrom_names {own : Tokens} (named : ∀ t ∈ own, IsNameToken t.token) (cur : Tokens)
    (afterWord : Bool) :
    ∃ last, ∀ tail, splitFrom { current := cur, afterWord } (own ++ tail) =
      splitFrom { current := own.reverse ++ cur, afterWord := last } tail := by
  induction own generalizing cur afterWord with
  | nil => exact ⟨afterWord, fun _ => rfl⟩
  | cons t own ih =>
    obtain ⟨first, others⟩ := List.forall_mem_cons.mp named
    obtain ⟨last, cut⟩ := ih others (t :: cur) t.token.isWord
    refine ⟨last, fun tail => ?_⟩
    rw [List.reverse_cons, List.append_assoc, List.singleton_append, ← cut]
    obtain ⟨token, span⟩ := t
    rcases first with rfl | ⟨n, rfl⟩ <;>
      simp [splitFrom, Cut.note, Cut.keep, Token.isWord, Token.word?]

/-- A statement of a type and its declarators falls into one part for each. -/
theorem split_statement {type : ScopedName} {d : DeclaratorForm} {ds : List DeclaratorForm}
    {pre own : Tokens} (typed : pre.map Placed.token = type.tokens)
    (spelled : SpelledList (d :: ds) own) :
    ∃ part parts, DeclaratorPart.split (pre ++ own) = part :: parts ∧ Declares pre d part ∧
      List.Forall₂ (Declares []) ds parts := by
  have named := ScopedName.forall_isNameToken typed
  have ends : TypeEnd pre := by
    obtain ⟨own, last, rfl, -, lastTyped⟩ := List.map_eq_append_iff.mp typed
    obtain ⟨⟨token, s⟩, rfl, rfl⟩ := List.map_eq_singleton_iff.mp lastTyped
    exact .inr ⟨own, type.last, s, rfl⟩
  obtain ⟨last, cut⟩ := splitFrom_names named [] false
  obtain ⟨part, parts, split, first, more⟩ := splitFrom_declarators spelled ends last
  refine ⟨part, parts, ?_, first, more⟩
  rw [DeclaratorPart.split, cut, List.append_nil, split]

end Declarators

section Members
variable {s : MemberState}

def withFields (s : MemberState) (fields : List Field) : MemberState :=
  { s with record := { s.record with fields := s.record.fields ++ fields } }

@[simp] theorem withFields_nil : withFields s [] = s := by
  obtain ⟨⟨⟩, access, cursor⟩ := s
  simp [withFields]

theorem withFields_addField (f : Field) (fields : List Field) :
    withFields (s.addField f) fields = withFields s (f :: fields) := by
  simp [withFields, MemberState.addField]

def readField (access : Visibility) (attributes : List Attribute) (spelling : String)
    (d : Declarator) : Field :=
  { name := d.name, type := { spelling, kind := d.kind }, visibility := access
    attributes, span := d.span }

theorem unplaced_readField {access : Visibility} {attributes : List Attribute}
    {as : List AttributeForm} (attributed : attributes.map Attribute.unplaced = as.map AttributeForm.denote)
    {d : DeclaratorForm} {read : Declarator} (name : read.name = d.name.text)
    (kind : read.kind = d.kind) (type : ScopedName) :
    (readField access attributes type.text read).unplaced = fieldOf access as type d := by
  simp [readField, Field.unplaced, fieldOf, attributed, name, kind]

variable {attributes : List Attribute} {as : List AttributeForm} {type : ScopedName}

theorem addParts_more (start : Span) {ds : List DeclaratorForm} {parts : List DeclaratorPart}
    (attributed : attributes.map Attribute.unplaced = as.map AttributeForm.denote)
    (declares : List.Forall₂ (Declares []) ds parts) :
    ∃ fields, MemberState.addParts attributes start (some type.text) false parts s =
        withFields s fields ∧
      fields.map Field.unplaced = ds.map (fieldOf s.access as type) := by
  induction declares generalizing s with
  | nil => exact ⟨[], by simp [MemberState.addParts], rfl⟩
  | @cons d part ds parts declared _ ih =>
    obtain ⟨read, ofPart, name, kind⟩ := declared
    obtain ⟨fields, added, denoted⟩ := ih (s := s.addField (readField s.access attributes type.text read))
    refine ⟨readField s.access attributes type.text read :: fields, ?_, ?_⟩
    · simp only [MemberState.addParts, ofPart]
      rw [← withFields_addField, ← added]
      rfl
    · rw [List.map_cons, List.map_cons, denoted, unplaced_readField attributed name kind]
      rfl

theorem addParts_eq (start : Span) {d : DeclaratorForm} {ds : List DeclaratorForm} {pre : Tokens}
    {part : DeclaratorPart} {parts : List DeclaratorPart}
    (attributed : attributes.map Attribute.unplaced = as.map AttributeForm.denote)
    (typed : pre.map Placed.token = type.tokens) (first : Declares pre d part)
    (others : List.Forall₂ (Declares []) ds parts) :
    ∃ fields, MemberState.addParts attributes start none true (part :: parts) s =
        withFields s fields ∧
      fields.map Field.unplaced = (d :: ds).map (fieldOf s.access as type) := by
  obtain ⟨read, ofPart, name, kind⟩ := first
  obtain ⟨fields, added, denoted⟩ := addParts_more
    (s := s.addField (readField s.access attributes type.text read)) start attributed others
  have spelled : spell (pre.map Placed.token) = type.text := by rw [typed, spell_tokens]
  refine ⟨readField s.access attributes type.text read :: fields, ?_, ?_⟩
  · simp only [MemberState.addParts, ofPart, spelled, type.text_ne_empty]
    rw [← withFields_addField, ← added]
    rfl
  · rw [List.map_cons, List.map_cons, denoted, unplaced_readField attributed name kind]
    rfl

section FieldTokens
variable {first : DeclaratorForm} {more : List DeclaratorForm}

theorem fieldPieces_tokens
    (covers : Covers source (fieldPieces type (first :: more) ++ [Piece.mark .semicolon]) ts rest) :
    ∃ pre own span, ts = pre ++ (own ++ ⟨.mark .semicolon, span⟩ :: rest) ∧
      pre.map Placed.token = type.tokens ∧ SpelledList (first :: more) own := by
  obtain ⟨_, statement, closing⟩ := covers_append.mp covers
  obtain ⟨span, us, rfl, same⟩ := covers_mark.mp closing
  obtain rfl := covers_nil.mp same
  obtain ⟨_, named, declared⟩ := covers_append.mp statement
  obtain ⟨own, rfl, spelled⟩ := spelledList_of_covers declared
  obtain ⟨pre, rfl, typed⟩ := ScopedName.covers_tokens named
  exact ⟨pre, own, span, rfl, typed, spelled⟩

theorem fieldTokens_isMild {pre own : Tokens} (typed : pre.map Placed.token = type.tokens)
    (spelled : SpelledList (first :: more) own) : ∀ t ∈ pre ++ own, IsMild t.token :=
  List.forall_mem_append.mpr
    ⟨fun t mem => (ScopedName.forall_isNameToken typed t mem).isMild, spelled.isMild⟩

theorem fieldPieces_head
    (covers : Covers source (fieldPieces type (first :: more) ++ [Piece.mark .semicolon]) ts rest) :
    ∃ (name : Name) (span : Span) (us : Tokens), ts = ⟨.word name.text, span⟩ :: us ∧
      us.peek ≠ .mark .openParen := by
  have start : ∃ (name : Name) (span : Span) (us : Tokens), ts = ⟨.word name.text, span⟩ :: us := by
    obtain ⟨_, statement, -⟩ := covers_append.mp covers
    obtain ⟨_, named, -⟩ := covers_append.mp statement
    exact ScopedName.covers_head named
  obtain ⟨name, span, us, rfl⟩ := start
  obtain ⟨pre, own, s, tokens, typed, spelled⟩ := fieldPieces_tokens covers
  have mild := fieldTokens_isMild typed spelled
  refine ⟨name, span, us, rfl, ?_⟩
  cases pre with
  | nil => simp [ScopedName.tokens] at typed
  | cons t pre =>
    rw [List.cons_append] at tokens
    obtain ⟨rfl, rfl⟩ := List.cons.inj tokens
    rw [← List.append_assoc]
    cases behind : pre ++ own with
    | nil => simp
    | cons u vs => exact (mild u (List.mem_cons_of_mem _ (by simp [behind]))).1

end FieldTokens

theorem member_fields {first : DeclaratorForm} {more : List DeclaratorForm}
    (covers : Covers s.cursor.source (MemberForm.fields as type first more).pieces s.cursor.rest rest) :
    ∃ fields, s.member = withFields (s.goto rest) fields ∧
      fields.map Field.unplaced = (MemberForm.fields as type first more).declared s.access := by
  simp only [MemberForm.pieces, List.append_assoc] at covers
  obtain ⟨mid, attributed, statement⟩ := covers_append.mp covers
  obtain ⟨name, s₁, vs, head, -⟩ := fieldPieces_head statement
  obtain ⟨pre, own, span, rfl, typeTokens, spelled⟩ := fieldPieces_tokens statement
  have mild := fieldTokens_isMild typeTokens spelled
  have passed : Passed (pre ++ own) :=
    (Passed.names (ScopedName.forall_isNameToken typeTokens)).append (.declarators spelled)
  obtain ⟨read, specifiers, denotes⟩ := attributeSpecifiers_eq attributed (by simp [head])
    (by simp [head, Tokens.atAttributes]) (by simp [head, name.not_atSpecifier])
  obtain ⟨part, parts, split, declares, others⟩ := split_statement typeTokens spelled
  obtain ⟨fields, added, denoted⟩ := addParts_eq (s := s.goto rest) s.cursor.here denotes typeTokens
    declares others
  refine ⟨fields, ?_, denoted⟩
  rw [← added, ← split]
  have noFunction := declaresFunction_eq_false mild span rest
  have taken := passed.takeStatement span rest
  rw [List.append_assoc, head] at noFunction taken
  have notStart : Option.any MemberState.nonFieldStarts.contains
      (Tokens.word? (⟨.word name.text, s₁⟩ :: vs)) = false := name.not_nonFieldStart
  simp [MemberState.member, specifiers, head, noFunction, taken, notStart, MemberState.goto]

end Members

section Enumerations

theorem covers_values {values : List Name}
    (covers : Covers source (separated (values.map fun v => [v.piece])) ts rest) :
    ∃ own, ts = own ++ rest ∧ ∀ t ∈ own, t.token = .mark .comma ∨ t.token.isWord = true := by
  induction values generalizing ts with
  | nil => exact ⟨[], covers_nil.mp covers, by simp⟩
  | cons v values ih =>
    cases values with
    | nil =>
      obtain ⟨s, us, rfl, same⟩ := covers_word.mp covers
      exact ⟨[⟨.word v.text, s⟩], by rw [covers_nil.mp same]; rfl, by simp [Token.isWord, Token.word?]⟩
    | cons w values =>
      obtain ⟨s, us, rfl, inner⟩ := covers_word.mp covers
      obtain ⟨s', vs, rfl, others⟩ := covers_mark.mp inner
      obtain ⟨own, rfl, listed⟩ := ih others
      exact ⟨⟨.word v.text, s⟩ :: ⟨.mark .comma, s'⟩ :: own, rfl,
        by simpa [Token.isWord, Token.word?] using listed⟩

theorem skipGroup_values {values : List Name}
    (covers : Covers source (braced (separated (values.map fun v => [v.piece]))) ts rest)
    (remains : rest ≠ []) :
    ∃ s us, ts = ⟨.mark .openBrace, s⟩ :: us ∧ Tokens.skipGroup ts = rest := by
  obtain ⟨s, us, rfl, inner⟩ := covers_mark.mp covers
  obtain ⟨mid, listed, closing⟩ := covers_append.mp inner
  obtain ⟨s', vs, rfl, same⟩ := covers_mark.mp closing
  obtain rfl := covers_nil.mp same
  obtain ⟨own, rfl, tokens⟩ := covers_values listed
  have plain : ∀ t ∈ own, t.token ≠ .eof ∧ t.token ≠ .mark .openBrace ∧
      t.token ≠ .mark .closeBrace := fun t mem => by
    rcases tokens t mem with comma | word
    · simp [comma]
    · refine ⟨?_, ?_, ?_⟩ <;> intro same <;> simp [same, Token.isWord, Token.word?] at word
  have found := findClose_append (by decide) plain s' vs
  exact ⟨s, _, rfl, by simp [Tokens.skipGroup, Tokens.closerOf?, found, remains]⟩

theorem qualifiedName_name (name : Name) (span : Span) (noColons : Tokens.atMark ts .colonColon = false) :
    Tokens.qualifiedName (⟨.word name.text, span⟩ :: ts) = ([name.text], ts) := by
  have covers : Covers ⟨default, ""⟩ (ScopedName.pieces ⟨[], name⟩) (⟨.word name.text, span⟩ :: ts) ts :=
    covers_word.mpr ⟨span, ts, rfl, .nil⟩
  exact qualifiedName_eq covers noColons

theorem enumeration_eq {c : Cursor} {e : EnumForm} (covers : Covers c.source e.pieces c.rest rest)
    (remains : rest ≠ []) (namespaces enclosing : List String) (path : Path) :
    ∃ decl, c.enumeration namespaces enclosing = (some decl, c.goto rest) ∧
      decl.unplaced = e.denote ⟨path, namespaces, enclosing⟩ := by
  obtain ⟨isScoped, name, values⟩ := e
  obtain ⟨span, us, tokens, inner⟩ := covers_word.mp covers
  obtain ⟨mid, keyed, named⟩ := covers_append.mp inner
  obtain ⟨s, vs, rfl, body⟩ := covers_word.mp named
  obtain ⟨s', ws, rfl, skipped⟩ := skipGroup_values body remains
  have parts : Tokens.qualifiedName (⟨.word name.text, s⟩ :: ⟨.mark .openBrace, s'⟩ :: ws) =
      ([name.text], ⟨.mark .openBrace, s'⟩ :: ws) := qualifiedName_name name s rfl
  have specifiers : (c.goto (⟨.word name.text, s⟩ :: ⟨.mark .openBrace, s'⟩ :: ws)).attributeSpecifiers =
      ([], c.goto (⟨.word name.text, s⟩ :: ⟨.mark .openBrace, s'⟩ :: ws)) :=
    attributeSpecifiers_none (by simp [Tokens.atAttributes]) (name.not_atSpecifier s _)
  refine ⟨⟨name.text, namespaces, enclosing, isScoped, span⟩, ?_, rfl⟩
  cases isScoped with
  | false =>
    obtain rfl := covers_nil.mp keyed
    have notClass := name.ne (w := "class") (by decide)
    have notStruct := name.ne (w := "struct") (by decide)
    simp [Cursor.enumeration, Cursor.advance, Cursor.here, Cursor.peek, tokens, specifiers, parts,
      skipped, notClass, notStruct]
  | true =>
    obtain ⟨s₁, _, rfl, same⟩ := covers_word.mp keyed
    obtain rfl := covers_nil.mp same
    simp [Cursor.enumeration, Cursor.advance, Cursor.here, Cursor.peek, tokens, specifiers, parts,
      skipped]

end Enumerations

section Aliases

theorem stripIndirection_names {own : Tokens} {n : ScopedName}
    (spelled : own.map Placed.token = n.tokens) :
    stripIndirection own = (n.tokens, .unresolved) := by
  obtain ⟨init, last, rfl, -, lastSpelled⟩ := List.map_eq_append_iff.mp spelled
  obtain ⟨⟨token, s⟩, rfl, rfl⟩ := List.map_eq_singleton_iff.mp lastSpelled
  have notConst := n.last.ne (w := "const") (by decide)
  have notVolatile := n.last.ne (w := "volatile") (by decide)
  rw [← spelled]
  simp [stripIndirection, stripReversed, Token.isQualifier, notConst, notVolatile]

theorem usingAlias_eq {c : Cursor} {name : Name} {target : ScopedName}
    (covers : Covers c.source (DeclForm.synonym name target).pieces c.rest rest)
    (remains : rest ≠ []) (scope : List String) :
    ∃ decl, c.usingAlias scope = (some decl, c.goto rest) ∧
      decl.unplaced = ⟨name.text, scope, { spelling := target.text }, {}⟩ := by
  simp only [DeclForm.pieces] at covers
  obtain ⟨s₁, us, tokens, inner⟩ := covers_word.mp covers
  obtain ⟨s₂, vs, rfl, inner'⟩ := covers_word.mp inner
  obtain ⟨s₃, ws, rfl, aliased⟩ := covers_mark.mp inner'
  obtain ⟨mid, targeted, closing⟩ := covers_append.mp aliased
  obtain ⟨s₄, xs, rfl, same⟩ := covers_mark.mp closing
  obtain rfl := covers_nil.mp same
  obtain ⟨own, rfl, spelled⟩ := ScopedName.covers_tokens targeted
  have named := ScopedName.forall_isNameToken spelled
  have taken := (Passed.names named).takeStatement s₄ xs
  have noParen : own.any (·.token == .mark .openParen) = false := by
    simpa using fun t mem => (named t mem).isMild.1
  refine ⟨⟨name.text, scope, { spelling := target.text }, s₂⟩, ?_, rfl⟩
  simp [Cursor.usingAlias, tokens, taken, stripIndirection_names spelled, spell_tokens,
    target.text_ne_empty, noParen]

end Aliases

end Grammar

end HeaderMeta
