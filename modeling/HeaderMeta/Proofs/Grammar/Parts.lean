import HeaderMeta.Proofs.Grammar.Lexing

/-! Reading names, attribute lists and base clauses.

A reader is met at tokens that cover the pieces of a form. It yields what the form denotes, places
apart, and stops where the form ends.
-/

set_option autoImplicit false

namespace HeaderMeta

namespace Tokens
variable {t u : Placed} {ts : Tokens}

@[simp] theorem peekAt_zero : peekAt (t :: ts) 0 = t.token := rfl

@[simp] theorem peekAt_succ (n : Nat) : peekAt (t :: ts) (n + 1) = peekAt ts n := rfl

@[simp] theorem peek_cons : peek (t :: ts) = t.token := rfl

@[simp] theorem here_cons : here (t :: ts) = t.span := rfl

@[simp] theorem atMark_cons (m : Mark) : atMark (t :: ts) m = (t.token == .mark m) := rfl

@[simp] theorem advance_cons (some : ts ≠ []) : advance (t :: ts) = ts := by
  cases ts with
  | nil => exact absurd rfl some
  | cons _ _ => rfl

end Tokens

namespace Cursor
variable (c : Cursor) (ts us : Tokens)

@[simp] theorem source_goto : (c.goto ts).source = c.source := rfl

@[simp] theorem issues_goto : (c.goto ts).issues = c.issues := rfl

@[simp] theorem goto_goto : (c.goto ts).goto us = c.goto us := rfl

@[simp] theorem goto_rest : c.goto c.rest = c := rfl

end Cursor

namespace Grammar

variable {source : Source} {ts rest : Tokens}

section Covers
variable {ps qs : List Piece}

theorem covers_nil : Covers source [] ts rest ↔ ts = rest := by
  constructor
  · rintro ⟨⟩
    rfl
  · rintro rfl
    exact .nil

theorem covers_cons {p : Piece} :
    Covers source (p :: ps) ts rest ↔
      ∃ own us, ts = own ++ us ∧ p.Read source own ∧ Covers source ps us rest := by
  constructor
  · rintro ⟨⟩
    exact ⟨_, _, rfl, by assumption, by assumption⟩
  · rintro ⟨own, us, rfl, first, more⟩
    exact .cons first more

theorem covers_append :
    Covers source (ps ++ qs) ts rest ↔
      ∃ mid, Covers source ps ts mid ∧ Covers source qs mid rest := by
  induction ps generalizing ts with
  | nil => simp [covers_nil]
  | cons p ps ih =>
    simp only [List.cons_append, covers_cons, ih]
    constructor
    · rintro ⟨own, us, rfl, first, mid, more, last⟩
      exact ⟨mid, ⟨own, us, rfl, first, more⟩, last⟩
    · rintro ⟨mid, ⟨own, us, rfl, first, more⟩, last⟩
      exact ⟨own, us, rfl, first, mid, more, last⟩

theorem covers_word {text : String} {identifier : isIdentifier text = true} :
    Covers source (.word text identifier :: ps) ts rest ↔
      ∃ span us, ts = ⟨.word text, span⟩ :: us ∧ Covers source ps us rest := by
  rw [covers_cons]
  constructor
  · rintro ⟨own, us, rfl, first, more⟩
    cases first with
    | word span => exact ⟨span, us, rfl, more⟩
  · rintro ⟨span, us, rfl, more⟩
    exact ⟨_, us, rfl, .word span, more⟩

theorem covers_mark {m : Mark} :
    Covers source (.mark m :: ps) ts rest ↔
      ∃ span us, ts = ⟨.mark m, span⟩ :: us ∧ Covers source ps us rest := by
  rw [covers_cons]
  constructor
  · rintro ⟨own, us, rfl, first, more⟩
    cases first with
    | mark span => exact ⟨span, us, rfl, more⟩
  · rintro ⟨span, us, rfl, more⟩
    exact ⟨_, us, rfl, .mark span, more⟩

theorem covers_number {n : Nat} :
    Covers source (.number n :: ps) ts rest ↔
      ∃ span us, ts = ⟨.number (toString n), span⟩ :: us ∧ Covers source ps us rest := by
  rw [covers_cons]
  constructor
  · rintro ⟨own, us, rfl, first, more⟩
    cases first with
    | number span => exact ⟨span, us, rfl, more⟩
  · rintro ⟨span, us, rfl, more⟩
    exact ⟨_, us, rfl, .number span, more⟩

theorem covers_closeList :
    Covers source [.closeList] ts rest ↔
      ∃ s₁ s₂, ts = ⟨.mark .closeBracket, s₁⟩ :: ⟨.mark .closeBracket, s₂⟩ :: rest := by
  rw [covers_cons]
  constructor
  · rintro ⟨own, us, rfl, first, more⟩
    obtain rfl := covers_nil.mp more
    cases first with
    | closeList s₁ s₂ => exact ⟨s₁, s₂, rfl⟩
  · rintro ⟨s₁, s₂, rfl⟩
    exact ⟨_, rest, rfl, .closeList s₁ s₂, .nil⟩

theorem covers_openList :
    Covers source (.openList :: ps) ts rest ↔
      ∃ s₁ s₂ us, ts = ⟨.mark .openBracket, s₁⟩ :: ⟨.mark .openBracket, s₂⟩ :: us ∧
        Covers source ps us rest := by
  rw [covers_cons]
  constructor
  · rintro ⟨own, us, rfl, first, more⟩
    cases first with
    | openList s₁ s₂ => exact ⟨s₁, s₂, us, rfl, more⟩
  · rintro ⟨s₁, s₂, us, rfl, more⟩
    exact ⟨_, us, rfl, .openList s₁ s₂, more⟩

theorem Covers.ne_nil (covers : Covers source ps ts rest) (some : rest ≠ []) : ts ≠ [] := by
  induction covers with
  | nil => exact some
  | cons _ _ ih => exact List.append_ne_nil_of_right_ne_nil _ (ih some)

end Covers

theorem separated_cons (g : List Piece) (gs : List (List Piece)) :
    ∃ more, separated (g :: gs) = g ++ more := by
  cases gs with
  | nil => exact ⟨[], (List.append_nil g).symm⟩
  | cons h gs => exact ⟨_, rfl⟩

section Names

theorem Name.ne (n : Name) {w : String} (reserved : w ∈ reservedWords) : n.text ≠ w := by
  rintro rfl
  exact n.ordinary reserved

theorem ScopedName.names_cons (o : Name) (outer : List Name) (last : Name) :
    ScopedName.names ⟨o :: outer, last⟩ = o.text :: ScopedName.names ⟨outer, last⟩ := rfl

theorem ScopedName.pieces_cons (o : Name) (outer : List Name) (last : Name) :
    ScopedName.pieces ⟨o :: outer, last⟩ =
      o.piece :: .mark .colonColon :: ScopedName.pieces ⟨outer, last⟩ := rfl

theorem ScopedName.covers_head {n : ScopedName} (covers : Covers source n.pieces ts rest) :
    ∃ (first : Name) (span : Span) (us : Tokens), ts = ⟨.word first.text, span⟩ :: us := by
  obtain ⟨outer, last⟩ := n
  cases outer with
  | nil =>
    obtain ⟨span, us, rfl, -⟩ := covers_word.mp covers
    exact ⟨last, span, us, rfl⟩
  | cons o outer =>
    obtain ⟨span, us, rfl, -⟩ := covers_word.mp covers
    exact ⟨o, span, us, rfl⟩

theorem nameParts_eq {n : ScopedName} (covers : Covers source n.pieces ts rest)
    (ends : Tokens.atMark rest .colonColon = false) : Tokens.nameParts ts = (n.names, rest) := by
  obtain ⟨outer, last⟩ := n
  induction outer generalizing ts with
  | nil =>
    obtain ⟨span, us, rfl, same⟩ := covers_word.mp covers
    obtain rfl := covers_nil.mp same
    have plain := last.ne (w := "inline") (by decide)
    cases us with
    | nil => simp [Tokens.nameParts, plain, ScopedName.names]
    | cons t us =>
      rw [Tokens.nameParts]
      · simp [plain, ScopedName.names]
      · rintro s next same
        obtain ⟨rfl, -⟩ := List.cons.inj same
        simp [Tokens.atMark, Tokens.peek, Tokens.peekAt] at ends
  | cons o outer ih =>
    obtain ⟨span, us, rfl, inner⟩ := covers_word.mp (ScopedName.pieces_cons o outer last ▸ covers)
    obtain ⟨s, vs, rfl, more⟩ := covers_mark.mp inner
    have read := ih more
    obtain ⟨first, t, ws, rfl⟩ := ScopedName.covers_head more
    have plain := o.ne (w := "inline") (by decide)
    simp [Tokens.nameParts, plain, Tokens.peek, Tokens.peekAt, Token.isWord, Token.word?, read, ScopedName.names_cons]

theorem qualifiedName_eq {n : ScopedName} (covers : Covers source n.pieces ts rest)
    (ends : Tokens.atMark rest .colonColon = false) : Tokens.qualifiedName ts = (n.names, rest) := by
  have parts := nameParts_eq covers ends
  obtain ⟨first, span, us, rfl⟩ := ScopedName.covers_head covers
  exact parts

def ScopedName.tokens (n : ScopedName) : List Token :=
  n.outer.flatMap (fun o => [.word o.text, .mark .colonColon]) ++ [.word n.last.text]

def IsNameToken (t : Token) : Prop :=
  t = .mark .colonColon ∨ ∃ n : Name, t = .word n.text

theorem ScopedName.isNameToken {n : ScopedName} {t : Token} (mem : t ∈ n.tokens) :
    IsNameToken t := by
  simp only [tokens, List.mem_append, List.mem_flatMap, List.mem_cons, List.not_mem_nil,
    or_false] at mem
  rcases mem with ⟨o, -, rfl | rfl⟩ | rfl
  · exact .inr ⟨o, rfl⟩
  · exact .inl rfl
  · exact .inr ⟨n.last, rfl⟩

theorem ScopedName.forall_isNameToken {n : ScopedName} {own : Tokens}
    (spelled : own.map Placed.token = n.tokens) : ∀ t ∈ own, IsNameToken t.token :=
  fun _ mem => n.isNameToken (spelled ▸ List.mem_map_of_mem mem)

theorem ScopedName.covers_tokens {n : ScopedName} (covers : Covers source n.pieces ts rest) :
    ∃ own, ts = own ++ rest ∧ own.map Placed.token = n.tokens := by
  obtain ⟨outer, last⟩ := n
  induction outer generalizing ts with
  | nil =>
    obtain ⟨span, us, rfl, same⟩ := covers_word.mp covers
    obtain rfl := covers_nil.mp same
    exact ⟨[⟨.word last.text, span⟩], rfl, rfl⟩
  | cons o outer ih =>
    obtain ⟨span, us, rfl, inner⟩ := covers_word.mp (ScopedName.pieces_cons o outer last ▸ covers)
    obtain ⟨s, vs, rfl, more⟩ := covers_mark.mp inner
    obtain ⟨own, rfl, spelled⟩ := ih more
    exact ⟨⟨.word o.text, span⟩ :: ⟨.mark .colonColon, s⟩ :: own, rfl, by simp [tokens, spelled]⟩

theorem IsNameToken.not_noise {t : Token} (named : IsNameToken t) : t.isNoise = false := by
  rcases named with rfl | ⟨n, rfl⟩
  · rfl
  · have ordinary : n.text ∉ spellingNoise := fun mem => n.ordinary (by simp [reservedWords, mem])
    simpa [Token.isNoise] using ordinary

theorem ScopedName.text_nil (last : Name) : ScopedName.text ⟨[], last⟩ = last.text := rfl

theorem ScopedName.text_cons (o : Name) (outer : List Name) (last : Name) :
    ScopedName.text ⟨o :: outer, last⟩ = o.text ++ "::" ++ ScopedName.text ⟨outer, last⟩ := by
  cases outer <;> rfl

theorem spellAfter_colons (previous : Token) (ts : List Token) :
    spellAfter (some previous) (.mark .colonColon :: ts) =
      "::" ++ spellAfter (some (.mark .colonColon)) ts := by
  simp [spellAfter, Token.needsSpaceBefore, Token.isWordlike, Token.spelling, Mark.spelling]

theorem spellAfter_word {previous : Option Token} {w : String}
    (apart : previous.any (·.needsSpaceBefore (.word w)) = false) (ts : List Token) :
    spellAfter previous (.word w :: ts) = w ++ spellAfter (some (.word w)) ts := by
  simp [spellAfter, apart, Token.spelling]

theorem spellAfter_tokens (n : ScopedName) (previous : Option Token)
    (apart : ∀ w, previous.any (·.needsSpaceBefore (.word w)) = false) :
    spellAfter previous n.tokens = n.text := by
  obtain ⟨outer, last⟩ := n
  induction outer generalizing previous with
  | nil => simp [ScopedName.tokens, spellAfter_word (apart _), spellAfter, ScopedName.text_nil]
  | cons o outer ih =>
    have inner := ih (some (.mark .colonColon)) (fun _ => rfl)
    simp only [ScopedName.tokens] at inner
    simp [ScopedName.tokens, spellAfter_word (apart _), spellAfter_colons, inner,
      ScopedName.text_cons, String.append_assoc]

theorem spell_tokens (n : ScopedName) : spell n.tokens = n.text := by
  have kept : n.tokens.filter (! ·.isNoise) = n.tokens :=
    List.filter_eq_self.mpr fun t mem => by simp [(n.isNameToken mem).not_noise]
  rw [spell, kept, spellAfter_tokens n none (fun _ => rfl)]

theorem Name.text_ne_empty (n : Name) : n.text ≠ "" := by
  intro empty
  have identifier := n.identifier
  rw [empty] at identifier
  exact absurd identifier (by decide)

theorem ScopedName.text_ne_empty (n : ScopedName) : n.text ≠ "" := by
  obtain ⟨outer, last⟩ := n
  cases outer with
  | nil => exact last.text_ne_empty
  | cons o outer => simp [text_cons, String.append_eq_empty_iff]

end Names

section Attributes

/-- A group without groups of its own kind ends at the first closing mark. -/
theorem findClose_append {«open» close : Mark} (distinct : close ≠ «open») {inner : Tokens}
    (closed : ∀ t ∈ inner, t.token ≠ .eof ∧ t.token ≠ .mark «open» ∧ t.token ≠ .mark close)
    (span : Span) (rest : Tokens) :
    Tokens.findClose «open» close 0 (inner ++ ⟨.mark close, span⟩ :: rest) =
      ⟨.mark close, span⟩ :: rest := by
  induction inner with
  | nil => simp [Tokens.findClose, distinct]
  | cons t inner ih =>
    obtain ⟨⟨notEnd, notOpen, notClose⟩, others⟩ := List.forall_mem_cons.mp closed
    simp [Tokens.findClose, notEnd, notOpen, notClose, ih others]

theorem findClose_inner {inner : Tokens} (closed : ∀ t ∈ inner, isInner t.token = true) (span : Span)
    (rest : Tokens) :
    Tokens.findClose .openParen .closeParen 0 (inner ++ ⟨.mark .closeParen, span⟩ :: rest) =
      ⟨.mark .closeParen, span⟩ :: rest := by
  refine findClose_append (by decide) (fun t mem => ?_) span rest
  have plain := closed t mem
  simp only [isInner, Bool.and_eq_true, bne_iff_ne] at plain
  exact ⟨plain.2, plain.1⟩

def AttributeEnd (rest : Tokens) : Prop :=
  ∃ m span us, rest = ⟨.mark m, span⟩ :: us ∧ (m = .comma ∨ m = .closeBracket)

theorem AttributeEnd.ne_nil (ends : AttributeEnd rest) : rest ≠ [] := by
  obtain ⟨m, span, us, rfl, -⟩ := ends
  simp

theorem AttributeEnd.atMark (ends : AttributeEnd rest) {m : Mark} (comma : m ≠ .comma)
    (bracket : m ≠ .closeBracket) : Tokens.atMark rest m = false := by
  obtain ⟨m, span, us, rfl, rfl | rfl⟩ := ends
  · simpa using Ne.symm comma
  · simpa using Ne.symm bracket

theorem arguments_eq {o : Option Arguments}
    (covers : Covers source (o.map Piece.arguments).toList ts rest) (ends : AttributeEnd rest) :
    Cursor.arguments source ts = (o.map Arguments.text, rest) ∧
      Tokens.atMark ts .colonColon = false := by
  cases o with
  | none =>
    obtain rfl := covers_nil.mp covers
    have noParen := ends.atMark (m := .openParen) (by decide) (by decide)
    exact ⟨by simp [Cursor.arguments, noParen], ends.atMark (by decide) (by decide)⟩
  | some a =>
    obtain ⟨own, us, rfl, read, same⟩ := covers_cons.mp covers
    obtain rfl := covers_nil.mp same
    cases read with
    | @arguments _ inner s₁ s₂ closed text =>
      have found := findClose_inner closed s₂ us
      have past := Tokens.advance_cons (t := ⟨.mark .closeParen, s₂⟩) ends.ne_nil
      simp [Cursor.arguments, Tokens.toClose, Tokens.skipGroup, Tokens.closerOf?, found, past, text]

theorem attribute?_eq {a : AttributeForm} (covers : Covers source a.pieces ts rest)
    (ends : AttributeEnd rest) :
    Cursor.attribute? source none ts = some ({ a.denote with span := ts.here }, rest) := by
  obtain ⟨mid, named, argued⟩ := covers_append.mp covers
  obtain ⟨args, noColons⟩ := arguments_eq argued ends
  have noDots : (Tokens.eat rest .ellipsis).2 = rest := by
    simp [Tokens.eat, ends.atMark (m := .ellipsis) (by decide) (by decide)]
  have parts : a.name.names.reverse = a.name.last.text :: (a.name.outer.map Name.text).reverse := by
    simp [ScopedName.names]
  simp only [Cursor.attribute?, nameParts_eq named noColons, parts, args, noDots]
  simp [AttributeForm.denote]

section Items
variable {c : Cursor} {start : Span} {scope : Option String}

theorem attributeItems_comma {span : Span} (tokens : c.rest = ⟨.mark .comma, span⟩ :: ts) :
    c.attributeItems start scope = (c.goto ts).attributeItems start scope := by
  obtain ⟨source, own, issues⟩ := c
  cases tokens
  rw [Cursor.attributeItems]

theorem attributeItems_word {word : String} {span : Span} {a : Attribute}
    (tokens : c.rest = ⟨.word word, span⟩ :: ts)
    (read : Cursor.attribute? c.source scope c.rest = some (a, rest)) :
    c.attributeItems start scope =
      (a :: ((c.goto rest).attributeItems start scope).1,
        ((c.goto rest).attributeItems start scope).2) := by
  obtain ⟨source, own, issues⟩ := c
  cases tokens
  rw [Cursor.attributeItems]
  simp only []
  split
  · rename_i e
    obtain ⟨rfl, rfl⟩ := Prod.mk.inj (Option.some.inj (e.symm.trans read))
    rfl
  · rename_i e
    simp [read] at e

theorem attributeItems_end {s₁ s₂ : Span}
    (tokens : c.rest = ⟨.mark .closeBracket, s₁⟩ :: ⟨.mark .closeBracket, s₂⟩ :: ts)
    (some : ts ≠ []) : c.attributeItems start scope = ([], c.goto ts) := by
  obtain ⟨source, own, issues⟩ := c
  cases tokens
  rw [Cursor.attributeItems]
  simp [Tokens.atAttributesEnd, Cursor.advance, Cursor.goto, some]

theorem AttributeForm.covers_head {a : AttributeForm} (covers : Covers source a.pieces ts rest) :
    ∃ (first : Name) (span : Span) (us : Tokens), ts = ⟨.word first.text, span⟩ :: us := by
  obtain ⟨mid, named, -⟩ := covers_append.mp covers
  exact ScopedName.covers_head named

theorem unplaced_denote (a : AttributeForm) (span : Span) :
    Attribute.unplaced { a.denote with span } = a.denote := rfl

/-- One attribute of a list is read, and the reader stands behind it. -/
theorem attributeItems_form {a : AttributeForm} {mid : Tokens}
    (covers : Covers c.source a.pieces c.rest mid) (ends : AttributeEnd mid) :
    c.attributeItems start none =
      ({ a.denote with span := c.here } :: ((c.goto mid).attributeItems start none).1,
        ((c.goto mid).attributeItems start none).2) := by
  obtain ⟨first, span, us, tokens⟩ := AttributeForm.covers_head covers
  exact attributeItems_word tokens (attribute?_eq covers ends)

theorem attributeItems_eq {as : List AttributeForm}
    (covers : Covers c.source (separated (as.map AttributeForm.pieces) ++ [Piece.closeList]) c.rest rest)
    (some : rest ≠ []) :
    ∃ read, c.attributeItems start none = (read, c.goto rest) ∧
      read.map Attribute.unplaced = as.map AttributeForm.denote := by
  induction as generalizing c with
  | nil =>
    obtain ⟨s₁, s₂, tokens⟩ := covers_closeList.mp covers
    exact ⟨[], attributeItems_end tokens some, rfl⟩
  | cons a as ih =>
    cases as with
    | nil =>
      obtain ⟨mid, first, closing⟩ := covers_append.mp covers
      obtain ⟨s₁, s₂, rfl⟩ := covers_closeList.mp closing
      refine ⟨[{ a.denote with span := c.here }], ?_, rfl⟩
      rw [attributeItems_form first ⟨_, _, _, rfl, .inr rfl⟩,
        attributeItems_end (c.rest_goto _) some]
      rfl
    | cons b bs =>
      simp only [List.map_cons, separated, List.append_assoc, List.cons_append] at covers
      obtain ⟨mid, first, inner⟩ := covers_append.mp covers
      obtain ⟨span, us, rfl, others⟩ := covers_mark.mp inner
      obtain ⟨read, items, denoted⟩ := ih (c := c.goto us) others
      refine ⟨{ a.denote with span := c.here } :: read, ?_, ?_⟩
      · rw [attributeItems_form first ⟨_, _, _, rfl, .inl rfl⟩, attributeItems_comma (c.rest_goto _),
          Cursor.goto_goto, items, Cursor.goto_goto]
      · rw [List.map_cons, List.map_cons, denoted, unplaced_denote]

theorem attributeList_eq {a : AttributeForm} {as : List AttributeForm} {s₁ s₂ : Span}
    (tokens : c.rest = ⟨.mark .openBracket, s₁⟩ :: ⟨.mark .openBracket, s₂⟩ :: ts)
    (covers : Covers c.source (separated ((a :: as).map AttributeForm.pieces) ++ [.closeList]) ts rest)
    (some : rest ≠ []) :
    ∃ read, c.attributeList = (read, c.goto rest) ∧
      read.map Attribute.unplaced = (a :: as).map AttributeForm.denote := by
  have notUsing : Cursor.usingScope ts = (none, ts) := by
    obtain ⟨mid, listed, -⟩ := covers_append.mp covers
    obtain ⟨more, split⟩ := separated_cons a.pieces (as.map AttributeForm.pieces)
    obtain ⟨_, first, -⟩ := covers_append.mp (split ▸ listed)
    obtain ⟨name, span, us, rfl⟩ := AttributeForm.covers_head first
    simp [Cursor.usingScope, Tokens.atWord, name.ne (w := "using") (by decide)]
  have inside : c.rest.advance.advance = ts := by
    simp [tokens, covers.ne_nil some]
  obtain ⟨read, items, denoted⟩ := attributeItems_eq (c := c.goto ts) covers some
  exact ⟨read, by simpa [Cursor.attributeList, inside, notUsing] using items, denoted⟩

theorem attributeSpecifiers_none (noList : Tokens.atAttributes c.rest = false)
    (noSpecifier : Cursor.atSpecifier c.rest = false) : c.attributeSpecifiers = ([], c) := by
  rw [Cursor.attributeSpecifiers]
  simp [noList, noSpecifier]

theorem attributeSpecifiers_eq {as : List AttributeForm}
    (covers : Covers c.source (attributePieces as) c.rest rest) (some : rest ≠ [])
    (noList : Tokens.atAttributes rest = false) (noSpecifier : Cursor.atSpecifier rest = false) :
    ∃ read, c.attributeSpecifiers = (read, c.goto rest) ∧
      read.map Attribute.unplaced = as.map AttributeForm.denote := by
  cases as with
  | nil =>
    obtain rfl := covers_nil.mp covers
    exact ⟨[], attributeSpecifiers_none noList noSpecifier, rfl⟩
  | cons a as =>
    obtain ⟨s₁, s₂, us, tokens, items⟩ := covers_openList.mp covers
    obtain ⟨read, list, denoted⟩ := attributeList_eq tokens items some
    have here : c.rest.atAttributes = true := by simp [tokens, Tokens.atAttributes]
    have done : (c.goto rest).attributeSpecifiers = ([], c.goto rest) :=
      attributeSpecifiers_none noList noSpecifier
    refine ⟨read, ?_, denoted⟩
    rw [Cursor.attributeSpecifiers, dif_pos here, list]
    simp only [done, List.append_nil]

end Items

end Attributes

section Bases

def BaseEnd (rest : Tokens) : Prop :=
  ∃ m span us, rest = ⟨.mark m, span⟩ :: us ∧ (m = .comma ∨ m = .openBrace)

theorem spellingTokens_append {own : Tokens} (named : ∀ t ∈ own, IsNameToken t.token)
    (ends : BaseEnd rest) :
    Base.spellingTokens 0 (own ++ rest) = some (own.map Placed.token, rest) := by
  induction own with
  | nil =>
    obtain ⟨m, span, us, rfl, rfl | rfl⟩ := ends <;> simp [Base.spellingTokens]
  | cons t own ih =>
    obtain ⟨first, others⟩ := List.forall_mem_cons.mp named
    obtain ⟨token, span⟩ := t
    rcases first with rfl | ⟨n, rfl⟩ <;>
      simp [Base.spellingTokens, Base.spellingTokens.keep, ih others]

theorem Name.ofWord?_visibility (n : Name) : Visibility.ofWord? n.text = none := by
  simp [Visibility.ofWord?, n.ne (w := "public") (by decide), n.ne (w := "protected") (by decide),
    n.ne (w := "private") (by decide)]

theorem ofWord?_name (v : Visibility) : Visibility.ofWord? v.name = some v := by
  cases v <;> rfl

theorem qualifiers_name {n : ScopedName} (covers : Covers source n.pieces ts rest)
    (access : Visibility) : Base.qualifiers access false ts = ((access, false), ts) := by
  obtain ⟨first, span, us, rfl⟩ := ScopedName.covers_head covers
  simp [Base.qualifiers, first.ne (w := "virtual") (by decide), first.ofWord?_visibility]

theorem qualifiers_eq {b : BaseForm} (covers : Covers source b.pieces ts rest) (key : RecordKey) :
    ∃ mid, Base.qualifiers key.defaultVisibility false ts = (((b.denote key).access, false), mid) ∧
      Covers source b.name.pieces mid rest := by
  obtain ⟨access, name⟩ := b
  cases access with
  | none => exact ⟨ts, qualifiers_name covers _, covers⟩
  | some v =>
    obtain ⟨span, us, rfl, named⟩ := covers_word.mp covers
    refine ⟨us, ?_, named⟩
    have plain : v.name ≠ "virtual" := by cases v <;> decide
    simp [Base.qualifiers, plain, ofWord?_name, qualifiers_name named, BaseForm.denote]

theorem readOne_eq {b : BaseForm} (covers : Covers source b.pieces ts rest) (ends : BaseEnd rest)
    (key : RecordKey) : Base.readOne key ts = some ([b.denote key], rest) := by
  obtain ⟨mid, qualified, spelling⟩ := qualifiers_eq covers key
  obtain ⟨own, rfl, spelled⟩ := ScopedName.covers_tokens spelling
  have tokens := spellingTokens_append (ScopedName.forall_isNameToken spelled) ends
  simp [Base.readOne, qualified, tokens, spelled, spell_tokens, b.name.text_ne_empty,
    BaseForm.denote]

theorem readAll_comma {key : RecordKey} {own : List Base} {span : Span}
    (one : Base.readOne key ts = some (own, ⟨.mark .comma, span⟩ :: rest)) :
    Base.readAll key ts = (Base.readAll key rest).map fun (more, last) => (own ++ more, last) := by
  rw [Base.readAll]
  split
  · simp_all
  · rename_i read
    obtain ⟨rfl, tokens⟩ := Prod.mk.inj (Option.some.inj (one.symm.trans read))
    obtain ⟨-, rfl⟩ := List.cons.inj tokens
    rfl
  · rename_i other read
    obtain ⟨rfl, rfl⟩ := Prod.mk.inj (Option.some.inj (one.symm.trans read))
    exact absurd rfl (other _ _)

theorem readAll_last {key : RecordKey} {own : List Base} {span : Span}
    (one : Base.readOne key ts = some (own, ⟨.mark .openBrace, span⟩ :: rest)) :
    Base.readAll key ts = some (own, ⟨.mark .openBrace, span⟩ :: rest) := by
  rw [Base.readAll]
  split
  · simp_all
  · simp_all
  · rename_i read
    obtain ⟨rfl, rfl⟩ := Prod.mk.inj (Option.some.inj (one.symm.trans read))
    simp

theorem readAll_eq {b : BaseForm} {bs : List BaseForm} {span : Span}
    (covers : Covers source (separated ((b :: bs).map BaseForm.pieces)) ts
      (⟨.mark .openBrace, span⟩ :: rest)) (key : RecordKey) :
    Base.readAll key ts =
      some ((b :: bs).map (BaseForm.denote key), ⟨.mark .openBrace, span⟩ :: rest) := by
  induction bs generalizing b ts with
  | nil => exact readAll_last (readOne_eq covers ⟨_, _, _, rfl, .inr rfl⟩ key)
  | cons b' bs ih =>
    obtain ⟨mid, first, inner⟩ := covers_append.mp covers
    obtain ⟨s, us, rfl, others⟩ := covers_mark.mp inner
    rw [readAll_comma (readOne_eq first ⟨_, _, _, rfl, .inl rfl⟩ key), ih others]
    rfl

end Bases

end Grammar

end HeaderMeta
