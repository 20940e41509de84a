import HeaderMeta.Proofs.Comments
import HeaderMeta.Proofs.Comments.Lines
import HeaderMeta.Proofs.Decorators

/-! Record heads with all that may stand in them.

Macros, attribute lists and alignments stand between the key and the name, in any order (`Decor`). There
may be blanks and comments between the pieces (`Laid`), and without the comments there are blanks only
(`Laid.strips`). A record that is read at such a place has the attributes of its lists, in their order
(`Heading.Stands.definition`).
-/

set_option autoImplicit false

namespace HeaderMeta

theorem Lexing.Adds.silent {p : Position} {c : Char} {cs after : List Char} (kind : LexemeKind)
    (taken : Lexeme.extent c (cs ++ after) = (kind, cs.length)) (noToken : tokenOf ⟨kind, c :: cs⟩ = none)
    (noFault : faultOf ⟨kind, c :: cs⟩ = none) (noInclude : ∀ s, includeOf ⟨kind, c :: cs⟩ s = none) :
    Adds p (c :: cs) after [] := by
  unfold Adds
  rw [List.cons_append, Lexeme.cut, taken]
  simp [place, noToken, noFault, noInclude]

namespace Grammar
open Lexeme (Ends isSpace extent commentBody)
open Lexing (Adds)
open Text (stripFrom inert)

inductive Decor where
  | macroName (word : String) (identifier : isIdentifier word = true)
      (shape : Cursor.isMacroName word = true)
  | list (first : AttributeForm) (more : List AttributeForm)
  | alignment (a : Arguments)

def Decor.pieces : Decor → List Piece
  | macroName word identifier _ => [.word word identifier]
  | list first more => attributePieces (first :: more)
  | alignment a => [.word "alignas" (by decide), .arguments a]

def Decor.attributes : Decor → List AttributeForm
  | list first more => first :: more
  | _ => []

/-- A record up to its body. Before `final` a name of capitals would be taken for a macro. -/
structure Heading where
  key : RecordKey
  decors : List Decor := []
  name : Name
  isFinal : Bool := false
  bases : List BaseForm := []
  named : isFinal = true → Cursor.isMacroName name.text = false

namespace Heading

def finalPieces (isFinal : Bool) : List Piece :=
  if isFinal then [.word "final" (by decide)] else []

def pieces (h : Heading) : List Piece :=
  keyPiece h.key :: (h.decors.flatMap Decor.pieces ++
    h.name.piece :: (finalPieces h.isFinal ++ basePieces h.bases))

def attributes (h : Heading) : List AttributeForm :=
  h.decors.flatMap Decor.attributes

end Heading

section Gaps
variable {gap after : List Char}

inductive Gap : List Char → Prop where
  | blank {bs : List Char} (blank : bs.all isSpace = true) (some : bs ≠ []) : Gap bs
  | lineComment {bs body gap : List Char} (blank : bs.all isSpace = true) (some : bs ≠ [])
      (one : '\n' ∉ body) (behind : Gap ('\n' :: gap)) : Gap (bs ++ '/' :: '/' :: (body ++ '\n' :: gap))
  | blockComment {bs body gap : List Char} (blank : bs.all isSpace = true) (some : bs ≠ [])
      (first : ¬ ['*', '/'] <:+: body) (behind : Gap gap) :
      Gap (bs ++ '/' :: '*' :: (body ++ '*' :: '/' :: gap))

theorem Gap.ends (spaced : Gap gap) (after : List Char) : Ends (gap ++ after) := by
  cases spaced with
  | blank blank some => exact Lexeme.ends_of_blank blank some
  | lineComment blank some | blockComment blank some =>
    rw [List.append_assoc]
    exact Lexeme.ends_of_blank blank some

theorem inert_blank {bs : List Char} (blank : bs.all isSpace = true) (p : Char) : inert p bs = true :=
  Lexeme.inert_of_forall fun c mem => Lexeme.quiet_of_isSpace (List.all_eq_true.mp blank c mem)

theorem Gap.strips (spaced : Gap gap) (p : Char) (rest : List Char) :
    ∃ blanks q, stripFrom .code p (gap ++ rest) = blanks ++ stripFrom .code q rest ∧
      blanks.all isSpace = true ∧ blanks ≠ [] := by
  induction spaced generalizing p with
  | blank blank some => exact ⟨_, _, Text.stripFrom_inert rest (inert_blank blank p), blank, some⟩
  | @lineComment bs body gap blank some one behind ih =>
    obtain ⟨blanks, q, stripped, blankBehind, -⟩ := ih '/'
    refine ⟨bs ++ blanks, q, ?_, by simp [blank, blankBehind], by simp [some]⟩
    rw [List.append_assoc, Text.stripFrom_inert _ (inert_blank blank p), List.cons_append,
      List.cons_append, Text.stripFrom_code_line, List.append_assoc,
      Text.stripFrom_lineBody one (by simp [Text.AtLine]) '/' '/', stripped, List.append_assoc]
  | @blockComment bs body gap blank some first behind ih =>
    obtain ⟨blanks, q, stripped, blankBehind, -⟩ := ih '*'
    have feeds : (body.filter (· == '\n')).all isSpace = true := by
      rw [List.all_eq_true]
      intro c mem
      obtain rfl : c = '\n' := by simpa using (List.mem_filter.mp mem).2
      rfl
    refine ⟨bs ++ ' ' :: (body.filter (· == '\n') ++ blanks), q, ?_, ?_, by simp [some]⟩
    · rw [List.append_assoc, Text.stripFrom_inert _ (inert_blank blank p), List.cons_append,
        List.cons_append, Text.stripFrom_code_block, List.append_assoc]
      simp only [List.cons_append]
      rw [(Text.stripFrom_blockBody first '/').2, stripped]
      simp
    · simpa [blank, blankBehind, isSpace] using feeds

theorem commentBody_append {body : List Char} (first : ¬ ['*', '/'] <:+: body) (rest : List Char) :
    commentBody (body ++ '*' :: '/' :: rest) = (body.length + 2, true) := by
  induction body with
  | nil => rfl
  | cons c body ih =>
    rw [List.infix_cons_iff, not_or] at first
    have notEnd (ds : List Char) (star : c = '*') (slash : body ++ '*' :: '/' :: rest = '/' :: ds) :
        False := by
      cases body with
      | nil => simp at slash
      | cons d body => exact first.1 ⟨body, by rw [star, (List.cons.inj slash).1]; rfl⟩
    rw [List.cons_append, commentBody]
    · simp [ih first.2]
    · exact fun ds star slash => notEnd ds star slash

theorem Gap.adds (spaced : Gap gap) (p : Position) (after : List Char) : Adds p gap after [] := by
  induction spaced generalizing p with
  | blank blank some => exact .blank blank
  | @lineComment bs body gap blank some one behind ih =>
    have comment : Adds (p.after bs) ('/' :: '/' :: body) ('\n' :: gap ++ after) [] := by
      refine .silent .lineComment ?_ rfl rfl fun _ => rfl
      have feeds : Lexeme.lengthWhile (· != '\n') (body ++ ('\n' :: gap ++ after)) = body.length :=
        Lexeme.lengthWhile_append (List.all_eq_true.mpr fun c mem => by
          simpa using fun same : c = '\n' => one (same ▸ mem)) (by simp)
      simp [extent, isSpace] at feeds ⊢
      exact feeds
    have commented := comment.append (ih _)
    exact Adds.append (Adds.blank blank) (by simpa using commented)
  | @blockComment bs body gap blank some first behind ih =>
    have comment : Adds (p.after bs) ('/' :: '*' :: (body ++ ['*', '/'])) (gap ++ after) [] := by
      refine .silent (.blockComment true) ?_ rfl rfl fun _ => rfl
      have closed := commentBody_append first (gap ++ after)
      simp [extent, isSpace] at closed ⊢
      simp [closed]
    have commented := comment.append (ih _)
    exact Adds.append (Adds.blank blank) (by simpa using commented)

end Gaps

section Pieces
variable {c p : Char} {ps qs : List Piece} {text left : List Char}

theorem Arguments.mem_inner {a : Arguments} (mem : c ∈ a.inner) :
    isSpace c = true ∨ c.isDigit = true ∨ c = '-' ∨ c = ',' := by
  have digits (n : Nat) (own : c ∈ (toString n).toList) : c.isDigit = true := by
    obtain ⟨d, ds, spelled, first, others⟩ := Lexeme.toString_digits n
    rw [spelled] at own
    rcases List.mem_cons.mp own with rfl | own
    · exact first
    · exact List.all_eq_true.mp others c own
  have words (w : List Char) (word : w ∈ a.words) (own : c ∈ w) : c.isDigit = true ∨ c = '-' ∨ c = ',' := by
    rcases mem_words word with rfl | ⟨n, rfl⟩
    · exact .inr (.inr (List.mem_singleton.mp own))
    · cases n with
      | ofNat k => exact .inl (digits k own)
      | negSucc k =>
        rw [toString_negSucc] at own
        rcases List.mem_cons.mp own with rfl | own
        · exact .inr (.inl rfl)
        · exact .inl (digits (k + 1) own)
  -- a layout puts blanks between the words
  have laid (gap : Nat → List Char) (blank : ∀ i, (gap i).all isSpace = true) (ws : List (List Char))
      (among : ∀ w ∈ ws, w ∈ a.words) (own : c ∈ interlace gap ws) :
      isSpace c = true ∨ c.isDigit = true ∨ c = '-' ∨ c = ',' := by
    induction ws generalizing gap with
    | nil => cases own
    | cons w ws ih =>
      obtain ⟨here, others⟩ := List.forall_mem_cons.mp among
      cases ws with
      | nil => exact .inr (words w here own)
      | cons v ws =>
        rw [interlace, List.mem_append, List.mem_append] at own
        rcases own with (own | own) | own
        · exact .inr (words w here own)
        · exact .inl (List.all_eq_true.mp (blank 0) c own)
        · exact ih _ (fun i => blank (i + 1)) others own
  rw [Arguments.inner, Layout.render, List.mem_append, List.mem_append] at mem
  rcases mem with (own | own) | own
  · exact .inl (List.all_eq_true.mp a.layout.lead_blank c own)
  · exact laid _ a.layout.gap_blank _ (fun _ same => same) own
  · exact .inl (List.all_eq_true.mp a.layout.trail_blank c own)

theorem Piece.inert (piece : Piece) : Text.inert p piece.text = true := by
  refine Lexeme.inert_of_forall fun c mem => ?_
  cases piece with
  | word text identifier =>
    exact Lexeme.quiet_of_isWordPart (Lexeme.isWordPart_of_isIdentifier identifier c mem)
  | mark m =>
    have plain : m.spelling.toList.all (fun c => c != '/' && c != '"' && c != '\'') = true := by
      cases m <;> decide
    simpa [and_assoc] using List.all_eq_true.mp plain c mem
  | number n =>
    obtain ⟨d, ds, spelled, first, others⟩ := Lexeme.toString_digits n
    have digit : c.isDigit = true := by
      rw [text, spelled] at mem
      rcases List.mem_cons.mp mem with rfl | mem
      · exact first
      · exact List.all_eq_true.mp others c mem
    exact Lexeme.quiet_of_isWordPart (by simp [Lexeme.isWordPart, Char.isAlphanum, digit])
  | openList | closeList => simp_all [text]
  | arguments a =>
    simp only [text, List.mem_cons, List.mem_append, List.not_mem_nil, or_false, List.cons_append] at mem
    rcases mem with rfl | inner | rfl
    · simp
    · rcases Arguments.mem_inner inner with blank | digit | rfl | rfl
      · exact Lexeme.quiet_of_isSpace blank
      · exact Lexeme.quiet_of_isWordPart (by simp [Lexeme.isWordPart, Char.isAlphanum, digit])
      · simp
      · simp
    · simp

theorem Piece.text_ne_nil (piece : Piece) : piece.text ≠ [] := by
  cases piece with
  | word text identifier =>
    intro none
    have none : text.toList = [] := none
    simp [isIdentifier, none] at identifier
  | mark m => cases m <;> simp [text, Mark.spelling]
  | number | openList | closeList | arguments => simp [text]

/-- Whether a character may stand directly behind a piece. An attribute list is set off from a macro. -/
def Piece.touches : Piece → Char → Bool
  | word text identifier, c =>
    (word text identifier).stopsAt c && !(c == '[' && Cursor.isMacroName text)
  | piece, c => piece.stopsAt c

theorem Piece.stopsAt_of_touches {piece : Piece} (touch : piece.touches c = true) :
    piece.stopsAt c = true := by
  cases piece with
  | word => exact (Bool.and_eq_true_iff.mp touch).1
  | _ => exact touch

theorem Piece.touches_of_isSpace (piece : Piece) (blank : isSpace c = true) :
    piece.touches c = true := by
  have ends : Ends [c] := fun d first => .inl (by simp_all)
  have stops := piece.stopsAt_of_ends ends c rfl
  have noList : c ≠ '[' := by
    rintro rfl
    simp [isSpace] at blank
  cases piece with
  | word => simp [touches, stops, noList]
  | _ => exact stops

/-- Pieces with gaps between them, before the character `next`. Where a piece ends without it, there may be
no gap behind it. -/
inductive Laid (next : Option Char) : List Piece → List Char → Prop where
  | nil : Laid next [] []
  | spaced {piece : Piece} {ps : List Piece} {gap text : List Char} (space : Gap gap)
      (more : Laid next ps text) : Laid next (piece :: ps) (piece.text ++ (gap ++ text))
  | tight {piece : Piece} {ps : List Piece} {text : List Char}
      (touch : ∀ c ∈ text.head?.or next, piece.touches c = true) (more : Laid next ps text) :
      Laid next (piece :: ps) (piece.text ++ text)

inductive Left (next : Option Char) : List Piece → List Char → Prop where
  | nil : Left next [] []
  | cons {piece : Piece} {ps : List Piece} {blanks text : List Char} (blank : blanks.all isSpace = true)
      (touch : ∀ c ∈ (blanks ++ text).head?.or next, piece.touches c = true) (more : Left next ps text) :
      Left next (piece :: ps) (piece.text ++ (blanks ++ text))

theorem Laid.split {next : Option Char} {piece : Piece} (laid : Laid next (piece :: ps) text) :
    ∃ more, text = piece.text ++ more := by
  cases laid with
  | spaced | tight => exact ⟨_, rfl⟩

theorem Laid.joined {next : Option Char} {piece after : Piece}
    (touch : after.text.head?.all piece.touches = true) (more : Laid next (after :: ps) text) :
    Laid next (piece :: after :: ps) (piece.text ++ text) := by
  refine .tight (fun c first => (Option.all_eq_true _ _).mp touch c ?_) more
  obtain ⟨behind, rfl⟩ := more.split
  rwa [List.head?_append_of_ne_nil _ after.text_ne_nil,
    Option.or_of_isSome (by simp [after.text_ne_nil])] at first

/-- The tokens of a text that is laid out are those of its pieces. -/
theorem Laid.adds {back : List Char} (laid : Laid back.head? ps text) {source : Source}
    {front : List Char} (whole : source.text.toList = front ++ (text ++ back)) :
    ∃ ts, Adds (Position.start.after front) text back ts ∧
      ∀ rest, Covers source ps (ts ++ rest) rest := by
  induction laid generalizing front with
  | nil => exact ⟨[], .nil, fun rest => .nil⟩
  | @spaced piece ps gap text space more ih =>
    simp only [List.append_assoc] at whole
    obtain ⟨ts, added, read⟩ := piece.adds whole (piece.stopsAt_of_ends (space.ends _))
    have later : source.text.toList = (front ++ piece.text ++ gap) ++ (text ++ back) := by simpa using whole
    obtain ⟨us, others, covers⟩ := ih later
    have gapped := (space.adds ((Position.start.after front).after piece.text) (text ++ back)).append
      (by simpa using others)
    refine ⟨ts ++ us, ?_, fun rest => by simpa using Covers.cons read (covers rest)⟩
    exact Adds.append (by simpa using added) (by simpa using gapped)
  | @tight piece ps text touch more ih =>
    rw [List.append_assoc] at whole
    obtain ⟨ts, added, read⟩ := piece.adds whole fun c first =>
      Piece.stopsAt_of_touches (touch c (by rwa [List.head?_append] at first))
    have later : source.text.toList = (front ++ piece.text) ++ (text ++ back) := by simpa using whole
    obtain ⟨us, others, covers⟩ := ih later
    refine ⟨ts ++ us, ?_, fun rest => by simpa using Covers.cons read (covers rest)⟩
    exact added.append (by simpa using others)

/-- Without the comments there are blanks between the pieces. -/
theorem Laid.strips {next : Option Char} (laid : Laid next ps text) (p : Char) (rest : List Char) :
    ∃ left q, stripFrom .code p (text ++ rest) = left ++ stripFrom .code q rest ∧
      Left next ps left ∧ left.head? = text.head? := by
  have start (piece : Piece) (behind : List Char) : (piece.text ++ behind).head? = piece.text.head? :=
    List.head?_append_of_ne_nil _ piece.text_ne_nil
  induction laid generalizing p with
  | nil => exact ⟨[], p, rfl, .nil, rfl⟩
  | @spaced piece ps gap text space more ih =>
    obtain ⟨blanks, q, gone, blank, some⟩ := space.strips (piece.text.getLastD p) (text ++ rest)
    obtain ⟨left, r, stripped, laid, -⟩ := ih q
    refine ⟨piece.text ++ (blanks ++ left), r, ?_, .cons blank (fun c first => ?_) laid, ?_⟩
    · rw [List.append_assoc, Text.stripFrom_inert _ piece.inert, List.append_assoc, gone, stripped]
      simp
    · obtain ⟨b, bs, rfl⟩ := List.exists_cons_of_ne_nil some
      obtain rfl : b = c := by simpa using first
      exact piece.touches_of_isSpace (Bool.and_eq_true_iff.mp blank).1
    · rw [start, start]
  | @tight piece ps text touch more ih =>
    obtain ⟨left, q, stripped, laid, first⟩ := ih (piece.text.getLastD p)
    refine ⟨piece.text ++ ([] ++ left), q, ?_, .cons rfl (by simpa [first] using touch) laid, ?_⟩
    · simp only [List.nil_append, List.append_assoc]
      rw [Text.stripFrom_inert _ piece.inert, stripped]
    · rw [start, start]

theorem Left.of_nil {next : Option Char} (left : Left next [] text) : text = [] := by
  cases left
  rfl

theorem Left.of_cons {next : Option Char} {piece : Piece} (left : Left next (piece :: ps) text) :
    ∃ blanks more, text = piece.text ++ (blanks ++ more) ∧ blanks.all isSpace = true ∧
      (∀ c ∈ (blanks ++ more).head?.or next, piece.touches c = true) ∧ Left next ps more := by
  cases left with
  | cons blank touch more => exact ⟨_, _, rfl, blank, touch, more⟩

theorem Left.of_append {next : Option Char} (left : Left next (ps ++ qs) text) :
    ∃ front back, text = front ++ back ∧ Left (back.head?.or next) ps front ∧ Left next qs back := by
  induction ps generalizing text with
  | nil => exact ⟨[], text, rfl, .nil, left⟩
  | cons piece ps ih =>
    obtain ⟨blanks, _, rfl, blank, touch, more⟩ := left.of_cons
    obtain ⟨front, back, rfl, here, behind⟩ := ih more
    refine ⟨piece.text ++ (blanks ++ front), back, by simp, .cons blank ?_ here, behind⟩
    rwa [← List.append_assoc, List.head?_append, Option.or_assoc] at touch

end Pieces

section Reading
open Cursor (isMacroName atDecorator atSpecifier)
variable {source : Source} {ds : List Decor} {h : Heading} {c : Cursor} {ts rest : Tokens} {s : Span}

/-- Before a word stand words and attribute lists only. -/
theorem covers_decors_head {word : String}
    (covers : Covers source (ds.flatMap Decor.pieces) ts (⟨.word word, s⟩ :: rest)) :
    (∃ own s us, ts = ⟨.word own, s⟩ :: us) ∨ ts.atAttributes = true := by
  cases ds with
  | nil => exact .inl ⟨word, s, rest, covers_nil.mp covers⟩
  | cons d ds =>
    cases d with
    | macroName own identifier shape =>
      obtain ⟨s, us, rfl, -⟩ := covers_word.mp covers
      exact .inl ⟨own, s, us, rfl⟩
    | list first more =>
      obtain ⟨s₁, s₂, us, rfl, -⟩ := covers_openList.mp covers
      exact .inr (by simp [Tokens.atAttributes])
    | alignment a =>
      obtain ⟨s, us, rfl, -⟩ := covers_word.mp covers
      exact .inl ⟨_, s, us, rfl⟩

/-- A word of capitals before a word or an attribute list is a macro without arguments. -/
theorem atDecorator_macro {word : String} (shape : isMacroName word = true) (some : ts ≠ [])
    (next : (∃ own s us, ts = ⟨.word own, s⟩ :: us) ∨ ts.atAttributes = true) (s : Span) :
    atDecorator (⟨.word word, s⟩ :: ts) = true ∧ Cursor.skipMacro (⟨.word word, s⟩ :: ts) = ts := by
  rcases next with ⟨own, s', us, rfl⟩ | list
  · simp [atDecorator, Cursor.skipMacro, Tokens.word?, Token.word?, shape]
  · simp only [Tokens.atAttributes, Bool.and_eq_true, Tokens.atMark, beq_iff_eq] at list
    have first : ts.peekAt 0 = .mark .openBracket := list.1
    simp [atDecorator, Cursor.skipMacro, Tokens.word?, Token.word?, shape, Tokens.advance_cons some,
      Tokens.atMark, Tokens.peek, first, list.2]

theorem capital_of_isMacroName {word : String} (shape : isMacroName word = true) :
    ∀ c ∈ word.toList, (c.isUpper || c.isDigit || c == '_') = true := by
  rw [isMacroName, Bool.and_eq_true, String.all_bool_eq] at shape
  exact List.all_eq_true.mp shape.2

theorem not_specifier_of_isMacroName {word : String} (shape : isMacroName word = true) :
    word ∉ Cursor.specifierWords := by
  have small : ∀ w ∈ Cursor.specifierWords, 'a' ∈ w.toList ∨ 'd' ∈ w.toList := by decide
  intro mem
  rcases small word mem with inside | inside <;>
    exact absurd (capital_of_isMacroName shape _ inside) (by decide)

theorem attributeSpecifiers_macro {word : String} (shape : isMacroName word = true)
    (tokens : c.rest = ⟨.word word, s⟩ :: ts) : c.attributeSpecifiers = ([], c) := by
  refine attributeSpecifiers_none (by simp [tokens, Tokens.atAttributes]) ?_
  simp [tokens, atSpecifier, Tokens.word?, Token.word?, not_specifier_of_isMacroName shape]

theorem attributeSpecifiers_alignment {a : Arguments}
    (covers : Covers c.source (Decor.alignment a).pieces c.rest ts) (some : ts ≠ []) :
    c.attributeSpecifiers = (c.goto ts).attributeSpecifiers := by
  obtain ⟨s, us, tokens, grouped⟩ := covers_word.mp covers
  obtain ⟨group, vs, rfl, spelled, same⟩ := covers_cons.mp grouped
  obtain rfl := covers_nil.mp same
  cases spelled with
  | @arguments _ inner s₁ s₂ closed text =>
    have found := findClose_inner closed s₂ vs
    have past := Tokens.advance_cons (t := ⟨.mark .closeParen, s₂⟩) some
    have here : atSpecifier c.rest = true := by
      simp [tokens, atSpecifier, Tokens.word?, Token.word?, Cursor.specifierWords]
    rw [Cursor.attributeSpecifiers, dif_neg (by simp [tokens, Tokens.atAttributes]), dif_pos here]
    simp [tokens, Tokens.skipGroup, Tokens.closerOf?, found, past]

/-- What stands between the key and the name is read in whatever order it stands, and the attributes are
those of the lists. -/
theorem decors_eq {word : String} (noSpecifier : atSpecifier (⟨.word word, s⟩ :: rest) = false)
    (noMacro : atDecorator (⟨.word word, s⟩ :: rest) = false)
    (covers : Covers c.source (ds.flatMap Decor.pieces) c.rest (⟨.word word, s⟩ :: rest)) :
    ∃ read, c.attributeSpecifiers.1 ++ c.attributeSpecifiers.2.decorators.1 = read ∧
      c.attributeSpecifiers.2.decorators.2 = c.goto (⟨.word word, s⟩ :: rest) ∧
      read.map Attribute.unplaced = (ds.flatMap Decor.attributes).map AttributeForm.denote := by
  induction ds generalizing c with
  | nil =>
    have here := covers_nil.mp covers
    have specifiers : c.attributeSpecifiers = ([], c) :=
      attributeSpecifiers_none (by simp [here, Tokens.atAttributes]) (here ▸ noSpecifier)
    have done := decorators_none (c := c) (here ▸ noMacro)
    exact ⟨[], by simp [specifiers, done], by simp [specifiers, done, ← here], rfl⟩
  | cons d ds ih =>
    rw [List.flatMap_cons] at covers
    obtain ⟨mid, own, others⟩ := covers_append.mp covers
    obtain ⟨read, joined, left, denoted⟩ := ih (c := c.goto mid) others
    have some : mid ≠ [] := others.ne_nil (by simp)
    cases d with
    | macroName macroWord identifier shape =>
      obtain ⟨s', us, tokens, same⟩ := covers_word.mp own
      obtain rfl := covers_nil.mp same
      obtain ⟨atMacro, passed⟩ := atDecorator_macro shape some (covers_decors_head others) s'
      rw [← tokens] at atMacro passed
      have specifiers := attributeSpecifiers_macro shape tokens
      -- the reader of the macros begins the specifiers anew behind each of them
      refine ⟨read, ?_, ?_, denoted⟩ <;>
        rw [specifiers, Cursor.decorators, dif_pos atMacro, passed] <;> simpa using ‹_›
    | list first more =>
      obtain ⟨s₁, s₂, us, tokens, items⟩ := covers_openList.mp own
      obtain ⟨listed, list, forms⟩ := attributeList_eq tokens items some
      have here : c.rest.atAttributes = true := by simp [tokens, Tokens.atAttributes]
      have specifiers : c.attributeSpecifiers = (listed ++ (c.goto mid).attributeSpecifiers.1,
          (c.goto mid).attributeSpecifiers.2) := by
        rw [Cursor.attributeSpecifiers, dif_pos here, list]
      refine ⟨listed ++ read, by rw [specifiers, List.append_assoc, joined], by rw [specifiers]; exact left,
        ?_⟩
      rw [List.map_append, forms, denoted, List.flatMap_cons, List.map_append]
      rfl
    | alignment a =>
      have specifiers := attributeSpecifiers_alignment own some
      exact ⟨read, by rw [specifiers, joined], by rw [specifiers]; exact left, denoted⟩

/-- The head of a record up to its bases or its body. -/
theorem recordHead_heading {m : Mark}
    (covers : Covers c.source (h.decors.flatMap Decor.pieces ++
      h.name.piece :: Heading.finalPieces h.isFinal) c.rest (⟨.mark m, s⟩ :: rest))
    (either : m = .colon ∨ m = .openBrace) (isTemplate : Bool) :
    ∃ attributes span, c.recordHead isTemplate =
        (⟨h.name.text, attributes, isTemplate, span⟩, c.goto (⟨.mark m, s⟩ :: rest)) ∧
      attributes.map Attribute.unplaced = h.attributes.map AttributeForm.denote := by
  obtain ⟨mid, decorated, named⟩ := covers_append.mp covers
  obtain ⟨s₁, us, rfl, ending⟩ := covers_word.mp named
  -- behind the name stands `final` or what follows the head, neither of which makes a macro of it
  have behind : us = ⟨.mark m, s⟩ :: rest ∧ h.isFinal = false ∨
      ∃ s₂, us = ⟨.word "final", s₂⟩ :: ⟨.mark m, s⟩ :: rest ∧ h.isFinal = true := by
    cases final : h.isFinal with
    | false => exact .inl ⟨covers_nil.mp (by simpa [final, Heading.finalPieces] using ending), rfl⟩
    | true =>
      obtain ⟨s₂, vs, rfl, same⟩ := covers_word.mp (by simpa [final, Heading.finalPieces] using ending)
      exact .inr ⟨s₂, by rw [covers_nil.mp same], rfl⟩
  have noMacro : atDecorator (⟨.word h.name.text, s₁⟩ :: us) = false := by
    rcases behind with ⟨rfl, -⟩ | ⟨s₂, rfl, final⟩
    · exact not_atDecorator either
    · rw [Cursor.atDecorator_word, h.named final]
  obtain ⟨read, joined, left, denoted⟩ := decors_eq (h.name.not_atSpecifier s₁ us) noMacro decorated
  have parts : Tokens.qualifiedName (⟨.word h.name.text, s₁⟩ :: us) = ([h.name.text], us) := by
    refine Cursor.qualifiedName_word (h.name.ne (by decide)) ?_
    rcases behind with ⟨rfl, -⟩ | ⟨s₂, rfl, -⟩
    · rcases either with rfl | rfl <;> simp
    · simp
  refine ⟨read, s₁, ?_, denoted⟩
  rw [Cursor.recordHead]
  rcases behind with ⟨rfl, -⟩ | ⟨s₂, rfl, -⟩ <;> rcases either with rfl | rfl <;>
    simp [left, joined, parts, Tokens.atWord, Cursor.here]

/-- Behind a heading the body is read, of a record with the name and the attributes of the heading. -/
theorem record_heading
    (covers : Covers c.source h.pieces c.rest (⟨.mark .openBrace, s⟩ :: rest)) (body : BodyReader)
    (namespaces enclosing : List String) (isTemplate : Bool) :
    ∃ decl start, c.record body namespaces enclosing isTemplate =
        Cursor.recordBody body start decl (c.goto (⟨.mark .openBrace, s⟩ :: rest)) ∧
      decl.name = h.name.text ∧ decl.key = h.key ∧
      decl.attributes.map Attribute.unplaced = h.attributes.map AttributeForm.denote := by
  obtain ⟨s₁, us, tokens, inner⟩ := covers_word.mp covers
  have keyed : c.rest.word?.bind RecordKey.ofWord? = some h.key := by
    rw [tokens]
    exact ofWord?_word h.key
  have entered : c.advance = c.goto us := by simp [Cursor.advance, tokens, inner.ne_nil]
  cases based : h.bases with
  | nil =>
    obtain ⟨read, span, head, denoted⟩ := recordHead_heading (c := c.goto us) (h := h)
      (by simpa [based, basePieces] using inner) (.inr rfl) isTemplate
    refine ⟨{ name := h.name.text, namespaces, enclosing, key := h.key, path := c.source.path
              attributes := read, isTemplate, span }, c.here, ?_, rfl, rfl, denoted⟩
    simp [Cursor.record, keyed, entered, head, Cursor.peek, h.name.text_ne_empty]
  | cons b bs =>
    -- the clause of the bases is cut off the head
    have split : Covers c.source ((h.decors.flatMap Decor.pieces ++
        h.name.piece :: Heading.finalPieces h.isFinal) ++
          .mark .colon :: separated ((b :: bs).map BaseForm.pieces)) us
            (⟨.mark .openBrace, s⟩ :: rest) := by
      simpa [based, basePieces] using inner
    obtain ⟨mid, headed, clause⟩ := covers_append.mp split
    obtain ⟨s₂, vs, rfl, listed⟩ := covers_mark.mp clause
    obtain ⟨read, span, head, denoted⟩ :=
      recordHead_heading (c := c.goto us) headed (.inl rfl) isTemplate
    have all := readAll_eq listed h.key
    have past : Tokens.advance (⟨.mark .colon, s₂⟩ :: vs) = vs :=
      Tokens.advance_cons (listed.ne_nil (by simp))
    refine ⟨{ name := h.name.text, namespaces, enclosing, key := h.key, path := c.source.path
              attributes := read, isTemplate, span, bases := (b :: bs).map (BaseForm.denote h.key) },
      c.here, ?_, rfl, rfl, denoted⟩
    simp [Cursor.record, keyed, entered, head, Cursor.peek, past, all, h.name.text_ne_empty]

end Reading

section Standing
variable {h : Heading} {c : Cursor}

/-- A place in a file where a heading stands before a brace, in code and at the start of a word. -/
structure Heading.Stands (h : Heading) (c : Cursor) where
  front : List Char
  text : List Char
  rest : List Char
  whole : c.source.text.toList = front ++ (text ++ '{' :: rest)
  laid : Laid (some '{') h.pieces text
  tokens : c.rest = (Lexing.place (Position.start.after front) (Lexeme.cut (text ++ '{' :: rest))).tokens
  code : Text.leaveFrom .code '\x00' front = .code
  apart : ∀ d ∈ (stripFrom .code '\x00' front).getLast?, Text.isWordChar d = false

theorem Heading.Stands.covers (stands : h.Stands c) :
    ∃ s us, Covers c.source h.pieces c.rest (⟨.mark .openBrace, s⟩ :: us) ∧ Tokens.Closed us := by
  have laid : Laid ('{' :: stands.rest).head? h.pieces stands.text := stands.laid
  obtain ⟨ts, added, covers⟩ := laid.adds stands.whole
  have brace : Adds ((Position.start.after stands.front).after stands.text) ['{'] stands.rest _ :=
    Adds.bracket (m := .openBrace) (by simp)
  have placed := Adds.append (by simpa using added) brace
  have tokens := stands.tokens
  unfold Adds at placed
  rw [List.append_assoc, List.singleton_append] at placed
  rw [placed] at tokens
  simp only [List.append_assoc, List.singleton_append] at tokens
  exact ⟨_, _, tokens ▸ covers _, closed_place _ _⟩

theorem Heading.Stands.definition (stands : h.Stands c) {room : Nat} {namespaces enclosing : List String}
    {isTemplate : Bool} {outcome : RecordOutcome}
    (read : (c.record (typeBody room) namespaces enclosing isTemplate).1 = .ok outcome) :
    ∃ decl, outcome = .definition decl ∧ decl.key = h.key ∧ decl.name = h.name.text ∧
      decl.attributes.map Attribute.unplaced = h.attributes.map AttributeForm.denote := by
  obtain ⟨s, us, covers, closed⟩ := stands.covers
  obtain ⟨head, start, record, name, key, attributes⟩ :=
    record_heading covers (typeBody room) namespaces enclosing isTemplate
  rw [record] at read
  obtain ⟨decl, rfl⟩ := Cursor.definition_of_recordBody read
  have ends : Tokens.Closed (⟨.mark .openBrace, s⟩ :: us) := by
    obtain ⟨last, final, atEnd⟩ := closed
    exact ⟨last, by rw [List.getLast?_cons, final]; rfl, atEnd⟩
  let origin := c.goto (⟨.mark .openBrace, s⟩ :: us)
  have adds : BodyReader.Adds (fun _ => True) origin (typeBody room) :=
    adds_typeBody (fun _ _ => .inl fun _ _ => trivial) ends room
  obtain ⟨sameKey, sameName, sameAttributes⟩ :=
    (Cursor.extends_recordBody adds (.refl _) (Prod.ext read rfl)).head
  exact ⟨decl, rfl, sameKey.trans key, sameName.trans name, by rw [sameAttributes, attributes]⟩

/-- Without the comments of the file the heading still stands before a brace. -/
theorem Heading.Stands.stripped (stands : h.Stands c) :
    ∃ before left back, (Text.stripComments c.source.text).toList = before ++ (left ++ '{' :: back) ∧
      Left (some '{') h.pieces left ∧ ∀ d ∈ before.getLast?, Text.isWordChar d = false := by
  have keyed : Text.Apart (stands.text ++ '{' :: stands.rest) := by
    obtain ⟨more, split⟩ := stands.laid.split
    rw [split]
    cases h.key <;> exact fun c first => by cases first; decide
  obtain ⟨q, split⟩ : ∃ q, stripFrom .code '\x00' (stands.front ++ (stands.text ++ '{' :: stands.rest)) =
      stripFrom .code '\x00' stands.front ++ stripFrom (Text.leaveFrom .code '\x00' stands.front) q _ :=
    Text.stripFrom_append (by simp) (by simp [stands.code]) keyed
  obtain ⟨left, r, own, laid, -⟩ := stands.laid.strips q ('{' :: stands.rest)
  have brace : stripFrom .code r ('{' :: stands.rest) = '{' :: stripFrom .code '{' stands.rest :=
    @Text.stripFrom_inert r ['{'] stands.rest (by simp [inert])
  have stripped : (Text.stripComments c.source.text).toList = _ := String.toList_ofList
  rw [stands.whole, split, stands.code, own, brace] at stripped
  exact ⟨_, left, _, stripped, laid, stands.apart⟩

end Standing

end Grammar

end HeaderMeta
