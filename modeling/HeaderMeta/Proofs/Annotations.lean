import HeaderMeta.Proofs.Annotations.Patterns

/-! Annotations that are recorded, and annotations that are shown.

What stands between the key and the name of a record may stand in any order for the reader. The pattern
for an annotation wants macros first, then the attribute lists, then an alignment, then macros again
(`Heading.Ordered`). Where a heading is ordered so, every attribute that is recorded is shown by the text
without its comments, whatever stands around the heading.
-/

set_option autoImplicit false

namespace HeaderMeta
open Lexeme (isSpace)

namespace Grammar
open Pattern (Takes TakesAll Matches)
open Annotated
open Text (stripFrom)
variable {next : Option Char} {text blanks : List Char} {ds : List Decor} {h : Heading} {a : Attribute}

def Decor.isMacro : Decor → Bool
  | macroName _ _ _ => true
  | _ => false

def Decor.isList : Decor → Bool
  | list _ _ => true
  | _ => false

/-- Macros, then attribute lists, then perhaps an alignment, then macros. -/
def Heading.Ordered (h : Heading) : Prop :=
  ∃ (before lists after : List Decor) (alignment : Option Arguments),
    h.decors = before ++ (lists ++ ((alignment.map Decor.alignment).toList ++ after)) ∧
      (∀ d ∈ before ++ after, d.isMacro = true) ∧ ∀ d ∈ lists, d.isList = true

section Decors

theorem has_of_capital {c : Char} (capital : (c.isUpper || c.isDigit || c == '_') = true) :
    (CharSet.union upperStart (.range '0' '9')).has c = true := by
  simp only [Bool.or_eq_true, beq_iff_eq] at capital
  rcases capital with (upper | digit) | rfl
  · simp only [Char.isUpper, ge_iff_le, Bool.decide_and, Bool.and_eq_true, decide_eq_true_eq,
      UInt32.le_iff_toNat_le] at upper
    simp only [upperStart, CharSet.has, Bool.or_eq_true, Bool.and_eq_true, decide_eq_true_eq]
    exact .inl (.inl upper)
  · have range := Char.isDigit_iff_toNat.mp digit
    simp only [CharSet.has, Bool.or_eq_true, Bool.and_eq_true, decide_eq_true_eq]
    exact .inr range
  · decide

theorem takes_macro {word : String} (identifier : isIdentifier word = true)
    (shape : Cursor.isMacroName word = true) (blank : blanks.all isSpace = true) (some : blanks ≠ []) :
    Takes macroName (word.toList ++ blanks) ∧ Takes wordName (word.toList ++ blanks) := by
  have capital := capital_of_isMacroName shape
  have parts := Lexeme.isWordPart_of_isIdentifier identifier
  unfold isIdentifier at identifier
  split at identifier
  next => cases identifier
  next c cs spelled =>
    rw [spelled] at capital parts ⊢
    have later : ∀ d ∈ c :: cs, (CharSet.union upperStart (.range '0' '9')).has d = true :=
      fun d mem => has_of_capital (capital d mem)
    have upper : upperStart.has c = true := by
      have start := (Bool.and_eq_true_iff.mp identifier).1
      have first := later c List.mem_cons_self
      rw [CharSet.has, Bool.or_eq_true] at first
      refine first.resolve_right fun digit => ?_
      have digit : c.isDigit = true := Char.isDigit_iff_toNat.mpr (by simpa [CharSet.has] using digit)
      simp [Lexeme.isWordStart_eq_false_of_isDigit digit] at start
    rw [List.forall_mem_cons] at later
    have words : ∀ d ∈ cs, CharSet.word.has d = true := fun d mem =>
      isWordChar_of_isWordPart (parts d (List.mem_cons_of_mem _ mem))
    have gap := (Pattern.takes_plus_blank blank some).all
    have asMacro := TakesAll.cons (Pattern.takes_set upper) (.cons (Pattern.takes_star_set later.2) gap)
    have asWord : TakesAll [.set letterStart, _, _] _ :=
      .cons (Pattern.takes_set (c := c) (by simp [letterStart, CharSet.has, upper]))
        (.cons (Pattern.takes_star_set words) gap)
    exact ⟨asMacro.takes, asWord.takes⟩

/-- A word or an attribute list is next. -/
def Opens (next : Option Char) : Prop :=
  ∃ c, next = some c ∧ (Text.isWordChar c = true ∨ c = '[')

theorem opens_word {w : String} (identifier : isIdentifier w = true) (cs : List Char) :
    Opens ((w.toList ++ cs).head?.or next) := by
  have parts := Lexeme.isWordPart_of_isIdentifier identifier
  unfold isIdentifier at identifier
  split at identifier
  next => cases identifier
  next c ds spelled =>
    rw [spelled] at parts ⊢
    exact ⟨c, rfl, .inl (isWordChar_of_isWordPart (parts c List.mem_cons_self))⟩

theorem Left.opens (left : Left next (ds.flatMap Decor.pieces) text) (opens : Opens next) :
    Opens (text.head?.or next) := by
  cases ds with
  | nil =>
    obtain rfl := left.of_nil
    exact opens
  | cons d ds =>
    cases d with
    | macroName word identifier shape =>
      obtain ⟨blanks, more, rfl, -⟩ := Left.of_cons left
      exact opens_word identifier _
    | list first more =>
      obtain ⟨blanks, more, rfl, -⟩ := Left.of_cons left
      exact ⟨'[', rfl, .inr rfl⟩
    | alignment a =>
      obtain ⟨blanks, more, rfl, -⟩ := Left.of_cons left
      exact opens_word (w := "alignas") (by decide) _

theorem takes_macros (macros : ∀ d ∈ ds, d.isMacro = true)
    (left : Left next (ds.flatMap Decor.pieces) text) (opens : Opens next) :
    Takes (.star macroName) text ∧ Takes (.star wordName) text := by
  induction ds generalizing text with
  | nil =>
    obtain rfl := left.of_nil
    exact ⟨Pattern.takes_star_nil, Pattern.takes_star_nil⟩
  | cons d ds ih =>
    obtain ⟨own, others⟩ := List.forall_mem_cons.mp macros
    cases d with
    | macroName word identifier shape =>
      obtain ⟨blanks, more, rfl, blank, touch, later⟩ := Left.of_cons left
      -- what opens next cannot touch a macro
      have some : blanks ≠ [] := by
        rintro rfl
        obtain ⟨c, first, opening⟩ := later.opens opens
        have touches := touch c first
        simp only [Piece.touches, Piece.stopsAt, shape, Bool.and_eq_true, Bool.not_eq_true',
          Bool.and_true, beq_eq_false_iff_ne] at touches
        rcases opening with part | list
        · simp [part] at touches
        · exact touches.2 list
      obtain ⟨macroTaken, wordTaken⟩ := takes_macro identifier shape blank some
      obtain ⟨asMacros, asWords⟩ := ih others later
      rw [← List.append_assoc]
      exact ⟨macroTaken.star asMacros, wordTaken.star asWords⟩
    | list | alignment => cases own

theorem exists_list {first : AttributeForm} {more : List AttributeForm}
    (left : Left next (Decor.list first more).pieces text) :
    ∃ gap items behind, text = ['[', '['] ++ (gap ++ (items ++ [']', ']'])) ++ behind ∧
      gap.all isSpace = true ∧ behind.all isSpace = true ∧
      Left (some ']') (separated ((first :: more).map AttributeForm.pieces)) items ∧
      ∀ c ∈ gap ++ items, c ≠ ']' := by
  obtain ⟨gap, listed, rfl, gapBlank, -, inner⟩ := Left.of_cons left
  obtain ⟨items, closing, rfl, listed, closed⟩ := inner.of_append
  obtain ⟨behind, _, rfl, behindBlank, -, none⟩ := closed.of_cons
  obtain rfl := none.of_nil
  refine ⟨gap, items, behind, by simp [Piece.text], gapBlank, behindBlank, listed, fun c mem => ?_⟩
  rcases List.mem_append.mp mem with here | there
  · rintro rfl
    exact absurd (List.all_eq_true.mp gapBlank _ here) (by decide)
  · exact (listed.inner_text isInner_attributes c there).1

theorem takes_lists (lists : ∀ d ∈ ds, d.isList = true)
    (left : Left next (ds.flatMap Decor.pieces) text) :
    Takes (.star (.seq anyList .blanks)) text := by
  induction ds generalizing text with
  | nil =>
    obtain rfl := left.of_nil
    exact Pattern.takes_star_nil
  | cons d ds ih =>
    obtain ⟨own, others⟩ := List.forall_mem_cons.mp lists
    cases d with
    | list first more =>
      obtain ⟨front, back, rfl, here, later⟩ := Left.of_append left
      obtain ⟨gap, items, behind, rfl, -, blank, -, inside⟩ := exists_list here
      have whole := ((takes_anyList inside).seq (Pattern.takes_blanks blank)).star (ih others later)
      simpa using whole
    | macroName | alignment => cases own

theorem takes_lists_behind (lists : ∀ d ∈ ds, d.isList = true)
    (left : Left next (ds.flatMap Decor.pieces) text) (blank : blanks.all isSpace = true) :
    ∃ own gap, blanks ++ text = own ++ gap ∧ Takes (.star (.seq .blanks anyList)) own ∧
      gap.all isSpace = true := by
  induction ds generalizing text blanks with
  | nil =>
    obtain rfl := left.of_nil
    exact ⟨[], blanks, by simp, Pattern.takes_star_nil, blank⟩
  | cons d ds ih =>
    obtain ⟨own, others⟩ := List.forall_mem_cons.mp lists
    cases d with
    | list first more =>
      obtain ⟨front, back, rfl, here, later⟩ := Left.of_append left
      obtain ⟨gap, items, behind, rfl, -, ownBlank, -, inside⟩ := exists_list here
      obtain ⟨taken, last, split, star, lastBlank⟩ := ih others later ownBlank
      have one := (Pattern.takes_blanks blank).seq (takes_anyList inside)
      refine ⟨_, last, ?_, one.star star, lastBlank⟩
      rw [List.append_assoc _ taken, ← split]
      simp
    | macroName | alignment => cases own

theorem takes_alignment {o : Option Arguments}
    (left : Left next ((o.map Decor.alignment).toList.flatMap Decor.pieces) text) :
    Takes (.optional alignment) text := by
  cases o with
  | none =>
    obtain rfl := left.of_nil
    exact Pattern.takes_optional_nil
  | some a =>
    obtain ⟨b₁, more, rfl, blank₁, -, grouped⟩ := Left.of_cons left
    obtain ⟨b₂, _, rfl, blank₂, -, none⟩ := Left.of_cons grouped
    obtain rfl := none.of_nil
    have inside : ∀ c ∈ a.inner, c ∉ [')'] := by
      intro c mem close
      obtain rfl := List.mem_singleton.mp close
      exact absurd (Arguments.mem_inner mem) (by decide)
    have whole := TakesAll.cons (Pattern.takes_text "alignas") (.cons (Pattern.takes_blanks blank₁)
      (.cons (Pattern.takes_char '(') (.cons (Pattern.takes_star_noneOf inside)
        (.cons (Pattern.takes_char ')') (Pattern.takes_blanks blank₂).all))))
    have taken : Takes (.optional alignment) _ := whole.takes.optional
    simpa [Piece.text] using taken

def decorPatterns (a : Attribute) : List Pattern :=
  [.blanks, .star macroName, .star (.seq anyList .blanks), listPattern a, .star (.seq .blanks anyList),
    .blanks, .optional alignment, .star wordName]

/-- In order an attribute stands in one of the lists, with macros in front of them and an alignment and
macros behind. -/
theorem Heading.Ordered.exists_list (ordered : h.Ordered) {f : AttributeForm} (mem : f ∈ h.attributes) :
    ∃ (before front back after : List Decor) (first : AttributeForm) (more : List AttributeForm)
      (alignment : Option Arguments),
      f ∈ first :: more ∧
        h.decors = before ++ ((front ++ .list first more :: back) ++
          ((alignment.map Decor.alignment).toList ++ after)) ∧
        (∀ d ∈ before ++ after, d.isMacro = true) ∧ ∀ d ∈ front ++ back, d.isList = true := by
  obtain ⟨before, lists, after, alignment, decors, macros, allLists⟩ := ordered
  obtain ⟨d, among, own⟩ := List.mem_flatMap.mp mem
  obtain ⟨first, more, rfl⟩ : ∃ first more, d = .list first more := by
    cases d with
    | list first more => exact ⟨first, more, rfl⟩
    | macroName | alignment => cases own
  have listed : Decor.list first more ∈ lists := by
    rw [decors] at among
    simp only [List.mem_append] at among macros
    rcases among with early | here | aligned | late
    · cases macros _ (.inl early)
    · exact here
    · cases alignment <;> simp at aligned
    · cases macros _ (.inr late)
  obtain ⟨front, back, rfl⟩ := List.append_of_mem listed
  refine ⟨before, front, back, after, first, more, alignment, own, decors, macros, fun d other => ?_⟩
  exact allLists d ((List.mem_append.mp other).elim (by simp +contextual) (by simp +contextual))

/-- Every attribute of an ordered heading is found. -/
theorem takes_decors (ordered : h.Ordered) {f : AttributeForm} (mem : f ∈ h.attributes)
    (name : a.name = f.denote.name) (scope : a.scope = f.denote.scope)
    (left : Left next (h.decors.flatMap Decor.pieces) text) (opens : Opens next)
    (blank : blanks.all isSpace = true) : TakesAll (decorPatterns a) (blanks ++ text) := by
  obtain ⟨before, front, back, after, first, more, alignment, own, decors, macros, lists⟩ :=
    ordered.exists_list mem
  have frontLists := fun d mem => lists d (List.mem_append_left back mem)
  have backLists := fun d mem => lists d (List.mem_append_right front mem)
  -- the text falls into one stretch for each part of the pattern
  rw [decors, List.append_assoc, List.flatMap_append] at left
  obtain ⟨t₁, _, rfl, left₁, rest₁⟩ := left.of_append
  have opens₁ := rest₁.opens opens
  rw [List.flatMap_append] at rest₁
  obtain ⟨t₂, _, rfl, left₂, rest₂⟩ := rest₁.of_append
  rw [List.cons_append, List.flatMap_cons] at rest₂
  obtain ⟨_, _, rfl, left₃, rest₃⟩ := rest₂.of_append
  rw [List.flatMap_append] at rest₃
  obtain ⟨t₄, _, rfl, left₄, rest₄⟩ := rest₃.of_append
  rw [List.flatMap_append] at rest₄
  obtain ⟨t₅, t₆, rfl, left₅, left₆⟩ := rest₄.of_append
  obtain ⟨gap, items, behind, rfl, gapBlank, behindBlank, itemsLeft, -⟩ := exists_list left₃
  -- the blanks behind a list go to the next list, those behind the last to what follows the lists
  obtain ⟨later, last, split, laterTaken, lastBlank⟩ := takes_lists_behind backLists left₄ behindBlank
  have whole : TakesAll (decorPatterns a) _ := .cons (Pattern.takes_blanks blank) <|
    .cons (takes_macros (fun d mem => macros d (List.mem_append_left _ mem)) left₁ opens₁).1 <|
    .cons (takes_lists frontLists left₂) <|
    .cons (takes_listPattern own itemsLeft gapBlank name scope) <|
    .cons laterTaken <| .cons (Pattern.takes_blanks lastBlank) <| .cons (takes_alignment left₅) <|
    (takes_macros (fun d mem => macros d (List.mem_append_right _ mem)) left₆ opens).2.all
  rw [← List.append_assoc later, ← split] at whole
  simpa using whole

end Decors

section Heads

def namePatterns (type : String) : List Pattern :=
  [.text type, .boundary, .blanks, .optional (.seqs [.text "final", .boundary, .blanks]),
    .optional (.seq (.char ':') (.star (.set (.noneOf ['\x7b', ';'])))), .char '\x7b']

theorem matches_final {isFinal : Bool} {before : Option Char}
    (left : Left next (Heading.finalPieces isFinal) text) :
    Matches (.optional (.seqs [.text "final", .boundary, .blanks])) before text next := by
  cases isFinal with
  | false =>
    obtain rfl := left.of_nil
    exact Pattern.takes_optional_nil _ _
  | true =>
    obtain ⟨gap, _, rfl, blank, touch, none⟩ := Left.of_cons left
    obtain rfl := none.of_nil
    refine .left (Pattern.matches_word_boundary (by decide) (by simp) (Pattern.wordAt_of_touches touch) ?_)
    rw [List.append_nil]
    exact Pattern.takes_blanks blank _ _

theorem takes_bases {bs : List BaseForm} (left : Left next (basePieces bs) text) :
    Takes (.optional (.seq (.char ':') (.star (.set (.noneOf ['\x7b', ';']))))) text := by
  cases bs with
  | nil =>
    obtain rfl := left.of_nil
    exact Pattern.takes_optional_nil
  | cons b bs =>
    obtain ⟨gap, more, rfl, blank, -, listed⟩ := Left.of_cons left
    have inside : ∀ c ∈ gap ++ more, c ∉ ['\x7b', ';'] := by
      intro c mem ends
      rcases List.mem_append.mp mem with here | there
      · have space := List.all_eq_true.mp blank c here
        simp only [List.mem_cons, List.not_mem_nil, or_false] at ends
        rcases ends with rfl | rfl <;> exact absurd space (by decide)
      · have plain := listed.inner_text isInner_bases c there
        simp [plain] at ends
    exact ((Pattern.takes_char ':').seq (Pattern.takes_star_noneOf inside)).optional

theorem matches_namePatterns {before after : Option Char}
    (left : Left (some '{') (h.name.piece :: (Heading.finalPieces h.isFinal ++ basePieces h.bases)) text) :
    Matches (.seqs (namePatterns h.name.text)) before (text ++ ['{']) after := by
  obtain ⟨gap, _, rfl, blank, touch, rest⟩ := Left.of_cons left
  obtain ⟨final, based, rfl, finalLeft, basesLeft⟩ := rest.of_append
  have bases := (TakesAll.cons (takes_bases basesLeft) (Pattern.takes_char '\x7b').all).takes
  have next : (based ++ ['{']).head?.or after = based.head?.or (some '{') := by
    simp [List.head?_append]
  have behind (before : Option Char) := Matches.seq (Pattern.takes_blanks blank before _)
    (.seq (next ▸ matches_final finalLeft) (bases _ _))
  have ends : Pattern.wordAt ((gap ++ (final ++ (based ++ ['{']))).head?.or after) = false := by
    simpa [List.head?_append, Option.or_assoc] using Pattern.wordAt_of_touches touch
  have whole : Matches (.seqs (namePatterns h.name.text)) before _ after :=
    Pattern.matches_word_boundary h.name.identifier (by simp) ends (behind _)
  simpa [Name.piece, Piece.text] using whole

/-- The pattern for an attribute takes an ordered heading with the attribute. -/
theorem matches_headPattern (ordered : h.Ordered) {f : AttributeForm} (mem : f ∈ h.attributes)
    (name : a.name = f.denote.name) (scope : a.scope = f.denote.scope)
    (left : Left (some '{') h.pieces text) {before after : Option Char}
    (apart : Pattern.wordAt before = false) :
    Matches (headPattern h.key.word h.name.text a) before (text ++ ['{']) after := by
  have identifier : isIdentifier h.key.word = true := by cases h.key <;> decide
  obtain ⟨gap, _, rfl, blank, touch, rest⟩ := Left.of_cons left
  obtain ⟨decors, named, rfl, decorsLeft, nameLeft⟩ := rest.of_append
  have opens : Opens (named.head?.or (some '{')) := by
    obtain ⟨_, _, rfl, -⟩ := nameLeft.of_cons
    exact opens_word h.name.identifier _
  have decorated := takes_decors ordered mem name scope decorsLeft opens blank
  have behind (before : Option Char) : Matches (.seqs (decorPatterns a ++ namePatterns h.name.text)) before
      (gap ++ decors ++ (named ++ ['{'])) after :=
    decorated.matches_append (by simp [namePatterns]) (matches_namePatterns nameLeft)
  have ends : Pattern.wordAt ((gap ++ decors ++ (named ++ ['{'])).head?.or after) = false := by
    simpa [List.head?_append, Option.or_assoc] using Pattern.wordAt_of_touches touch
  have keyed (before : Option Char) : Matches (.seqs (.text h.key.word :: .boundary ::
      (decorPatterns a ++ namePatterns h.name.text))) before
        (h.key.word.toList ++ (gap ++ decors ++ (named ++ ['{']))) after :=
    Pattern.matches_word_boundary identifier (by simp [decorPatterns]) ends (behind _)
  have starts := Pattern.wordAt_head identifier (gap ++ decors ++ (named ++ ['{'])) after
  have whole : Matches (headPattern h.key.word h.name.text a) before
      ([] ++ (h.key.word.toList ++ (gap ++ decors ++ (named ++ ['{'])))) after :=
    Pattern.matches_seqs_cons (by simp) (.boundary (by rw [apart, starts]; decide)) (keyed _)
  simpa [keyPiece, Piece.text] using whole

end Heads

/-- A record is recorded with the name of its heading and the attributes of its lists, whatever stands
around the heading, between its pieces and in its body. Where the heading is ordered, the text without the
comments shows each of the attributes. -/
theorem record_shows_attributes {c : Cursor} (stands : h.Stands c) {room : Nat}
    {namespaces enclosing : List String} {isTemplate : Bool} {outcome : RecordOutcome}
    (read : (c.record (typeBody room) namespaces enclosing isTemplate).1 = .ok outcome) :
    ∃ decl, outcome = .definition decl ∧ decl.key = h.key ∧ decl.name = h.name.text ∧
      decl.attributes.map Attribute.unplaced = h.attributes.map AttributeForm.denote ∧
      (h.Ordered → ∀ a ∈ decl.attributes,
        shownIn decl.key.word decl.name a (Text.stripComments c.source.text) = true) := by
  obtain ⟨decl, rfl, key, name, attributes⟩ := stands.definition read
  refine ⟨decl, rfl, key, name, attributes, fun ordered a mem => ?_⟩
  obtain ⟨before, left, back, stripped, laid, apart⟩ := stands.stripped
  -- the attribute is that of a form of the heading, up to its place
  obtain ⟨f, form, same⟩ := List.mem_map.mp (attributes ▸ List.mem_map_of_mem mem)
  have starts : Pattern.wordAt before.getLast? = false := by
    cases last : before.getLast? with
    | none => rfl
    | some d => exact apart d last
  rw [shownIn, key, name, stripped]
  refine Pattern.search_iff.mpr ⟨before, left ++ ['{'], back, by simp, ?_⟩
  exact matches_headPattern ordered form (congrArg Attribute.name same).symm
    (congrArg Attribute.scope same).symm laid starts

section Panel

def panelHeading : Heading where
  key := .struct
  decors := [.macroName "UI" (by decide) (by cbv),
    .list ⟨⟨[], ⟨"shown", by decide, by decide⟩⟩, none⟩
      [⟨⟨[⟨"ui", by decide, by decide⟩], ⟨"row", by decide, by decide⟩⟩, some ⟨[1], {}⟩⟩],
    .alignment ⟨[8], {}⟩]
  name := ⟨"P", by decide, by decide⟩
  named := by simp

def panelText : List Char :=
  "struct UI [[shown, ui::row(1)]] /**/ alignas(8) P".toList

def panelSource : Source :=
  ⟨⟨"panel.hpp"⟩, String.ofList ("//\n".toList ++ (panelText ++ '{' :: "\x7d;".toList))⟩

theorem laid_panelText : Laid (some '{') panelHeading.pieces panelText := by
  have space : Gap [' '] := .blank rfl (by simp)
  have comment : Gap " /**/ ".toList :=
    @Gap.blockComment [' '] [] [' '] rfl (by simp) (by simp) space
  exact .spaced space <| .spaced space <| .joined rfl <| .joined (by decide) <| .spaced space <|
    .joined (by decide) <| .joined (by decide) <| .joined (by decide) <| .joined rfl <|
    .spaced comment <| .joined (by decide) <| .spaced space <|
    .tight (fun c first => by cases first; decide) .nil

def panelStands : panelHeading.Stands (Header.start panelSource).cursor where
  front := "//\n".toList
  text := panelText
  rest := "\x7d;".toList
  whole := String.toList_ofList
  laid := laid_panelText
  tokens := by decide +kernel
  code := by decide +kernel
  apart d last := by
    have feed : (stripFrom .code '\x00' "//\n".toList).getLast? = some '\n' := by decide +kernel
    obtain rfl := Option.some.inj (feed.symm.trans last)
    decide

theorem record_shows_attributes_panel :
    let reader := (Header.start panelSource).cursor
    ∃ decl, (reader.record (typeBody 1) [] [] false).1 = .ok (.definition decl) ∧ decl.name = "P" ∧
      decl.attributes.map (·.name) = ["shown", "row"] ∧
      ∀ a ∈ decl.attributes, shownIn "struct" "P" a (Text.stripComments panelSource.text) = true := by
  intro reader
  have returns : (reader.record (typeBody 1) [] [] false).1.toBool = true := by cbv
  cases read : (reader.record (typeBody 1) [] [] false).1 with
  | error => simp [read, Except.toBool] at returns
  | ok outcome =>
    obtain ⟨decl, rfl, key, name, attributes, shown⟩ := record_shows_attributes panelStands read
    have ordered : panelHeading.Ordered :=
      ⟨_ :: [], _ :: [], [], some _, rfl, by simp [Decor.isMacro], by simp [Decor.isList]⟩
    have names := congrArg (List.map Attribute.name) attributes
    rw [List.map_map, List.map_map] at names
    refine ⟨decl, rfl, name, names, ?_⟩
    rw [key, name] at shown
    exact shown ordered

/-- A macro hides an attribute list that it touches. -/
example : shownIn "struct" "P" { scope := none, name := "shown" } "struct UI[[shown]] P {};" = false := by
  cbv

end Panel

end Grammar

namespace Header

/-- The attributes that a text records for its types, templates apart, each with the key and the name of
its type. -/
def annotations (text : String) : List (String × String × Attribute) :=
  ((read ⟨⟨"a.hpp"⟩, text⟩).root.walk.filter (! ·.isTemplate)).flatMap fun type =>
    type.attributes.map fun a => (type.key.word, type.name, a)

def alignedText : String :=
  "struct alignas(16) [[reflectable]] A {};"

theorem annotations_alignedText : annotations alignedText =
    [("struct", "A", { scope := none, name := "reflectable", span := ⟨21, 32, 1, 22⟩ })] := by
  cbv

/-- An alignment before the attribute list hides the attributes that are recorded. -/
theorem annotations_not_all_shown : ¬ ∀ text, ∀ a ∈ annotations text,
    Annotated.shownIn a.1 a.2.1 a.2.2 (Text.stripComments text) = true := by
  intro all
  have hidden : Annotated.shownIn "struct" "A"
      { scope := none, name := "reflectable", span := ⟨21, 32, 1, 22⟩ } (Text.stripComments alignedText) =
        false := by cbv
  have shown := all alignedText
  rw [annotations_alignedText, List.forall_mem_singleton, hidden] at shown
  cases shown

end Header

end HeaderMeta
