import HeaderMeta.Proofs.Coverage

/-! A lexeme before another text.

How far a lexeme goes depends on what stands behind it, by a character or two. `Settles` says what
must not stand there; where it does not, the lexeme ends as before (`extent_of_settles`). So texts may
be taken apart and put together again lexeme by lexeme.
-/

set_option autoImplicit false

namespace HeaderMeta

namespace Lexeme

/-- Whether nothing at the front of `tail` carries the lexeme on. -/
def settles (x : Lexeme) (tail : List Char) : Bool :=
  match x.kind with
  | .blank => !tail.head?.any isSpace
  | .lineComment | .directive => tail.head?.all (· == '\n')
  | .blockComment closed => closed
  | .stringLit closed => closed || tail.head? == some '\n'
  | .word =>
    !tail.head?.any isWordPart && !(stringMarks.contains x.text && tail.head? == some '"')
  | .number => !tail.head?.any isNumberPart
  | .mark .colon => tail.head? != some ':'
  | .mark .amp => tail.head? != some '&'
  | .mark .dot => tail.take 2 != ['.', '.']
  | .symbol =>
    match x.text with
    | ['-'] => tail.head? != some '>'
    | ['/'] => tail.head? != some '/' && tail.head? != some '*'
    | ['\''] => charBody tail == 0
    | _ => true
  | .stray => x.text.head? != some '\'' || charBody tail == 0 && tail.head? != some '\''
  | _ => true

section Extents
open Text (AtLine)
variable {c : Char} {cs tail : List Char} {kind : LexemeKind} {n : Nat}

theorem lengthWhile_take {part : Char → Bool} (stop : tail.head?.any part = false) :
    lengthWhile part (cs.take (lengthWhile part cs) ++ tail) = lengthWhile part cs := by
  have own : (cs.take (lengthWhile part cs)).all part = true := by
    rw [take_lengthWhile]
    exact List.all_takeWhile
  have ends : ∀ c ∈ tail.head?, part c = false := by
    intro c first
    rw [Option.mem_def.mp first] at stop
    exact stop
  rw [lengthWhile_append own ends, List.length_take_of_le (lengthWhile_le part cs)]

theorem eq_cons_of_take_append {d : Char} {ds : List Char} (some : 0 < n) (inside : n ≤ cs.length)
    (starts : cs.take n ++ tail = d :: ds) : ∃ es, cs = d :: es := by
  cases cs with
  | nil => exact absurd (Nat.lt_of_lt_of_le some inside) (Nat.lt_irrefl 0)
  | cons e es =>
    cases n with
    | zero => exact absurd some (Nat.lt_irrefl 0)
    | succ n => exact ⟨es, by rw [(List.cons.inj starts).1]⟩

theorem commentBody_le (cs : List Char) : (commentBody cs).1 ≤ cs.length := by
  fun_induction commentBody cs <;> simp_all

theorem commentBody_pos (closed : (commentBody cs).2 = true) : 0 < (commentBody cs).1 := by
  unfold commentBody at closed ⊢
  split at closed <;> simp_all

theorem commentBody_take (closed : (commentBody cs).2 = true) (tail : List Char) :
    commentBody (cs.take (commentBody cs).1 ++ tail) = commentBody cs := by
  fun_induction commentBody cs with
  | case1 => cases closed
  | case2 cs => rfl
  | case3 c cs notEnd n closed' body ih =>
    have some : 0 < (commentBody cs).1 := commentBody_pos (by rw [body]; exact closed)
    have inside := commentBody_le cs
    rw [body] at ih some inside
    rw [List.take_succ_cons, List.cons_append, commentBody, ih closed]
    rintro ds rfl same
    obtain ⟨es, rfl⟩ := eq_cons_of_take_append some inside same
    exact notEnd es rfl rfl

theorem directiveBody_le (cs : List Char) : directiveBody cs ≤ cs.length := by
  fun_induction directiveBody cs <;> simp_all

theorem directiveBody_pos (remains : cs ≠ []) (inside : cs.head? ≠ some '\n') :
    0 < directiveBody cs := by
  unfold directiveBody
  split <;> simp_all

theorem directiveBody_take (remains : cs.drop (directiveBody cs) ≠ []) (line : AtLine tail) :
    directiveBody (cs.take (directiveBody cs) ++ tail) = directiveBody cs := by
  fun_induction directiveBody cs with
  | case1 => exact absurd rfl remains
  | case2 cs =>
    cases tail with
    | nil => rfl
    | cons c tail =>
      obtain rfl := line c rfl
      rfl
  -- a backslash at the very end of the text leaves nothing behind the directive
  | case3 => exact absurd rfl remains
  | case4 cs ih => simp_all [directiveBody]
  | case5 c cs notReturn ih =>
    rw [List.drop_succ_cons, List.drop_succ_cons] at remains
    rw [List.take_succ_cons, List.take_succ_cons, List.cons_append, List.cons_append, directiveBody,
      ih remains]
    rintro ds rfl same
    have inside : 0 < directiveBody cs := by
      apply directiveBody_pos
      · rintro rfl
        exact remains rfl
      · intro first
        obtain ⟨es, rfl⟩ := List.head?_eq_some_iff.mp first
        exact notReturn es rfl rfl
    obtain ⟨es, rfl⟩ := eq_cons_of_take_append inside (directiveBody_le cs) same
    exact notReturn es rfl rfl
  | case6 c cs notLine notLast notReturn notEscape ih =>
    rw [List.drop_succ_cons] at remains
    have notSlash : c ≠ '\\' := by
      rintro rfl
      cases cs with
      | nil => exact notLast rfl rfl
      | cons d ds => exact notEscape d ds rfl rfl
    rw [List.take_succ_cons, List.cons_append, directiveBody, ih remains]
    · exact notLine
    · exact fun here => absurd here notSlash
    · exact fun _ here => absurd here notSlash
    · exact fun _ _ here => absurd here notSlash

theorem ordinary_of_isWordStart (start : isWordStart c = true) (bare : ¬ Marks c cs) :
    Ordinary c cs := by
  refine ⟨isSpace_eq_false_of_isNumberPart (isNumberPart_of_isWordStart start),
    Text.opensComment_cons ?_, ?_, ?_, ?_, bare⟩ <;> rintro rfl <;> simp [isWordStart] at start

theorem ordinary_of_isDigit (digit : c.isDigit = true) : Ordinary c cs := by
  have part : isNumberPart c = true := by simp [isNumberPart, isWordPart, Char.isAlphanum, digit]
  refine ⟨isSpace_eq_false_of_isNumberPart part, Text.opensComment_cons ?_, ?_, ?_, ?_, ?_⟩
  case refine_5 => rintro (⟨rfl, -⟩ | ⟨rfl | rfl | rfl, -⟩) <;> simp at digit
  all_goals
    rintro rfl
    simp at digit

theorem not_marks_of_settles (part : ∀ d ∈ cs, isWordPart d = true)
    (settled : settles ⟨.word, c :: cs⟩ tail = true) : ¬ Marks c (cs ++ tail) := by
  simp only [settles, Bool.and_eq_true, Bool.not_eq_true', Bool.and_eq_false_iff] at settled
  obtain ⟨noPart, noMark⟩ := settled
  -- the quote stands directly behind the word, which is then one of the marks
  have quoted {own : List Char} {ds : List Char} (own_eq : cs = own) (rest : tail = '"' :: ds)
      (known : c :: own ∈ stringMarks) : False := by
    subst own_eq rest
    rcases noMark with noMark | noMark
    · simp [known] at noMark
    · simp at noMark
  rintro (⟨rfl, ds, text⟩ | ⟨first, ds, text⟩)
  · cases cs with
    | nil =>
      obtain rfl : tail = _ := text
      cases noPart
    | cons d cs =>
      obtain ⟨rfl, rest⟩ := List.cons.inj text
      cases cs with
      | nil => exact quoted rfl rest (by simp [stringMarks])
      | cons e cs =>
        obtain ⟨rfl, -⟩ := List.cons.inj rest
        simp [isWordPart] at part
  · cases cs with
    | nil =>
      refine quoted rfl text ?_
      rcases first with rfl | rfl | rfl <;> simp [stringMarks]
    | cons d cs =>
      obtain ⟨rfl, -⟩ := List.cons.inj text
      simp [isWordPart] at part

theorem extent_word_of_settles (start : isWordStart c = true)
    (settled : settles ⟨.word, c :: cs.take (lengthWhile isWordPart cs)⟩ tail = true) :
    extent c (cs.take (lengthWhile isWordPart cs) ++ tail) = (.word, lengthWhile isWordPart cs) := by
  have part : ∀ d ∈ cs.take (lengthWhile isWordPart cs), isWordPart d = true := by
    rw [take_lengthWhile]
    exact fun d mem => List.mem_takeWhile_imp mem
  have bare := not_marks_of_settles part settled
  simp only [settles, Bool.and_eq_true, Bool.not_eq_true'] at settled
  rw [(ordinary_of_isWordStart start bare).extent_eq, if_pos start, lengthWhile_take settled.1]

theorem extent_number_of_settles (start : isWordStart c = false) (digit : c.isDigit = true)
    (settled : tail.head?.any isNumberPart = false) :
    extent c (cs.take (lengthWhile isNumberPart cs) ++ tail) =
      (.number, lengthWhile isNumberPart cs) := by
  rw [(ordinary_of_isDigit digit).extent_eq, if_neg (by simp [start]), if_pos digit,
    lengthWhile_take settled]

theorem charBody_take_of_stop (stop : charBody tail = 0) :
    charBody (cs.take (charBody cs) ++ tail) = charBody cs := by
  fun_induction charBody cs with
  | case1 | case2 | case4 => exact stop
  | case3 c cs line ih =>
    rw [List.take_succ_cons, List.take_succ_cons, List.cons_append, List.cons_append, charBody,
      if_neg line, ih]
  | case5 c cs notEscape inside ih =>
    rw [List.take_succ_cons, List.cons_append, charBody, if_neg inside, ih]
    rintro d ds rfl
    simp at inside

theorem extent_char_of_settles (taken : charExtent cs = (kind, n))
    (settled : settles ⟨kind, '\'' :: cs.take n⟩ tail = true) :
    charExtent (cs.take n ++ tail) = (kind, n) := by
  cases charCuts_of_charExtent taken with
  | bare none =>
    simp only [settles, beq_iff_eq, List.take_zero] at settled
    rw [List.take_zero, List.nil_append, charExtent, settled]
  | closed filled quote =>
    have text : cs.take (charBody cs + 1) ++ tail = cs.take (charBody cs) ++ '\'' :: tail := by
      rw [(take_succ_of_drop quote).1, List.append_assoc, List.singleton_append]
    have same : charBody (cs.take (charBody cs) ++ '\'' :: tail) = charBody cs :=
      charBody_take_of_stop rfl
    have short : (cs.take (charBody cs)).length = charBody cs :=
      List.length_take_of_le (charBody_le cs)
    have closes : (cs.take (charBody cs) ++ '\'' :: tail).drop
        (charBody (cs.take (charBody cs) ++ '\'' :: tail)) = '\'' :: tail := by
      rw [same, List.drop_left' short]
    rw [text, charExtent_eq (by rwa [same]) closes, same]
  | opened filled noQuote =>
    simp only [settles, List.head?_cons, bne_self_eq_false, Bool.false_or, Bool.and_eq_true,
      beq_iff_eq, bne_iff_ne] at settled
    obtain ⟨stop, notQuote⟩ := settled
    have same : charBody (cs.take (charBody cs) ++ tail) = charBody cs := charBody_take_of_stop stop
    have short : (cs.take (charBody cs)).length = charBody cs :=
      List.length_take_of_le (charBody_le cs)
    obtain ⟨m, body⟩ := Nat.exists_eq_succ_of_ne_zero filled
    rw [body] at same short ⊢
    rw [charExtent, same]
    simp only [List.drop_left' short, if_neg notQuote]

theorem extent_string_of_settles {mark ds : List Char} (known : mark ∈ stringMarks)
    (text : mark ++ '"' :: cs = c :: ds) (taken : extent c ds = (kind, n))
    (remains : kind = .stringLit false → ds.drop n ≠ [])
    (settled : settles ⟨kind, c :: ds.take n⟩ tail = true) :
    extent c (ds.take n ++ tail) = (kind, n) := by
  rw [extent_string known text] at taken
  cases taken
  have parts : mark ++ '"' :: (cs.take (stringBody cs).1 ++ tail) =
      c :: (ds.take (mark.length + (stringBody cs).1) ++ tail) := by
    rw [← List.cons_append, ← List.append_assoc, ← (string_text text _).1, List.cons_append]
  rw [extent_string known parts, stringBody_take]
  intro opened
  rw [(string_text text _).2, opened] at remains
  have line : tail.head? = some '\n' := by simpa [settles, opened] using settled
  obtain ⟨rest, rfl⟩ := List.head?_eq_some_iff.mp line
  exact ⟨by simp [AtLine], by simpa using remains rfl⟩

theorem extent_symbol_of_settles (symbol : isSymbol c = true)
    (settled : settles ⟨.symbol, [c]⟩ tail = true) : extent c tail = (.symbol, 0) := by
  simp only [isSymbol, List.contains_iff_mem, List.mem_cons, List.not_mem_nil, or_false] at symbol
  rcases symbol with
    rfl | rfl | rfl | rfl | rfl | rfl | rfl | rfl | rfl | rfl | rfl | rfl
  -- a minus, a slash and an apostrophe may begin something else
  case inr.inl =>
    rw [extent_at_punctuation _ (by decide)]
    cases tail <;> simp_all [settles, punctuationExtent, isSymbol]
  case inr.inr.inl =>
    cases tail <;> simp_all [settles, extent, isSpace, isWordStart, punctuationExtent, isSymbol]
  case inr.inr.inr.inr.inr.inr.inr.inr.inr.inr.inl =>
    have body : charBody tail = 0 := by simpa [settles] using settled
    simp [extent, isSpace, charExtent, body]
  all_goals rfl

theorem punctuationExtent_stray (bare : isSymbol c = false)
    (stray : punctuationExtent c cs = (.stray, 0)) : punctuationExtent c tail = (.stray, 0) := by
  have notMinus : c ≠ '-' := by
    rintro rfl
    cases bare
  unfold punctuationExtent at stray
  split at stray
  case h_21 =>
    unfold punctuationExtent
    split <;> simp_all
  all_goals cases stray

theorem extent_stray (bare : isSymbol c = false) (stray : extent c cs = (.stray, 0)) :
    extent c tail = (.stray, 0) := by
  cases cuts_of_extent stray with
  | char => cases bare
  | punctuation ordinary noStart noDigit own =>
    have notSlash : c ≠ '/' := by
      rintro rfl
      cases bare
    have moved : Ordinary c tail := by
      refine ⟨ordinary.solid, Text.opensComment_cons notSlash, ordinary.directive, ordinary.quote,
        ordinary.apostrophe, ?_⟩
      rintro (⟨rfl, -⟩ | ⟨rfl | rfl | rfl, -⟩) <;> cases noStart
    rw [moved.extent_eq, if_neg (by simp [noStart]), if_neg (by simp [noDigit]),
      punctuationExtent_stray bare own]

theorem extent_punctuation_of_settles (whole : extent c cs = (kind, n))
    (taken : punctuationExtent c cs = (kind, n))
    (settled : settles ⟨kind, c :: cs.take n⟩ tail = true) :
    extent c (cs.take n ++ tail) = (kind, n) := by
  unfold punctuationExtent at taken
  split at taken
  case h_21 =>
    split at taken
    next symbol =>
      cases taken
      exact extent_symbol_of_settles symbol settled
    next bare =>
      cases taken
      exact extent_stray (by simpa using bare) whole
  case h_20 =>
    cases taken
    rw [List.take_zero, List.nil_append, extent_at_punctuation _ (by decide)]
    rcases tail with _ | ⟨d, _ | ⟨e, ds⟩⟩ <;> simp_all [settles, punctuationExtent]
  all_goals
    cases taken
    rw [extent_at_punctuation _ (by decide)]
    try rfl
  -- two marks are the beginning of longer ones
  all_goals cases tail <;> simp_all [settles, punctuationExtent]

/-- A lexeme ends where it did before any text that does not carry it on. -/
theorem extent_of_settles (taken : extent c cs = (kind, n))
    (remains : kind = .directive ∨ kind = .stringLit false → cs.drop n ≠ [])
    (settled : settles ⟨kind, c :: cs.take n⟩ tail = true) :
    extent c (cs.take n ++ tail) = (kind, n) := by
  cases cuts_of_extent taken with
  | blanks blank =>
    unfold extent
    rw [if_pos blank, lengthWhile_take (by simpa [settles] using settled)]
  | lineComment rest =>
    have stop : tail.head?.any (· != '\n') = false := by
      cases tail <;> simp_all [settles]
    rw [List.take_succ_cons, List.cons_append]
    change (LexemeKind.lineComment, lengthWhile (· != '\n') (_ ++ tail) + 1) = _
    rw [lengthWhile_take stop]
  | blockComment rest =>
    rw [List.take_succ_cons, List.cons_append]
    change (LexemeKind.blockComment (commentBody (_ ++ tail)).2, (commentBody (_ ++ tail)).1 + 1) = _
    rw [commentBody_take settled]
  | directive =>
    have line : AtLine tail := by
      intro d first
      rw [settles, first] at settled
      exact beq_iff_eq.mp settled
    change (LexemeKind.directive, directiveBody (_ ++ tail)) = _
    rw [directiveBody_take (remains (.inl rfl)) line]
  | string known text =>
    exact extent_string_of_settles known text taken (fun opened => remains (.inr opened)) settled
  | char own => exact extent_char_of_settles own settled
  | word _ start => exact extent_word_of_settles start settled
  | number _ noStart digit =>
    exact extent_number_of_settles noStart digit (by simpa [settles] using settled)
  | punctuation _ _ _ own => exact extent_punctuation_of_settles taken own settled

theorem extent_le (taken : extent c cs = (kind, n)) : n ≤ cs.length := by
  cases cuts_of_extent taken with
  | blanks | word | number => exact lengthWhile_le _ _
  | lineComment => exact Nat.succ_le_succ (lengthWhile_le _ _)
  | blockComment => exact Nat.succ_le_succ (commentBody_le _)
  | directive => exact directiveBody_le cs
  | @string _ mark body _ _ text =>
    have size := congrArg List.length text
    simp only [List.length_append, List.length_cons] at size
    have inside := stringBody_le body
    omega
  | char own =>
    have inside := charBody_le cs
    cases charCuts_of_charExtent own with
    | bare => exact Nat.zero_le _
    | closed _ quote =>
      have size := congrArg List.length quote
      simp only [List.length_drop, List.length_cons] at size
      omega
    | opened => exact inside
  | punctuation _ _ _ own =>
    have inside := punctuationExtent_le c cs
    rwa [own] at inside

theorem head?_drop_lengthWhile (part : Char → Bool) (cs : List Char) :
    (cs.drop (lengthWhile part cs)).head?.any part = false := by
  have stop := List.head?_dropWhile_not part cs
  rw [drop_lengthWhile]
  cases first : (cs.dropWhile part).head? with
  | none => rfl
  | some c => simpa [first] using stop

theorem drop_commentBody (opened : (commentBody cs).2 = false) : cs.drop (commentBody cs).1 = [] := by
  fun_induction commentBody cs with
  | case1 => rfl
  | case2 => cases opened
  | case3 c cs notEnd n closed body ih =>
    rw [body] at ih
    exact ih opened

theorem charBody_drop (cs : List Char) : charBody (cs.drop (charBody cs)) = 0 := by
  fun_induction charBody cs with
  | case1 => rfl
  | case2 cs => rfl
  | case3 c cs line ih => exact ih
  | case4 c cs notEscape stop =>
    rw [List.drop_zero, charBody, if_pos stop]
    exact notEscape
  | case5 c cs notEscape inside ih => exact ih

theorem settles_char (taken : charExtent cs = (kind, n)) :
    settles ⟨kind, '\'' :: cs.take n⟩ (cs.drop n) = true := by
  have stop := charBody_drop cs
  cases charCuts_of_charExtent taken with
  | bare none => simp [settles, none]
  | closed => rfl
  | opened _ noQuote => simp [settles, stop, noQuote, -List.head?_drop]

theorem settles_string {mark ds : List Char} (known : mark ∈ stringMarks)
    (text : mark ++ '"' :: cs = c :: ds) (taken : extent c ds = (kind, n)) (remains : ds.drop n ≠ []) :
    settles ⟨kind, c :: ds.take n⟩ (ds.drop n) = true := by
  rw [extent_string known text] at taken
  cases taken
  rw [(string_text text _).2] at remains ⊢
  cases closed : (stringBody cs).2 with
  | true => rfl
  | false =>
    obtain ⟨d, rest, behind⟩ := List.exists_cons_of_ne_nil remains
    have line := Text.atLine_stringBody closed d (by rw [behind]; rfl)
    simp [settles, behind, line]

theorem settles_word (bare : ¬ Marks c cs) :
    settles ⟨.word, c :: cs.take (lengthWhile isWordPart cs)⟩
      (cs.drop (lengthWhile isWordPart cs)) = true := by
  have stop := head?_drop_lengthWhile isWordPart cs
  have whole := List.take_append_drop (lengthWhile isWordPart cs) cs
  generalize cs.take (lengthWhile isWordPart cs) = own at whole ⊢
  generalize cs.drop (lengthWhile isWordPart cs) = rest at stop whole ⊢
  rw [settles, stop, Bool.not_false, Bool.true_and, Bool.not_eq_true', Bool.and_eq_false_iff]
  by_contra marked
  simp only [not_or, Bool.not_eq_false, beq_iff_eq, List.contains_iff_mem] at marked
  obtain ⟨known, quote⟩ := marked
  obtain ⟨ds, rfl⟩ := List.head?_eq_some_iff.mp quote
  refine bare ?_
  subst whole
  simp only [stringMarks, List.mem_cons, List.not_mem_nil, or_false] at known
  rcases known with h | h | h | h | h <;> cases h <;> simp [Marks]

theorem settles_symbol (arrow : ∀ ds, c = '-' → cs = '>' :: ds → False) (quote : c ≠ '\'')
    (plain : Text.opensComment (c :: cs) = false) : settles ⟨.symbol, [c]⟩ cs = true := by
  by_cases minus : c = '-'
  · subst minus
    cases cs with
    | nil => rfl
    | cons d ds => simpa [settles] using arrow ds rfl
  · by_cases slash : c = '/'
    · subst slash
      cases cs with
      | nil => rfl
      | cons d ds => simpa [settles, Text.opensComment_slash] using plain
    · simp [settles, minus, slash, quote]

theorem settles_punctuation (taken : punctuationExtent c cs = (kind, n)) (quote : c ≠ '\'')
    (plain : Text.opensComment (c :: cs) = false) :
    settles ⟨kind, c :: cs.take n⟩ (cs.drop n) = true := by
  unfold punctuationExtent at taken
  split at taken
  case h_21 arrow _ =>
    split at taken <;> cases taken
    · exact settles_symbol arrow quote plain
    · simp [settles, quote]
  case h_2 alone | h_15 alone =>
    cases taken
    cases cs <;> simp_all [settles]
  case h_20 alone =>
    cases taken
    rcases cs with _ | ⟨d, _ | ⟨e, ds⟩⟩ <;> simp_all [settles]
  all_goals
    cases taken
    rfl

theorem settles_extent (taken : extent c cs = (kind, n)) (remains : cs.drop n ≠ []) :
    settles ⟨kind, c :: cs.take n⟩ (cs.drop n) = true := by
  cases cuts_of_extent taken with
  | blanks | number => rw [settles, head?_drop_lengthWhile, Bool.not_false]
  | lineComment rest =>
    have stop := head?_drop_lengthWhile (· != '\n') rest
    rw [List.drop_succ_cons]
    generalize rest.drop _ = behind at stop ⊢
    cases behind <;> simp_all [settles]
  | blockComment =>
    by_contra opened
    exact remains (drop_commentBody (by simpa [settles] using opened))
  | directive =>
    have line := atLine_directiveBody cs
    rw [settles, Option.all_eq_true]
    exact fun d first => beq_iff_eq.mpr (line d first)
  | string known text => exact settles_string known text taken remains
  | char own => exact settles_char own
  | word ordinary => exact settles_word ordinary.bare
  | punctuation ordinary _ _ own => exact settles_punctuation own ordinary.apostrophe ordinary.plain

end Extents

/-- The lexeme is cut off some text, and does not end it where the end of the text ended it. -/
def Genuine (x : Lexeme) : Prop :=
  ∃ c cs n, extent c cs = (x.kind, n) ∧ x.text = c :: cs.take n ∧
    (x.kind = .directive ∨ x.kind = .stringLit false → cs.drop n ≠ [])

/-- Each lexeme ends where the next one starts, the last one before `tail`. -/
def Settled : List Lexeme → (tail : List Char) → Prop
  | [], _ => True
  | x :: xs, tail => x.settles (xs.flatMap text ++ tail) = true ∧ Settled xs tail

section Cutting
variable {cs tail : List Char} {x : Lexeme} {xs : List Lexeme}

theorem exists_extent_of_cut {before after : List Lexeme} (cuts : cut cs = before ++ x :: after) :
    ∃ c ds n, extent c ds = (x.kind, n) ∧ x.text = c :: ds.take n ∧
      ds.drop n = after.flatMap text := by
  have own := cut_flatMap cuts
  generalize (x :: after).flatMap text = ds at own
  cases ds with
  | nil => simp [cut] at own
  | cons c ds =>
    rw [cut] at own
    obtain ⟨rfl, rfl⟩ := List.cons.inj own
    exact ⟨c, ds, _, rfl, rfl, (flatten_cut _).symm⟩

theorem flatMap_text_ne_nil {before after : List Lexeme} (cuts : cut cs = before ++ after)
    (some : after ≠ []) : after.flatMap text ≠ [] := by
  obtain ⟨y, ys, rfl⟩ := List.exists_cons_of_ne_nil some
  have solid : y.text ≠ [] := text_ne_nil_of_mem_cut (cuts ▸ List.mem_append_cons_self)
  simp [solid]

theorem genuine_of_cut {before after : List Lexeme} (cuts : cut cs = before ++ x :: after)
    (behind : after ≠ []) : x.Genuine := by
  obtain ⟨c, ds, n, taken, text, rest⟩ := exists_extent_of_cut cuts
  have parts : cut cs = (before ++ [x]) ++ after := by simpa using cuts
  exact ⟨c, ds, n, taken, text, fun _ => rest ▸ flatMap_text_ne_nil parts behind⟩

theorem Genuine.cut_append (genuine : x.Genuine) (settled : x.settles tail = true) :
    cut (x.text ++ tail) = x :: cut tail := by
  obtain ⟨kind, text⟩ := x
  obtain ⟨c, cs, n, taken, rfl, remains⟩ := genuine
  have size : (cs.take n).length = n := List.length_take_of_le (extent_le taken)
  rw [List.cons_append, cut, extent_of_settles taken remains settled]
  simp only [List.take_left' size, List.drop_left' size]

theorem cut_settled (genuine : ∀ x ∈ xs, x.Genuine) (settled : Settled xs tail) :
    cut (xs.flatMap text ++ tail) = xs ++ cut tail := by
  induction xs with
  | nil => rfl
  | cons x xs ih =>
    obtain ⟨here, others⟩ := List.forall_mem_cons.mp genuine
    rw [List.flatMap_cons, List.append_assoc, here.cut_append settled.1, ih others settled.2,
      List.cons_append]

/-- Lexemes settle before the text of those behind them. -/
theorem settled_cut {before inner after : List Lexeme} (cuts : cut cs = before ++ (inner ++ after))
    (behind : after ≠ []) : Settled inner (after.flatMap text) := by
  induction inner generalizing before with
  | nil => trivial
  | cons x inner ih =>
    have rest : cut cs = (before ++ [x]) ++ (inner ++ after) := by simpa using cuts
    obtain ⟨kind, text⟩ := x
    obtain ⟨c, ds, n, taken, rfl, left⟩ := exists_extent_of_cut cuts
    have remains : (inner ++ after).flatMap Lexeme.text ≠ [] :=
      flatMap_text_ne_nil rest (by simp [behind])
    change ds.drop n = (inner ++ after).flatMap Lexeme.text at left
    rw [← left] at remains
    refine ⟨?_, ih rest⟩
    rw [← List.flatMap_append, ← left]
    exact settles_extent taken remains

theorem spelling_of_mem_cut {t : Token} (mem : x ∈ cut cs) (read : Lexing.tokenOf x = some t) :
    t.spelling.toList = x.text := by
  obtain ⟨before, after, cuts⟩ := List.append_of_mem mem
  cases accounted_cut cuts with
  | token own _ _ spelled =>
    obtain rfl := Option.some.inj (read.symm.trans own)
    exact spelled
  | fault silent => simp [read] at silent
  | quiet idle => simp [idle.1] at read

def tokens (cs : List Char) : List Token :=
  (cut cs).filterMap Lexing.tokenOf

theorem filterMap_tokenOf (p : Position) (xs : List Lexeme) :
    (Lexing.place p xs).tokens.map Placed.token = xs.filterMap Lexing.tokenOf ++ [Token.eof] := by
  induction xs generalizing p with
  | nil => rfl
  | cons x xs ih =>
    rw [Lexing.place, List.map_append, ih, List.filterMap_cons]
    cases Lexing.tokenOf x <;> rfl

theorem map_token_ofText (s : String) :
    (Lexing.ofText s).tokens.map Placed.token = tokens s.toList ++ [Token.eof] :=
  filterMap_tokenOf .start (cut s.toList)

theorem tokens_blank {c : Char} (blank : isSpace c = true) : tokens (c :: cs) = tokens cs := by
  have same := congrArg (fun l => l.tokens.map Placed.token)
    (show Lexing.place .start (cut (c :: cs)) = _ from Lexing.place_cut_blank blank)
  rw [filterMap_tokenOf, filterMap_tokenOf] at same
  exact List.append_cancel_right same

end Cutting

end Lexeme

namespace Token
open Lexeme (cut)

def lexeme (t : Token) : Lexeme :=
  let kind : LexemeKind :=
    match t with
    | .word _ => .word
    | .number _ => .number
    | .stringLit _ => .stringLit true
    | .charLit _ => .charLit
    | .mark m => .mark m
    | .symbol _ => .symbol
    | .eof => .stray
  ⟨kind, t.spelling.toList⟩

def Genuine (t : Token) : Prop :=
  t ≠ .eof ∧ t.lexeme.Genuine

theorem eq_lexeme_of_tokenOf {x : Lexeme} {t : Token} (read : Lexing.tokenOf x = some t)
    (spelled : t.spelling.toList = x.text) : x = t.lexeme := by
  obtain ⟨kind, text⟩ := x
  have kinds : kind = t.lexeme.kind := by
    unfold Lexing.tokenOf at read
    cases kind with
    | stringLit closed =>
      cases closed <;> cases read
      rfl
    | symbol =>
      obtain ⟨c, -, rfl⟩ := Option.map_eq_some_iff.mp read
      rfl
    | blank | lineComment | blockComment | directive | stray => cases read
    | word | number | charLit | mark =>
      cases read
      rfl
  rw [kinds, ← show _ = text from spelled]
  rfl

theorem tokenOf_lexeme {t : Token} (inside : t ≠ .eof) : Lexing.tokenOf t.lexeme = some t := by
  cases t <;> simp_all [lexeme, Lexing.tokenOf, spelling]

theorem genuine_of_mem {s : String} {t : Placed} (mem : t ∈ (Lexing.ofText s).tokens)
    (inside : t.token ≠ .eof) : t.token.Genuine := by
  obtain ⟨last, split, atEnd, -⟩ := Lexing.tokens_ofText ⟨default, s⟩
  dsimp only at split
  rw [split, List.mem_append, List.mem_singleton] at mem
  rcases mem with among | rfl
  · obtain ⟨x, spot, read⟩ := Lexing.mem_dropLast_tokens.mp among
    obtain ⟨before, after, cuts, -⟩ := Lexing.mem_spots.mp spot
    obtain ⟨c, ds, n, taken, text, -⟩ := Lexeme.exists_extent_of_cut cuts
    have own : x = t.token.lexeme :=
      eq_lexeme_of_tokenOf read (Lexeme.spelling_of_mem_cut (cuts ▸ List.mem_append_cons_self) read)
    refine ⟨inside, own ▸ ⟨c, ds, n, taken, text, fun open_ => ?_⟩⟩
    unfold Lexing.tokenOf at read
    rcases open_ with kind | kind <;> simp [kind] at read
  · exact absurd atEnd inside

theorem Genuine.tokens_append {t : Token} {tail : List Char} (genuine : t.Genuine)
    (settled : t.lexeme.settles tail = true) :
    Lexeme.tokens (t.spelling.toList ++ tail) = t :: Lexeme.tokens tail := by
  have whole : cut (t.spelling.toList ++ tail) = t.lexeme :: cut tail :=
    genuine.2.cut_append settled
  rw [Lexeme.tokens, whole, List.filterMap_cons, tokenOf_lexeme genuine.1]
  rfl

end Token

end HeaderMeta
