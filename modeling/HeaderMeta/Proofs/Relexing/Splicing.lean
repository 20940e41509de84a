import HeaderMeta.Proofs.Relexing

/-! A stretch of a file put into other text.

The text between two parentheses of a file is cut into the lexemes that it has there. Without the blanks
at its ends, and with a brace behind it, it still is, if and only if it ends clean (`endsClean`): a
comment, a directive or a literal that is not closed goes on into what stands behind it.
-/

set_option autoImplicit false

namespace HeaderMeta

namespace Text

theorem exists_trimChars (cs : List Char) : ∃ trail : List Char,
    trimStartChars cs = trimChars cs ++ trail ∧ ∀ c ∈ trail, isBlank c = true := by
  refine ⟨((trimStartChars cs).reverse.takeWhile isBlank).reverse, ?_,
    fun c mem => List.mem_takeWhile_imp (List.mem_reverse.mp mem)⟩
  rw [trimChars, trimEndChars, ← List.reverse_append, List.takeWhile_append_dropWhile,
    List.reverse_reverse]

theorem getLast?_trimChars {cs : List Char} : ∀ c ∈ (trimChars cs).getLast?, isBlank c = false := by
  intro c last
  have stop := List.head?_dropWhile_not isBlank (trimStartChars cs).reverse
  rw [trimChars, trimEndChars, List.getLast?_reverse] at last
  rw [Option.mem_def.mp last] at stop
  simpa using stop

end Text

namespace Lexeme
open Lexing (tokenOf)

def isApostrophe (x : Lexeme) : Bool :=
  (x.kind == .symbol || x.kind == .stray) && x.text.head? == some '\''

def isClosed (x : Lexeme) : Bool :=
  match x.kind with
  | .blank | .lineComment | .directive | .stringLit false | .blockComment false => false
  | _ => !x.isApostrophe

/-- Whether the last lexeme is closed. A backslash is not, where an apostrophe would take it for the start
of an escape. -/
def endsClean (xs : List Lexeme) : Bool :=
  match xs.reverse with
  | [] => true
  | [x] => x.isClosed
  | x :: y :: _ => x.isClosed && !(y.isApostrophe && x.text == ['\\'])

theorem endsClean_append (xs : List Lexeme) (x : Lexeme) : endsClean (xs ++ [x]) = true ↔
    x.isClosed = true ∧ ∀ y ∈ xs.getLast?, y.isApostrophe = true → x.text ≠ ['\\'] := by
  rcases List.eq_nil_or_concat' xs with rfl | ⟨front, y, rfl⟩
  · simp [endsClean]
  · cases quote : y.isApostrophe <;> simp [endsClean, quote]

section Swapping
variable {x : Lexeme} {xs : List Lexeme} {c : Char} {cs ds rest tail : List Char}

theorem charBody_append_eq_zero (filled : ds ≠ []) (slash : ds ≠ ['\\']) :
    charBody (ds ++ rest) = 0 ↔ charBody (ds ++ tail) = 0 := by
  match ds with
  | [d] =>
    have other : d ≠ '\\' := fun same => slash (by rw [same])
    simp [charBody, other]
  | d :: e :: ds =>
    by_cases escape : d = '\\'
    · subst escape
      by_cases line : e = '\n' <;> simp [charBody, line]
    · simp [charBody, escape]

/-- What follows some text hardly plays a part for the lexeme before that text. -/
theorem settles_swap (settled : x.settles (ds ++ rest) = true) (filled : ds ≠ [])
    (slash : x.isApostrophe = true → ds ≠ ['\\']) (dot : tail.head? ≠ some '.') :
    x.settles (ds ++ tail) = true := by
  have body (quote : x.isApostrophe = true) : charBody (ds ++ rest) = 0 ↔ charBody (ds ++ tail) = 0 :=
    charBody_append_eq_zero filled (slash quote)
  obtain ⟨d, ds, rfl⟩ := List.exists_cons_of_ne_nil filled
  simp only [List.cons_append] at body settled ⊢
  obtain ⟨kind, text⟩ := x
  -- only a dot and an apostrophe look further ahead than `d`
  cases kind with
  | mark m =>
    cases m with
    | dot =>
      cases ds with
      | nil =>
        cases tail with
        | nil => simp [settles]
        | cons e tail =>
          have other : e ≠ '.' := by simpa using dot
          simp [settles, other]
      | cons e ds => exact settled
    | _ => exact settled
  | symbol =>
    simp only [settles] at settled ⊢
    split at settled
    case h_3 => simpa [body rfl] using settled
    all_goals exact settled
  | stray =>
    by_cases quote : text.head? = some '\''
    · simpa [settles, body (by simp [isApostrophe, quote])] using settled
    · simp [settles, quote]
  | _ => exact settled

theorem settled_swap (texts : ∀ x ∈ xs, x.text ≠ []) (settled : Settled xs (ds ++ rest))
    (filled : ds ≠ []) (slash : ∀ y ∈ xs.getLast?, y.isApostrophe = true → ds ≠ ['\\'])
    (dot : tail.head? ≠ some '.') : Settled xs (ds ++ tail) := by
  induction xs with
  | nil => trivial
  | cons x xs ih =>
    obtain ⟨-, others⟩ := List.forall_mem_cons.mp texts
    obtain ⟨here, behind⟩ := settled
    rw [← List.append_assoc] at here
    refine ⟨?_, ih others behind fun y last => slash y (by simp_all [List.getLast?_cons])⟩
    rw [← List.append_assoc]
    refine settles_swap here (by simp [filled]) (fun quote => ?_) dot
    cases xs with
    | nil => exact slash x rfl quote
    | cons y xs =>
      -- a text and `ds` behind it are more than one character
      obtain ⟨d, ds', rfl⟩ := List.exists_cons_of_ne_nil filled
      obtain ⟨e, es, text⟩ := List.exists_cons_of_ne_nil (others y List.mem_cons_self)
      simp [text]

theorem settles_stop (closed : x.isClosed = true) (stop : c = '}' ∨ Text.isBlank c = true) :
    x.settles (c :: tail) = true := by
  have solid (d : Char) (bare : d ≠ '}') (solid : Text.isBlank d = false) : c ≠ d := by
    rintro rfl
    rcases stop with same | blank
    · exact bare same
    · simp [solid] at blank
  have other : c ≠ ':' ∧ c ≠ '&' ∧ c ≠ '.' ∧ c ≠ '>' ∧ c ≠ '/' ∧ c ≠ '*' ∧ c ≠ '"' ∧ c ≠ '\'' := by
    refine ⟨?_, ?_, ?_, ?_, ?_, ?_, ?_, ?_⟩ <;> exact solid _ (by decide) (by decide)
  have noPart : isWordPart c = false := by
    rcases stop with rfl | blank
    · rfl
    · by_contra part
      simp [Grammar.isBlank_eq_false_of_isWordPart (by simpa using part)] at blank
  obtain ⟨kind, text⟩ := x
  cases kind with
  | mark m => cases m <;> simp [settles, other]
  | symbol =>
    simp only [settles]
    split <;> simp_all [isClosed, isApostrophe]
  | stray => simp_all [settles, isClosed, isApostrophe]
  | stringLit done | blockComment done =>
    cases done with
    | true => rfl
    | false => cases closed
  | blank | lineComment | directive => cases closed
  | charLit => rfl
  | word => simp [settles, noPart, other]
  | number => simp [settles, isNumberPart, noPart, other]

theorem settles_end (settled : x.settles (ds ++ ')' :: rest) = true) : x.settles ds = true := by
  have body : charBody (ds ++ ')' :: rest) = 0 → charBody ds = 0 := by
    match ds with
    | [] => exact fun _ => rfl
    | [d] =>
      by_cases escape : d = '\\'
      · subst escape
        simp [charBody]
      · simp [charBody, escape]
    | d :: e :: ds =>
      by_cases escape : d = '\\'
      · subst escape
        by_cases line : e = '\n' <;> simp [charBody, line]
      · simp [charBody, escape]
  obtain ⟨kind, text⟩ := x
  cases kind with
  | mark m =>
    cases m with
    | dot => rcases ds with _ | ⟨d, _ | ⟨e, ds⟩⟩ <;> simp_all [settles]
    | _ => cases ds <;> simp_all [settles]
  | symbol =>
    simp only [settles] at settled ⊢
    split at settled
    case h_3 => simpa using body (beq_iff_eq.mp settled)
    all_goals cases ds <;> simp_all
  | stray =>
    simp only [settles, Bool.or_eq_true, Bool.and_eq_true, beq_iff_eq, bne_iff_ne] at settled ⊢
    refine settled.imp_right fun both => ⟨body both.1, ?_⟩
    cases ds <;> simp_all
  | _ => cases ds <;> simp_all [settles]

end Swapping

section Running
variable {c : Char} {cs : List Char} {x : Lexeme} {kind : LexemeKind}

theorem charBody_append (body : charBody cs = cs.length) (tail : List Char) :
    charBody (cs ++ tail) = cs.length + charBody tail := by
  fun_induction charBody cs with
  | case1 => simp
  | case2 => simp at body
  | case3 c cs line ih =>
    rw [List.cons_append, List.cons_append, charBody, if_neg line, ih (by simpa using body)]
    simp only [List.length_cons]
    omega
  | case4 => simp at body
  | case5 c cs notEscape inside ih =>
    rw [List.cons_append, charBody, if_neg inside, ih (by simpa using body), List.length_cons]
    · omega
    · rintro d ds rfl
      simp at inside

theorem directiveBody_brace (whole : directiveBody cs = cs.length) :
    directiveBody (cs ++ ['}', ';']) = cs.length + 2 := by
  fun_induction directiveBody cs with
  | case1 => rfl
  | case2 => simp at whole
  | case3 => rfl
  | case4 cs ih => simpa [directiveBody] using ih (by simpa using whole)
  | case5 c cs notReturn ih =>
    rw [List.cons_append, List.cons_append, directiveBody, ih (by simpa using whole)]
    · rfl
    · rintro ds rfl same
      rcases cs with _ | ⟨d, cs⟩
      · cases same
      · obtain ⟨rfl, -⟩ := List.cons.inj same
        exact notReturn cs rfl rfl
  | case6 c cs notLine notLast notReturn notEscape ih =>
    cases cs with
    | nil =>
      have plain : c ≠ '\\' := fun escape => notLast escape rfl
      simp [directiveBody, plain]
    | cons d cs =>
      rw [List.cons_append, directiveBody, ih (by simpa using whole)]
      · rfl
      · exact notLine
      · exact fun _ none => by cases none
      · rintro ds rfl same
        exact notEscape d cs rfl rfl
      · rintro e es rfl same
        exact notEscape d cs rfl rfl

theorem stringBody_brace (opened : (stringBody cs).2 = false) (whole : (stringBody cs).1 = cs.length) :
    stringBody (cs ++ ['}', ';']) = (cs.length + 2, false) := by
  fun_induction stringBody cs with
  | case1 => rfl
  | case2 => cases opened
  | case3 => simp at whole
  | case4 c cs n closed body ih =>
    rw [body] at ih
    rw [List.cons_append, List.cons_append, stringBody, ih opened (by simpa using whole)]
    rfl
  | case5 c cs notQuote notLine notEscape n closed body ih =>
    rw [body] at ih
    cases cs with
    | nil =>
      by_cases escape : c = '\\'
      · subst escape
        rfl
      · simp [stringBody, escape]
    | cons d cs =>
      rw [List.cons_append, stringBody, ih opened (by simpa using whole)]
      · rfl
      · exact notQuote
      · exact notLine
      · rintro e es rfl same
        exact notEscape d cs rfl rfl

theorem commentBody_brace (opened : (commentBody cs).2 = false) :
    commentBody (cs ++ ['}', ';']) = (cs.length + 2, false) := by
  fun_induction commentBody cs with
  | case1 => rfl
  | case2 => cases opened
  | case3 c cs notEnd n closed body ih =>
    rw [body] at ih
    rw [List.cons_append, commentBody, ih opened]
    · rfl
    · rintro ds rfl same
      rcases cs with _ | ⟨d, cs⟩
      · cases same
      · obtain ⟨rfl, -⟩ := List.cons.inj same
        exact notEnd cs rfl rfl

theorem charBody_of_charExtent {n : Nat} (taken : charExtent cs = (kind, n)) (opened : kind ≠ .charLit) :
    charBody cs = n := by
  cases charCuts_of_charExtent taken with
  | bare none => exact none
  | closed => exact absurd rfl opened
  | opened => rfl

theorem charExtent_of_whole (body : charBody cs = cs.length) : (charExtent cs).2 = cs.length := by
  unfold charExtent
  split
  next none => exact none.symm.trans body
  next m more =>
    have size : cs.length = m + 1 := body.symm.trans more
    simp [size]

theorem extent_string_brace {mark ds : List Char} (known : mark ∈ stringMarks)
    (text : mark ++ '"' :: ds = c :: cs) (taken : extent c cs = (kind, cs.length))
    (opened : kind = .stringLit false) : (extent c (cs ++ ['}', ';'])).2 = cs.length + 2 := by
  have size := congrArg List.length text
  simp only [List.length_append, List.length_cons] at size
  rw [extent_string known text] at taken
  obtain ⟨rfl, length⟩ := Prod.mk.inj taken
  have longer : mark ++ '"' :: (ds ++ ['}', ';']) = c :: (cs ++ ['}', ';']) := by
    rw [← List.cons_append, ← List.cons_append, ← text, List.append_assoc]
  rw [extent_string known longer, stringBody_brace (by simpa using opened) (by omega)]
  dsimp only
  omega

theorem forall_of_lengthWhile {part : Char → Bool} (whole : lengthWhile part cs = cs.length) :
    ∀ c ∈ cs, part c = true := by
  have all : cs.takeWhile part = cs := (List.takeWhile_prefix part).eq_of_length whole
  exact fun c mem => List.mem_takeWhile_imp (all.symm ▸ mem)

theorem isClosed_punctuation {n : Nat} (taken : punctuationExtent c cs = (kind, n))
    (bare : ∀ {kind : LexemeKind}, isApostrophe ⟨kind, c :: cs⟩ = false) :
    isClosed ⟨kind, c :: cs⟩ = true := by
  unfold punctuationExtent at taken
  split at taken
  case h_21 => split at taken <;> cases taken <;> simp [isClosed, bare]
  all_goals
    cases taken
    simp [isClosed, bare]

theorem extent_brace (taken : extent c cs = (kind, cs.length))
    (opened : isClosed ⟨kind, c :: cs⟩ = false)
    (solid : ∀ d ∈ (c :: cs).getLast?, Text.isBlank d = false) :
    (extent c (cs ++ ['}', ';'])).2 = cs.length + 2 := by
  generalize size : cs.length = n at taken ⊢
  cases cuts_of_extent taken with
  | blanks space =>
    -- the last character is a blank
    have all : ∀ d ∈ c :: cs, isSpace d = true :=
      List.forall_mem_cons.mpr ⟨space, forall_of_lengthWhile size.symm⟩
    have final := List.getLast_mem (List.cons_ne_nil c cs)
    have blank := Grammar.isBlank_of_isSpace (all _ final)
    rw [solid _ (List.getLast?_eq_some_getLast _)] at blank
    cases blank
  | lineComment rest =>
    have line : lengthWhile (· != '\n') rest = rest.length := Nat.succ.inj size.symm
    change lengthWhile (· != '\n') (rest ++ ['}', ';']) + 1 = _
    rw [lengthWhile, List.takeWhile_append_of_pos (forall_of_lengthWhile line)]
    simp [← line, lengthWhile]
  | blockComment rest =>
    cases done : (commentBody rest).2 with
    | true => simp [done, isClosed, isApostrophe] at opened
    | false =>
      rw [← size]
      change (commentBody (rest ++ ['}', ';'])).1 + 1 = _
      rw [commentBody_brace done]
      rfl
  | directive =>
    rw [← size]
    exact directiveBody_brace size.symm
  | @string _ mark ds _ known text =>
    rw [← size] at taken ⊢
    refine extent_string_brace known text taken ?_
    cases done : (stringBody ds).2 with
    | false => rfl
    | true => simp [done, isClosed, isApostrophe] at opened
  | char own =>
    have body : charBody _ = _ := charBody_of_charExtent own (by rintro rfl; cases opened)
    rw [← size] at body ⊢
    have longer := charBody_append body ['}', ';']
    exact (charExtent_of_whole (by simpa [charBody] using longer)).trans (by simp)
  -- words, numbers and punctuation are closed
  | word ordinary | number ordinary =>
    simp [isClosed, isApostrophe, ordinary.apostrophe] at opened
  | punctuation ordinary _ _ own =>
    have bare {kind : LexemeKind} : isApostrophe ⟨kind, c :: cs⟩ = false := by
      simpa [isApostrophe] using fun _ => ordinary.apostrophe
    simp [isClosed_punctuation own bare] at opened

end Running

section Blanks
variable {c : Char} {cs : List Char}

theorem extent_wide (wide : 128 ≤ c.toNat) : extent c cs = (.stray, 0) := by
  have other {d : Char} (low : d.toNat < 128) : c ≠ d := by
    rintro rfl
    omega
  have solid : isSpace c = false := by
    simp [isSpace, other]
  have start : isWordStart c = false := by
    by_contra part
    have range := toNat_of_isWordPart (isWordPart_of_isWordStart (by simpa using part))
    omega
  have digit : c.isDigit = false := by
    by_contra digit
    have range := toNat_of_isWordPart (c := c) (by simp_all [isWordPart, Char.isAlphanum])
    omega
  have ordinary : Ordinary c cs := by
    refine ⟨solid, Text.opensComment_cons (other (by decide)), other (by decide), other (by decide),
      other (by decide), ?_⟩
    rintro (⟨rfl, -⟩ | ⟨rfl | rfl | rfl, -⟩) <;> simp at wide
  rw [ordinary.extent_eq, if_neg (by simp [start]), if_neg (by simp [digit])]
  unfold punctuationExtent
  split
  case h_21 => simp [isSymbol, other]
  all_goals simp at wide

/-- The blanks that are no spaces to the lexer are outside ASCII. -/
theorem wide_of_isBlank (blank : Text.isBlank c = true) (solid : isSpace c = false) :
    128 ≤ c.toNat := by
  have named (d : Char) (space : isSpace d = true) : c.toNat ≠ d.toNat := by
    intro same
    rw [Char.toNat_inj.mp same, space] at solid
    cases solid
  have a := named ' ' rfl
  have b := named '\t' rfl
  have c' := named '\r' rfl
  have d := named '\n' rfl
  have e := named '\x0c' rfl
  have f := named '\x0b' rfl
  simp [Text.isBlank] at blank a b c' d e f
  omega

theorem tokens_trimStart (cs : List Char) : tokens (Text.trimStartChars cs) = tokens cs := by
  induction cs with
  | nil => rfl
  | cons c cs ih =>
    cases blank : Text.isBlank c with
    | false => rw [Text.trimStartChars, List.dropWhile_cons_of_neg (by simp [blank])]
    | true =>
      rw [Text.trimStartChars, List.dropWhile_cons_of_pos blank]
      refine ih.trans ?_
      cases space : isSpace c with
      | true => exact (tokens_blank space).symm
      | false =>
        rw [tokens, tokens, cut, extent_wide (wide_of_isBlank blank space)]
        rfl

end Blanks

section Splicing
variable {c : Char} {cs rest tail : List Char} {xs : List Lexeme} {x : Lexeme}

theorem cut_whole (whole : (extent c cs).2 = cs.length) : ∃ z, cut (c :: cs) = [z] := by
  rw [cut]
  dsimp only
  rw [whole, List.drop_length, cut]
  exact ⟨_, rfl⟩

theorem text_of_cut_last {front : List Lexeme} (cuts : cut cs = front ++ [x]) :
    ∃ c ds, extent c ds = (x.kind, ds.length) ∧ x.text = c :: ds := by
  obtain ⟨c, ds, n, taken, text, left⟩ := exists_extent_of_cut cuts
  have whole : n = ds.length := Nat.le_antisymm (extent_le taken) (List.drop_eq_nil_iff.mp left)
  subst whole
  exact ⟨c, ds, taken, by rw [text, List.take_length]⟩

/-- Lexemes at the front of a text are there again before another text that starts as the rest does. -/
theorem cut_swap {front back : List Lexeme} (cuts : cut cs = front ++ back) (behind : back ≠ [])
    (slash : ∀ y ∈ front.getLast?, y.isApostrophe = true → back.flatMap text ≠ ['\\'])
    (dot : tail.head? ≠ some '.') : cut (cs ++ tail) = front ++ cut (back.flatMap text ++ tail) := by
  have texts : ∀ x ∈ front, x.text ≠ [] := fun x mem =>
    text_ne_nil_of_mem_cut (cuts ▸ List.mem_append_left _ mem)
  have genuine : ∀ x ∈ front, x.Genuine := by
    intro x mem
    obtain ⟨before, after, rfl⟩ := List.append_of_mem mem
    have parts : cut cs = before ++ x :: (after ++ back) := by simp [cuts]
    exact genuine_of_cut parts (by simp [behind])
  have settled : Settled front (back.flatMap text ++ []) := by
    rw [List.append_nil]
    exact settled_cut (show cut cs = [] ++ (front ++ back) from cuts) behind
  have swapped : Settled front (back.flatMap text ++ tail) :=
    settled_swap texts settled (flatMap_text_ne_nil cuts behind) slash dot
  rw [← cut_settled genuine swapped, ← List.append_assoc, ← List.flatMap_append, ← cuts, flatten_cut]

/-- A text that ends clean keeps its lexemes before a brace and before a blank. -/
theorem cut_append_of_endsClean (clean : endsClean (cut cs) = true)
    (stop : c = '}' ∨ Text.isBlank c = true) : cut (cs ++ c :: tail) = cut cs ++ cut (c :: tail) := by
  have dot : (c :: tail).head? ≠ some '.' := by
    rintro ⟨⟩
    revert stop
    decide
  rcases List.eq_nil_or_concat' (cut cs) with none | ⟨front, x, cuts⟩
  · have empty : cs = [] := by rw [← flatten_cut cs, none, List.flatMap_nil]
    rw [none, empty]
    rfl
  · rw [cuts] at clean ⊢
    obtain ⟨closed, slash⟩ := (endsClean_append front x).mp clean
    obtain ⟨d, ds, taken, text⟩ := text_of_cut_last cuts
    have genuine : x.Genuine := by
      refine ⟨d, ds, ds.length, taken, by rw [text, List.take_length], fun opened => ?_⟩
      rcases opened with kind | kind <;> simp [isClosed, kind] at closed
    rw [cut_swap cuts (by simp) (by simpa using slash) dot, List.flatMap_singleton,
      genuine.cut_append (settles_stop closed stop), List.append_assoc, List.singleton_append]

/-- In a text that does not, some lexeme at the end takes the brace as well. -/
theorem cut_brace_of_not_endsClean (opened : endsClean (cut cs) = false)
    (last : ∀ c ∈ cs.getLast?, Text.isBlank c = false) : ∃ (front back : List Lexeme) (z : Lexeme),
      (∀ tail : List Char, tail.head? ≠ some '.' →
        cut (cs ++ tail) = front ++ cut (back.flatMap text ++ tail)) ∧
      cut (back.flatMap text ++ ['}', ';']) = [z] := by
  rcases List.eq_nil_or_concat' (cut cs) with none | ⟨front, x, cuts⟩
  · rw [none] at opened
    cases opened
  -- either the last lexeme is not closed, or it is the backslash that an apostrophe makes an escape
  by_cases slash : ∀ y ∈ front.getLast?, y.isApostrophe = true → x.text ≠ ['\\']
  · obtain ⟨c, ds, taken, text⟩ := text_of_cut_last cuts
    have unclosed : isClosed ⟨x.kind, c :: ds⟩ = false := by
      rw [← text]
      by_contra closed
      rw [cuts, (endsClean_append front x).mpr ⟨by simpa using closed, slash⟩] at opened
      cases opened
    have final : ∀ d ∈ (c :: ds).getLast?, Text.isBlank d = false := by
      rwa [← flatten_cut cs, cuts, List.flatMap_append, List.flatMap_singleton, text,
        List.getLast?_append_of_ne_nil _ (List.cons_ne_nil c ds)] at last
    obtain ⟨z, own⟩ : ∃ z, cut (c :: (ds ++ ['}', ';'])) = [z] :=
      cut_whole (by rw [extent_brace taken unclosed final]; simp)
    refine ⟨front, [x], z, fun tail => cut_swap cuts (by simp) (by simpa using slash), ?_⟩
    rw [List.flatMap_singleton, text]
    exact own
  · push Not at slash
    obtain ⟨y, final, quote, text⟩ := slash
    obtain ⟨front, rfl⟩ := List.getLast?_eq_some_iff.mp final
    have parts : cut cs = front ++ [y, x] := by simp [cuts]
    obtain ⟨c, ds, n, taken, own, left⟩ := exists_extent_of_cut parts
    obtain ⟨-, rfl⟩ : _ ∧ c = '\'' := by simpa [isApostrophe, own] using quote
    have whole : charBody ds = n := by
      refine charBody_of_charExtent taken fun kind => ?_
      simp [isApostrophe, kind] at quote
    have body : charBody (ds.take n) = (ds.take n).length := by
      have again : charBody (ds.take n ++ []) = n := whole ▸ charBody_take_of_stop rfl
      rw [List.append_nil] at again
      rw [again, List.length_take_of_le (extent_le taken)]
    obtain ⟨z, alone⟩ : ∃ z, cut ('\'' :: (ds.take n ++ ['\\', '}', ';'])) = [z] :=
      cut_whole (charExtent_of_whole (by simpa [charBody] using charBody_append body ['\\', '}', ';']))
    refine ⟨front, [y, x], z, fun tail => cut_swap parts (by simp) ?_, ?_⟩
    · simp [own, text]
    · simpa [own, text] using alone

theorem cut_inner (genuine : ∀ x ∈ xs, x.Genuine) (settled : Settled xs (')' :: rest)) :
    cut (xs.flatMap text) = xs := by
  have ended : Settled xs [] := by
    induction xs with
    | nil => trivial
    | cons x xs ih =>
      refine ⟨?_, ih (List.forall_mem_cons.mp genuine).2 settled.2⟩
      rw [List.append_nil]
      exact settles_end settled.1
  have whole := cut_settled genuine ended
  rwa [List.append_nil, cut, List.append_nil] at whole

theorem tokens_append_of_endsClean (clean : endsClean (cut cs) = true)
    (stop : c = '}' ∨ Text.isBlank c = true) :
    tokens (cs ++ c :: tail) = tokens cs ++ tokens (c :: tail) := by
  unfold tokens
  rw [cut_append_of_endsClean clean stop, List.filterMap_append]

theorem tokens_trimChars (clean : endsClean (cut (Text.trimChars cs)) = true) :
    tokens (Text.trimChars cs) = tokens cs := by
  obtain ⟨trail, whole, blank⟩ := Text.exists_trimChars cs
  have quiet : tokens trail = [] := by
    have gone : Text.trimStartChars trail = [] := List.dropWhile_eq_nil_iff.mpr blank
    rw [← tokens_trimStart, gone, tokens, cut, List.filterMap_nil]
  rw [← tokens_trimStart cs, whole]
  cases trail with
  | nil => rw [List.append_nil]
  | cons c trail =>
    rw [tokens_append_of_endsClean clean (.inr (blank c List.mem_cons_self)), quiet, List.append_nil]

/-- What takes the brace is one token at most, and all before it stands in both texts. -/
theorem length_tokens_braced (opened : endsClean (cut (Text.trimChars cs)) = false) :
    (tokens (Text.trimChars cs ++ ['}', ';'])).length < (tokens cs).length + 2 := by
  obtain ⟨trail, whole, blank⟩ := Text.exists_trimChars cs
  obtain ⟨front, back, z, swap, alone⟩ := cut_brace_of_not_endsClean opened Text.getLast?_trimChars
  have dot : trail.head? ≠ some '.' := by
    intro first
    have none := blank '.' (List.mem_of_mem_head? first)
    cases none
  have single : ([z].filterMap tokenOf).length ≤ [z].length := List.length_filterMap_le tokenOf [z]
  rw [← tokens_trimStart cs, whole, tokens, tokens, swap _ dot, swap _ (by simp), alone]
  simp only [List.filterMap_append, List.length_append, List.length_cons, List.length_nil] at single ⊢
  omega

/-- Text between braces is read as the tokens that it has elsewhere, if and only if it ends clean. -/
theorem tokens_braced_iff : tokens (Text.trimChars cs ++ ['}', ';']) =
    tokens cs ++ [Token.mark .closeBrace, Token.mark .semicolon] ↔
      endsClean (cut (Text.trimChars cs)) = true := by
  constructor
  · intro read
    by_contra opened
    have short := length_tokens_braced (by simpa using opened)
    rw [read, List.length_append] at short
    exact absurd short (Nat.lt_irrefl _)
  · intro clean
    have closing : tokens ['}', ';'] = [.mark .closeBrace, .mark .semicolon] := by decide +kernel
    rw [tokens_append_of_endsClean clean (.inl rfl), tokens_trimChars clean, closing]

end Splicing

end Lexeme

namespace Lexing
open Lexeme (cut)

theorem exists_lexeme_of_tokens {p : Position} {xs : List Lexeme} {before after : List Placed}
    {t : Placed} (split : (place p xs).tokens = before ++ t :: after) (inside : t.token ≠ .eof) :
    ∃ ys x zs, xs = ys ++ x :: zs ∧ tokenOf x = some t.token ∧
      t.span = (p.after (ys.flatMap Lexeme.text)).spanOf x.text ∧
      before.map Placed.token = ys.filterMap tokenOf ∧
      (place ((p.after (ys.flatMap Lexeme.text)).after x.text) zs).tokens = after := by
  induction xs generalizing p before with
  | nil =>
    cases before with
    | nil =>
      obtain ⟨rfl, -⟩ := List.cons.inj split
      exact absurd rfl inside
    | cons b before => simp [place] at split
  | cons y xs ih =>
    -- where the token is that of a later lexeme, `y` is one of those before it
    have later {before : List Placed} (split : (place (p.after y.text) xs).tokens = before ++ t :: after) :
        ∃ ys x zs, y :: xs = y :: ys ++ x :: zs ∧ tokenOf x = some t.token ∧
          t.span = (p.after ((y :: ys).flatMap Lexeme.text)).spanOf x.text ∧
          before.map Placed.token = ys.filterMap tokenOf ∧
          (place ((p.after ((y :: ys).flatMap Lexeme.text)).after x.text) zs).tokens = after := by
      obtain ⟨ys, x, zs, rfl, found⟩ := ih split
      refine ⟨ys, x, zs, rfl, ?_⟩
      rwa [List.flatMap_cons, Position.after_append]
    rw [place] at split
    dsimp only at split
    cases read : tokenOf y with
    | none =>
      rw [read] at split
      obtain ⟨ys, x, zs, parts, own, span, front, rest⟩ := later split
      exact ⟨y :: ys, x, zs, parts, own, span, by rw [front, List.filterMap_cons, read], rest⟩
    | some u =>
      rw [read] at split
      cases before with
      | nil =>
        obtain ⟨rfl, rest⟩ := List.cons.inj split
        exact ⟨[], y, xs, rfl, read, rfl, rfl, rest⟩
      | cons b before =>
        obtain ⟨rfl, more⟩ := List.cons.inj split
        obtain ⟨ys, x, zs, parts, own, span, front, rest⟩ := later more
        exact ⟨y :: ys, x, zs, parts, own, span, by rw [List.map_cons, front, List.filterMap_cons, read],
          rest⟩

/-- The text between two parentheses of a file is read as the tokens between them. -/
theorem tokens_between {source : Source} {before inner after : Tokens} {s₁ s₂ : Span}
    (split : (ofText source.text).tokens =
      before ++ ⟨.mark .openParen, s₁⟩ :: (inner ++ ⟨.mark .closeParen, s₂⟩ :: after)) :
    Lexeme.tokens (source.slice s₁.stop s₂.start) = inner.map Placed.token := by
  obtain ⟨ys, x, zs, cuts, -, opens, -, behind⟩ := exists_lexeme_of_tokens split (by simp)
  obtain ⟨xs, y, ws, rfl, read, closes, own, -⟩ := exists_lexeme_of_tokens behind (by simp)
  have whole : cut source.text.toList = (ys ++ [x]) ++ (xs ++ y :: ws) := by simp [cuts]
  have slice : source.slice s₁.stop s₂.start = xs.flatMap Lexeme.text := by
    have text : source.text.toList = (ys.flatMap Lexeme.text ++ x.text) ++
        (xs.flatMap Lexeme.text ++ (y :: ws).flatMap Lexeme.text) := by
      rw [← Lexeme.flatten_cut source.text.toList, whole]
      simp
    have between := Source.slice_after text
    rw [Position.after_append] at between
    dsimp only at opens closes
    subst opens closes
    exact between
  -- alone the lexemes between the parentheses are cut as they are here: each is genuine, and ends
  -- before the parenthesis
  have genuine : ∀ z ∈ xs, z.Genuine := by
    intro z mem
    obtain ⟨front, back, rfl⟩ := List.append_of_mem mem
    have parts : cut source.text.toList = (ys ++ [x] ++ front) ++ z :: (back ++ y :: ws) := by
      simp [whole]
    exact Lexeme.genuine_of_cut parts (by simp)
  have settled : Lexeme.Settled xs (')' :: ws.flatMap Lexeme.text) := by
    have paren : y.text = [')'] := by
      have mem : y ∈ cut source.text.toList := by simp [whole]
      rw [← Lexeme.spelling_of_mem_cut mem read]
      simp [Token.spelling, Mark.spelling]
    have here := Lexeme.settled_cut whole (List.cons_ne_nil y ws)
    rwa [List.flatMap_cons, paren] at here
  rw [slice, Lexeme.tokens, Lexeme.cut_inner genuine settled]
  exact own.symm

end Lexing

end HeaderMeta
