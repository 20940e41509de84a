import HeaderMeta.Proofs.Comments.Stripping
import HeaderMeta.Token.Scan
import Mathlib.Data.List.TakeWhile

/-! What the lexemes of a text stand for, and how far they look ahead.

A lexeme keeps its kind and its end when comments behind it are replaced by blanks (`extent_near`). The
body of a literal or directive ends at the same place whatever follows it, except for a literal that
is left open at the end of its line.
-/

set_option autoImplicit false

namespace HeaderMeta

namespace Lexeme
open Text

/-- What a lexeme stands for: a token, or an include target and its delimiter. -/
def sign (x : Lexeme) : Option (Token ⊕ String × Bool) :=
  match Lexing.tokenOf x with
  | some t => some (.inl t)
  | none => (Lexing.includeOf x {}).map fun i => .inr (i.target, i.angled)

/-- What a text stands for, places apart. -/
def signs (cs : List Char) : List (Token ⊕ String × Bool) :=
  (cut cs).filterMap sign

section Reading
variable {c : Char} {cs rest : List Char} {kind : LexemeKind} {n : Nat}

theorem signs_cons (taken : extent c cs = (kind, n)) :
    signs (c :: cs) = (sign ⟨kind, c :: cs.take n⟩).toList ++ signs (cs.drop n) := by
  rw [signs, cut, taken, List.filterMap_cons]
  cases sign ⟨kind, c :: cs.take n⟩ <;> rfl

theorem signs_of_isSpace (blank : isSpace c = true) :
    signs (c :: cs) = signs (cs.drop (lengthWhile isSpace cs)) := by
  have taken : extent c cs = (.blank, lengthWhile isSpace cs) := by
    unfold extent
    rw [if_pos blank]
  exact signs_cons taken

theorem signs_blank (blank : isSpace c = true) : signs (c :: cs) = signs cs := by
  rw [signs_of_isSpace blank]
  cases cs with
  | nil => rfl
  | cons d ds =>
    cases next : isSpace d with
    | true => simp [signs_of_isSpace next, lengthWhile, next]
    | false => simp [lengthWhile, next]

theorem signs_blanks {gap : List Char} (blank : gap.all isSpace = true) :
    signs (gap ++ rest) = signs rest := by
  induction gap with
  | nil => rfl
  | cons c gap ih =>
    obtain ⟨here, later⟩ := Bool.and_eq_true_iff.mp blank
    exact (signs_blank here).trans (ih later)

end Reading

section Lookahead
variable {c : Char} {cs ds : List Char}

theorem lengthWhile_near {part : Char → Bool} (slash : part '/' = false)
    (blank : ∀ c, isSpace c = true → part c = false) (near : Near cs ds) :
    lengthWhile part ds = lengthWhile part cs := by
  unfold lengthWhile
  induction near with
  | nil => rfl
  | cons c near ih =>
    rw [List.takeWhile_cons, List.takeWhile_cons]
    split
    · rw [List.length_cons, List.length_cons, ih]
    · rfl
  -- a comment ended the run before, and the blank in its place ends it now
  | @gone cs ds first =>
    have stop : ds.takeWhile part = [] := by
      cases ds with
      | nil => rfl
      | cons d ds => simp [blank d (first d rfl)]
    rw [stop, List.takeWhile_cons, slash]
    rfl

def Marks (c : Char) (cs : List Char) : Prop :=
  c = 'u' ∧ (∃ ds, cs = '8' :: '"' :: ds) ∨ (c = 'u' ∨ c = 'U' ∨ c = 'L') ∧ ∃ ds, cs = '"' :: ds

theorem near_cons {d : Char} (near : Near cs ds) (slash : d ≠ '/') (solid : isSpace d = false) :
    (∃ es, cs = d :: es) ↔ ∃ es, ds = d :: es := by
  cases near with
  | nil => simp
  | cons c near => simp
  | gone cs first =>
    refine ⟨?_, ?_⟩
    · rintro ⟨es, same⟩
      exact absurd (List.cons.inj same).1.symm slash
    · rintro ⟨es, rfl⟩
      rw [first d rfl] at solid
      cases solid

/-- At a lexeme that is no blank, comment, directive or literal. -/
structure Ordinary (c : Char) (cs : List Char) : Prop where
  solid : isSpace c = false
  plain : opensComment (c :: cs) = false
  directive : c ≠ '#'
  quote : c ≠ '"'
  apostrophe : c ≠ '\''
  bare : ¬ Marks c cs

theorem Ordinary.extent_eq (ordinary : Ordinary c cs) :
    extent c cs =
      if isWordStart c then (.word, lengthWhile isWordPart cs)
      else if c.isDigit then (.number, lengthWhile isNumberPart cs)
      else punctuationExtent c cs := by
  unfold extent
  rw [if_neg (by simp [ordinary.solid])]
  split
  case h_1 => exact absurd ordinary.plain (by simp [opensComment])
  case h_2 => exact absurd ordinary.plain (by simp [opensComment])
  case h_3 => exact absurd rfl ordinary.directive
  case h_4 => exact absurd rfl ordinary.quote
  case h_5 => exact absurd rfl ordinary.apostrophe
  case h_6 ds => exact absurd (.inl ⟨rfl, ds, rfl⟩) ordinary.bare
  case h_7 ds => exact absurd (.inr ⟨.inl rfl, ds, rfl⟩) ordinary.bare
  case h_8 ds => exact absurd (.inr ⟨.inr (.inl rfl), ds, rfl⟩) ordinary.bare
  case h_9 ds => exact absurd (.inr ⟨.inr (.inr rfl), ds, rfl⟩) ordinary.bare
  case h_10 => rfl

theorem punctuationExtent_near (near : Near cs ds) :
    punctuationExtent c ds = punctuationExtent c cs := by
  cases near with
  | nil => rfl
  | cons d near =>
    cases near with
    | nil => rfl
    | cons e near =>
      unfold punctuationExtent
      split <;> simp_all
    | gone cs first =>
      unfold punctuationExtent
      split <;> simp_all [isSpace]
  | gone cs first =>
    unfold punctuationExtent
    split <;> simp_all [isSpace]

theorem marks_near (near : Near cs ds) : Marks c ds ↔ Marks c cs := by
  have quoted : (∃ es, cs = '"' :: es) ↔ ∃ es, ds = '"' :: es := near_cons near (by decide) rfl
  have marked : (∃ es, cs = '8' :: '"' :: es) ↔ ∃ es, ds = '8' :: '"' :: es := by
    cases near with
    | nil => simp
    | cons d near =>
      have inner : (∃ es, _ = '"' :: es) ↔ ∃ es, _ = '"' :: es := near_cons near (by decide) rfl
      simpa using and_congr_right fun _ => inner
    | gone cs first =>
      refine ⟨?_, ?_⟩
      · rintro ⟨es, same⟩
        cases same
      · rintro ⟨es, rfl⟩
        cases first '8' rfl
  rw [Marks, Marks, quoted, marked]

theorem opensComment_near (near : Near cs ds) (plain : opensComment (c :: cs) = false) :
    opensComment (c :: ds) = false := by
  by_cases slash : c = '/'
  · subst slash
    cases near with
    | nil => rfl
    | cons d near => simpa only [opensComment_slash] using plain
    | gone cs first => simp [opensComment] at plain
  · exact opensComment_cons slash

theorem Ordinary.near (ordinary : Ordinary c cs) (near : Near cs ds) : Ordinary c ds where
  solid := ordinary.solid
  plain := opensComment_near near ordinary.plain
  directive := ordinary.directive
  quote := ordinary.quote
  apostrophe := ordinary.apostrophe
  bare := (marks_near near).not.mpr ordinary.bare

theorem not_part_of_isSpace (blank : isSpace c = true) :
    isNumberPart c = false ∧ isWordPart c = false := by
  simp only [isSpace, Bool.or_eq_true, beq_iff_eq] at blank
  rcases blank with ((((rfl | rfl) | rfl) | rfl) | rfl) | rfl <;> decide

theorem Ordinary.extent_near (ordinary : Ordinary c cs) (near : Near cs ds) :
    extent c ds = extent c cs := by
  rw [ordinary.extent_eq, (ordinary.near near).extent_eq,
    lengthWhile_near (by decide) (fun _ blank => (not_part_of_isSpace blank).2) near,
    lengthWhile_near (by decide) (fun _ blank => (not_part_of_isSpace blank).1) near,
    punctuationExtent_near near]

theorem near_append (xs : List Char) (near : Near cs ds) : Near (xs ++ cs) (xs ++ ds) := by
  induction xs with
  | nil => exact near
  | cons x xs ih => exact .cons x ih

theorem lengthWhile_le (part : Char → Bool) (cs : List Char) : lengthWhile part cs ≤ cs.length :=
  (List.takeWhile_prefix part).length_le

theorem take_lengthWhile (part : Char → Bool) (cs : List Char) :
    cs.take (lengthWhile part cs) = cs.takeWhile part := by
  rw [lengthWhile]
  exact (List.prefix_iff_eq_take.mp (List.takeWhile_prefix part)).symm

theorem drop_lengthWhile (part : Char → Bool) (cs : List Char) :
    cs.drop (lengthWhile part cs) = cs.dropWhile part := by
  have parts : cs.takeWhile part ++ cs.dropWhile part = cs := List.takeWhile_append_dropWhile
  exact (congrArg (List.drop _) parts.symm).trans List.drop_left

theorem punctuationExtent_le (c : Char) (cs : List Char) : (punctuationExtent c cs).2 ≤ cs.length := by
  unfold punctuationExtent
  split <;> try simp
  split <;> simp

end Lookahead

section Bodies
variable {c : Char} {cs : List Char}

def stringMarks : List (List Char) :=
  [[], ['u'], ['U'], ['L'], ['u', '8']]

theorem extent_string {mark ds : List Char} (known : mark ∈ stringMarks)
    (text : mark ++ '"' :: cs = c :: ds) :
    extent c ds = (.stringLit (stringBody cs).2, mark.length + (stringBody cs).1) := by
  simp only [stringMarks, List.mem_cons, List.not_mem_nil, or_false] at known
  rcases known with rfl | rfl | rfl | rfl | rfl <;> cases text <;>
    simp [extent, isSpace, stringExtent]

theorem string_text {mark ds : List Char} (text : mark ++ '"' :: cs = c :: ds) (n : Nat) :
    c :: ds.take (mark.length + n) = mark ++ '"' :: cs.take n ∧
      ds.drop (mark.length + n) = cs.drop n := by
  refine ⟨?_, ?_⟩
  · rw [← List.take_succ_cons, ← text, Nat.add_assoc, List.take_length_add_append,
      List.take_succ_cons]
  · rw [← List.drop_succ_cons (a := c), ← text, Nat.add_assoc, List.drop_length_add_append,
      List.drop_succ_cons]

theorem signs_string {mark : List Char} (known : mark ∈ stringMarks) (cs : List Char) :
    signs (mark ++ '"' :: cs) =
      (sign ⟨.stringLit (stringBody cs).2, mark ++ '"' :: cs.take (stringBody cs).1⟩).toList ++
        signs (cs.drop (stringBody cs).1) := by
  obtain ⟨c, ds, text⟩ : ∃ c ds, mark ++ '"' :: cs = c :: ds :=
    List.exists_cons_of_ne_nil (by simp)
  obtain ⟨taken, left⟩ := string_text text (stringBody cs).1
  rw [text, signs_cons (extent_string known text), taken, left]

/-- A string body is read the same where what follows an open one ends the line too. -/
theorem stringBody_take {rest : List Char}
    (line : (stringBody cs).2 = false →
      AtLine rest ∧ (rest = [] ↔ cs.drop (stringBody cs).1 = [])) :
    stringBody (cs.take (stringBody cs).1 ++ rest) = stringBody cs := by
  fun_induction stringBody cs with
  | case1 =>
    obtain rfl := (line rfl).2.mpr rfl
    rfl
  | case2 cs => rfl
  | case3 cs =>
    obtain ⟨newline, some⟩ := line rfl
    cases rest with
    | nil => simp at some
    | cons c rest =>
      obtain rfl := newline c rfl
      simp [stringBody]
  | case4 c cs n closed body ih =>
    rw [body] at ih
    rw [List.take_succ_cons, List.take_succ_cons, List.cons_append, List.cons_append, stringBody,
      ih line]
  | case5 c cs notQuote notLine notEscape n closed body ih =>
    rw [body] at ih
    rw [List.take_succ_cons, List.cons_append, stringBody, ih line]
    · exact notQuote
    · exact notLine
    · -- a backslash at the very end escapes nothing, and nothing follows it
      rintro d ds rfl same
      cases cs with
      | cons e es => exact notEscape e es rfl rfl
      | nil =>
        cases body
        obtain rfl := (line rfl).2.mpr rfl
        cases same

theorem stringBody_le (cs : List Char) : (stringBody cs).1 ≤ cs.length := by
  fun_induction stringBody cs <;> simp_all

theorem charBody_take {rest : List Char} (after : List Char)
    (closed : cs.drop (charBody cs) = '\'' :: rest) :
    charBody (cs.take (charBody cs) ++ '\'' :: after) = charBody cs := by
  fun_induction charBody cs with
  | case1 => cases closed
  | case2 cs => cases closed
  | case3 c cs line ih =>
    rw [List.drop_succ_cons, List.drop_succ_cons] at closed
    rw [List.take_succ_cons, List.take_succ_cons, List.cons_append, List.cons_append, charBody,
      if_neg line, ih closed]
  | case4 c cs notEscape stop =>
    obtain ⟨rfl, rfl⟩ := List.cons.inj closed
    rfl
  | case5 c cs notEscape stop ih =>
    rw [List.drop_succ_cons] at closed
    rw [List.take_succ_cons, List.cons_append, charBody, if_neg stop, ih closed]
    rintro d ds rfl
    simp at stop

theorem charBody_le (cs : List Char) : charBody cs ≤ cs.length := by
  fun_induction charBody cs <;> simp_all

theorem charExtent_eq {rest : List Char} (some : charBody cs ≠ 0)
    (closed : cs.drop (charBody cs) = '\'' :: rest) :
    charExtent cs = (.charLit, charBody cs + 1) := by
  unfold charExtent
  split
  next none => exact absurd none some
  next n body =>
    rw [body] at closed
    rw [closed, List.head?_cons, if_pos rfl, body]

theorem atLine_directiveBody (cs : List Char) : AtLine (cs.drop (directiveBody cs)) := by
  fun_induction directiveBody cs with
  | case1 | case2 | case3 => simp [AtLine]
  | case4 cs ih | case5 c cs _ ih | case6 c cs _ _ _ _ ih =>
    simpa only [List.drop_succ_cons] using ih

theorem directiveBody_line {rest : List Char} (whole : directiveBody (cs ++ ['\n']) = cs.length)
    (line : AtLine rest) : directiveBody (cs ++ rest) = cs.length := by
  induction cs using directiveBody.induct with
  | case1 =>
    cases rest with
    | nil => rfl
    | cons c rest =>
      obtain rfl := line c rfl
      rfl
  | case2 cs => cases whole
  -- a backslash would carry the directive over the line feed
  | case3 => simp [directiveBody] at whole
  | case4 cs ih =>
    simp only [List.cons_append, directiveBody, List.length_cons] at whole ⊢
    rw [ih (by omega)]
  | case5 c cs notReturn ih =>
    -- a carriage return before the line feed would carry the directive on
    have carries (more : List Char) (same : c = '\r') : ∀ ds, cs ++ more ≠ '\n' :: ds := by
      subst same
      cases cs with
      | nil => simp [directiveBody] at whole
      | cons d cs =>
        rintro ds same
        obtain ⟨rfl, -⟩ := List.cons.inj same
        exact notReturn cs rfl rfl
    have step (more : List Char) :
        directiveBody ('\\' :: c :: (cs ++ more)) = directiveBody (cs ++ more) + 2 := by
      rw [directiveBody]
      exact fun ds here same => carries more here ds same
    simp only [List.cons_append, step, List.length_cons] at whole ⊢
    rw [ih (by omega)]
  | case6 c cs notLine notLast notReturn notEscape ih =>
    have notSlash : c ≠ '\\' := by
      rintro rfl
      cases cs with
      | nil => exact notLast rfl rfl
      | cons d cs => exact notEscape d cs rfl rfl
    have step (more : List Char) :
        directiveBody (c :: (cs ++ more)) = directiveBody (cs ++ more) + 1 := by
      rw [directiveBody]
      · exact notLine
      · exact fun here => absurd here notSlash
      · exact fun _ here => absurd here notSlash
      · exact fun _ _ here => absurd here notSlash
    simp only [List.cons_append, step, List.length_cons] at whole ⊢
    rw [ih (by omega)]

end Bodies

section Cuts
variable {c : Char} {cs : List Char} {kind : LexemeKind} {n : Nat}

theorem take_succ_of_drop {rest : List Char} (behind : cs.drop n = c :: rest) :
    cs.take (n + 1) = cs.take n ++ [c] ∧ cs.drop (n + 1) = rest := by
  rw [List.take_add, behind, ← List.drop_drop, behind]
  exact ⟨rfl, rfl⟩

inductive CharCuts : List Char → LexemeKind → Nat → Prop where
  | bare {cs : List Char} (none : charBody cs = 0) : CharCuts cs .symbol 0
  | closed {cs rest : List Char} (filled : charBody cs ≠ 0)
      (quote : cs.drop (charBody cs) = '\'' :: rest) : CharCuts cs .charLit (charBody cs + 1)
  | opened {cs : List Char} (filled : charBody cs ≠ 0)
      (noQuote : (cs.drop (charBody cs)).head? ≠ some '\'') : CharCuts cs .stray (charBody cs)

theorem charCuts_of_charExtent (taken : charExtent cs = (kind, n)) : CharCuts cs kind n := by
  unfold charExtent at taken
  split at taken
  next none =>
    cases taken
    exact .bare none
  next m body =>
    have filled : charBody cs ≠ 0 := by rw [body]; exact Nat.succ_ne_zero m
    rw [← Nat.succ_eq_add_one, ← body] at taken
    split at taken
    next closed =>
      obtain ⟨rest, quote⟩ := List.head?_eq_some_iff.mp closed
      obtain ⟨rfl, size⟩ := Prod.mk.inj taken
      obtain rfl : n = charBody cs + 1 := by omega
      exact .closed filled quote
    next noQuote =>
      cases taken
      exact .opened filled noQuote

/-- How the lexeme at `c` is cut off, by what it starts with. -/
inductive Cuts : Char → List Char → LexemeKind → Nat → Prop where
  | blanks {c : Char} {cs : List Char} (blank : isSpace c = true) :
      Cuts c cs .blank (lengthWhile isSpace cs)
  | lineComment (rest : List Char) :
      Cuts '/' ('/' :: rest) .lineComment (lengthWhile (· != '\n') rest + 1)
  | blockComment (rest : List Char) :
      Cuts '/' ('*' :: rest) (.blockComment (commentBody rest).2) ((commentBody rest).1 + 1)
  | directive (cs : List Char) : Cuts '#' cs .directive (directiveBody cs)
  | string {c : Char} {mark body cs : List Char} (known : mark ∈ stringMarks)
      (text : mark ++ '"' :: body = c :: cs) :
      Cuts c cs (.stringLit (stringBody body).2) (mark.length + (stringBody body).1)
  | char {cs : List Char} {kind : LexemeKind} {n : Nat} (own : charExtent cs = (kind, n)) :
      Cuts '\'' cs kind n
  | word {c : Char} {cs : List Char} (ordinary : Ordinary c cs) (start : isWordStart c = true) :
      Cuts c cs .word (lengthWhile isWordPart cs)
  | number {c : Char} {cs : List Char} (ordinary : Ordinary c cs) (noStart : isWordStart c = false)
      (digit : c.isDigit = true) : Cuts c cs .number (lengthWhile isNumberPart cs)
  | punctuation {c : Char} {cs : List Char} {kind : LexemeKind} {n : Nat} (ordinary : Ordinary c cs)
      (noStart : isWordStart c = false) (noDigit : c.isDigit = false)
      (own : punctuationExtent c cs = (kind, n)) : Cuts c cs kind n

theorem cuts_of_extent (taken : extent c cs = (kind, n)) : Cuts c cs kind n := by
  -- a quote behind its mark is a string before it is anything else
  have ofString {mark body : List Char} (known : mark ∈ stringMarks)
      (text : mark ++ '"' :: body = c :: cs) : Cuts c cs kind n := by
    rw [extent_string known text] at taken
    cases taken
    exact .string known text
  unfold extent at taken
  split at taken
  next blank =>
    cases taken
    exact .blanks blank
  next solid =>
    split at taken
    case h_1 rest =>
      cases taken
      exact .lineComment rest
    case h_2 rest =>
      cases taken
      exact .blockComment rest
    case h_3 =>
      cases taken
      exact .directive _
    case h_4 => exact ofString (show [] ∈ stringMarks by decide) rfl
    case h_5 => exact .char taken
    case h_6 => exact ofString (show ['u', '8'] ∈ stringMarks by decide) rfl
    case h_7 => exact ofString (show ['u'] ∈ stringMarks by decide) rfl
    case h_8 => exact ofString (show ['U'] ∈ stringMarks by decide) rfl
    case h_9 => exact ofString (show ['L'] ∈ stringMarks by decide) rfl
    case h_10 directive quote apostrophe notLine notBlock notU8 notU notUpper notL =>
      have bare : ¬ Marks c cs := by
        rintro (⟨rfl, ds, rfl⟩ | ⟨rfl | rfl | rfl, ds, rfl⟩)
        · exact notU8 ds rfl rfl
        · exact notU ds rfl rfl
        · exact notUpper ds rfl rfl
        · exact notL ds rfl rfl
      have ordinary : Ordinary c cs :=
        ⟨by simpa using solid, opensComment_of_ne notLine notBlock, directive, quote, apostrophe, bare⟩
      split at taken
      next start =>
        cases taken
        exact .word ordinary start
      next noStart =>
        split at taken
        next digit =>
          cases taken
          exact .number ordinary (by simpa using noStart) digit
        next noDigit => exact .punctuation ordinary (by simpa using noStart) (by simpa using noDigit) taken

end Cuts

end Lexeme

namespace Lexing
open Lexeme (sign)

theorem map_token_place (p : Position) (xs : List Lexeme) :
    (place p xs).tokens.map Placed.token =
      (xs.filterMap sign).filterMap Sum.getLeft? ++ [Token.eof] := by
  induction xs generalizing p with
  | nil => rfl
  | cons x xs ih =>
    rw [place, List.map_append, ih, List.filterMap_cons]
    unfold sign
    cases tokenOf x with
    | some t => rfl
    | none => cases includeOf x {} <;> rfl

theorem named_ofDirective? (text : List Char) (span : Span) :
    (Include.ofDirective? text span).map (fun i => (i.target, i.angled)) =
      (Include.ofDirective? text {}).map fun i => (i.target, i.angled) := by
  unfold Include.ofDirective?
  cases Text.after? ['#'] text with
  | none => rfl
  | some name =>
    dsimp only [Option.bind_eq_bind, Option.bind_some]
    cases Text.after? "include".toList (Text.trimStartChars name) with
    | none => rfl
    | some rest =>
      dsimp only [Option.bind_some]
      split
      · rfl
      · split
        · rfl
        · split <;> rfl

theorem named_includeOf (x : Lexeme) (span : Span) :
    (includeOf x span).map (fun i => (i.target, i.angled)) = (sign x).bind Sum.getRight? := by
  obtain ⟨kind, text⟩ := x
  cases kind with
  | directive =>
    refine (named_ofDirective? text span).trans ?_
    change _ = ((Include.ofDirective? text {}).map _).bind _
    cases Include.ofDirective? text {} <;> rfl
  | stringLit closed => cases closed <;> rfl
  | symbol => cases text <;> rfl
  | _ => rfl

theorem map_named_place (p : Position) (xs : List Lexeme) :
    (place p xs).includes.map (fun i => (i.target, i.angled)) =
      (xs.filterMap sign).filterMap Sum.getRight? := by
  induction xs generalizing p with
  | nil => rfl
  | cons x xs ih =>
    have own := named_includeOf x (p.spanOf x.text)
    rw [place, List.map_append, ih, ← Option.toList_map, own, List.filterMap_cons]
    cases sign x with
    | none => rfl
    | some read => cases read <;> rfl

end Lexing

end HeaderMeta
