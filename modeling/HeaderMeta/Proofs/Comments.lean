import HeaderMeta.Proofs.Comments.Lexemes

/-! A text without its comments reads as the text does.

Stripping the comments of a text leaves its tokens and include targets, as long as the lexemes of the
text are clear. A lexeme is not where the stripper takes an apostrophe for something else, where a
directive ends at the end of its line while a comment in it does not, or where the backslash that ends
the text is the end of a directive.
-/

set_option autoImplicit false

namespace HeaderMeta

namespace Lexeme
open Text

def endsLine (text : List Char) : Bool :=
  directiveBody (text.tail ++ ['\n']) + 1 == text.length

/-- A directive that stays one with the same target when its comments are stripped, and that leaves no
comment or literal open. -/
def whole (previous : Char) (text : List Char) : Bool :=
  let left := stripFrom .code previous text
  [.code, .lineComment].contains (leaveFrom .code previous text) && endsLine text && endsLine left &&
    decide (sign ⟨.directive, left⟩ = sign ⟨.directive, text⟩)

example : endsLine "#define X \\\\".toList = true ∧ endsLine "#define X \\".toList = false := by decide

/-- Whether a lexeme behind `previous` means the same to the stripper. -/
def clear (previous : Char) (x : Lexeme) : Bool :=
  match x.kind with
  -- apostrophes behind a point or an underscore would open a literal
  | .number => inert previous x.text
  -- behind an encoding mark the apostrophe opens none, so nothing inside may open anything either
  | .charLit => !previous.isAlphanum || inert previous x.text
  | .symbol | .stray => x.text.head? != some '\''
  | .directive => whole previous x.text
  | _ => true

def allClear : (previous : Char) → List Lexeme → Bool
  | _, [] => true
  | previous, x :: xs => x.clear previous && allClear (x.text.getLastD previous) xs

section Carrying
variable {p c : Char} {cs rest : List Char}

/-- Stripping the text of `x` before `rest` leaves what `x` stands for, then what is left of `rest`. -/
def Carries (p : Char) (x : Lexeme) (rest : List Char) : Prop :=
  signs (stripFrom .code p (x.text ++ rest)) =
    x.sign.toList ++ signs (stripFrom .code (x.text.getLastD p) rest)

theorem carries_copied {kind : LexemeKind}
    (copied : stripFrom .code p (c :: (cs ++ rest)) =
      c :: (cs ++ stripFrom .code (cs.getLastD c) rest))
    (taken : extent c (cs ++ stripFrom .code (cs.getLastD c) rest) = (kind, cs.length)) :
    Carries p ⟨kind, c :: cs⟩ rest := by
  unfold Carries
  rw [List.cons_append, copied, List.getLastD_cons, signs_cons taken, List.take_left, List.drop_left]

theorem inert_of_forall {xs : List Char}
    (quiet : ∀ c ∈ xs, c ≠ '/' ∧ c ≠ '"' ∧ c ≠ '\'') : inert p xs = true := by
  induction xs generalizing p with
  | nil => rfl
  | cons c xs ih =>
    obtain ⟨⟨slash, quote, apostrophe⟩, later⟩ := List.forall_mem_cons.mp quiet
    simp [inert, slash, quote, apostrophe, ih later]

theorem quiet_of_isSpace (blank : isSpace c = true) : c ≠ '/' ∧ c ≠ '"' ∧ c ≠ '\'' := by
  refine ⟨?_, ?_, ?_⟩ <;> rintro rfl <;> cases blank

theorem quiet_of_isWordPart (part : isWordPart c = true) : c ≠ '/' ∧ c ≠ '"' ∧ c ≠ '\'' := by
  refine ⟨?_, ?_, ?_⟩ <;> rintro rfl <;> cases part

theorem carries_blank (blank : isSpace c = true) :
    Carries p ⟨.blank, c :: cs.take (lengthWhile isSpace cs)⟩ (cs.drop (lengthWhile isSpace cs)) := by
  have all : ∀ d ∈ c :: cs.take (lengthWhile isSpace cs), isSpace d = true := by
    rw [take_lengthWhile]
    exact List.forall_mem_cons.mpr ⟨blank, fun d mem => List.mem_takeWhile_imp mem⟩
  unfold Carries
  rw [stripFrom_inert _ (inert_of_forall fun d mem => quiet_of_isSpace (all d mem)),
    signs_blanks (List.all_eq_true.mpr all)]
  rfl

theorem carries_lineComment :
    Carries p ⟨.lineComment, '/' :: '/' :: cs.take (lengthWhile (· != '\n') cs)⟩
      (cs.drop (lengthWhile (· != '\n') cs)) := by
  unfold Carries
  simp only [List.cons_append, List.take_append_drop]
  rw [stripFrom_code_line, stripFrom_lineComment]
  rfl

theorem stripFrom_behind_comment (p : Char) (cs : List Char) :
    stripFrom .code '*' (cs.drop (commentBody cs).1) =
      stripFrom .code ((cs.take (commentBody cs).1).getLastD p) (cs.drop (commentBody cs).1) := by
  fun_induction commentBody cs generalizing p with
  | case1 => simp
  | case2 rest => exact stripFrom_congr rfl
  | case3 c cs notEnd n closed body ih =>
    rw [body] at ih
    rw [List.take_succ_cons, List.drop_succ_cons, List.getLastD_cons]
    exact ih c

theorem carries_blockComment :
    Carries p ⟨.blockComment (commentBody cs).2, '/' :: '*' :: cs.take (commentBody cs).1⟩
      (cs.drop (commentBody cs).1) := by
  obtain ⟨gap, blank, stripped⟩ := stripFrom_blockComment '/' cs
  have silent : (⟨.blockComment (commentBody cs).2, '/' :: '*' :: cs.take (commentBody cs).1⟩ :
      Lexeme).sign = none := by
    cases (commentBody cs).2 <;> rfl
  unfold Carries
  rw [silent]
  simp only [List.cons_append, List.take_append_drop, List.getLastD_cons]
  rw [stripFrom_code_block, stripped, signs_blank rfl, signs_blanks blank, stripFrom_behind_comment '*']
  rfl

theorem carries_plain (ordinary : Ordinary c cs) {kind : LexemeKind} {n : Nat}
    (taken : extent c cs = (kind, n)) (short : n ≤ cs.length)
    (copied : stripFrom .code p (c :: cs) =
      c :: (cs.take n ++ stripFrom .code ((cs.take n).getLastD c) (cs.drop n))) :
    Carries p ⟨kind, c :: cs.take n⟩ (cs.drop n) := by
  -- behind the lexeme only the text up to the next comment is known to be kept
  have near := near_append (cs.take n)
    (near_stripFrom .code ((cs.take n).getLastD c) (cs.drop n) (by simp))
  rw [List.take_append_drop] at near
  refine carries_copied ?_ ?_
  · rwa [List.take_append_drop]
  · rw [ordinary.extent_near near, taken, List.length_take, Nat.min_eq_left short]

theorem stripFrom_inert_take {n : Nat} (quiet : inert p (c :: cs.take n) = true) :
    stripFrom .code p (c :: cs) =
      c :: (cs.take n ++ stripFrom .code ((cs.take n).getLastD c) (cs.drop n)) := by
  have copied := stripFrom_inert (cs.drop n) quiet
  rwa [List.cons_append, List.take_append_drop, List.getLastD_cons] at copied

section Strings

theorem atLine_stripFrom {q : Char} (line : AtLine cs) :
    AtLine (stripFrom .code q cs) ∧ (stripFrom .code q cs = [] ↔ cs = []) := by
  cases cs with
  | nil => simp [AtLine]
  | cons c cs =>
    obtain rfl := line c rfl
    simp [stripFrom_newline, AtLine]

theorem carries_string {mark : List Char} (known : mark ∈ stringMarks) :
    Carries p ⟨.stringLit (stringBody cs).2, mark ++ '"' :: cs.take (stringBody cs).1⟩
      (cs.drop (stringBody cs).1) := by
  have quiet : inert p mark = true := by
    simp only [stringMarks, List.mem_cons, List.not_mem_nil, or_false] at known
    rcases known with rfl | rfl | rfl | rfl | rfl <;> rfl
  unfold Carries
  generalize last : (mark ++ '"' :: cs.take (stringBody cs).1).getLastD p = q
  have quote (closed : (stringBody cs).2 = true) : q = '"' := by
    refine Eq.trans ?_ (getLastD_stringBody '"' closed)
    simp [← last, List.getLastD_eq_getLast?, List.getLast?_append, List.getLast?_cons]
  have stripped : stripFrom .code p (mark ++ '"' :: cs) =
      mark ++ '"' :: (cs.take (stringBody cs).1 ++ stripFrom .code q (cs.drop (stringBody cs).1)) := by
    rw [stripFrom_inert _ quiet, stripFrom_code_cons (opensComment_cons (by decide)), if_pos (by simp),
      stripFrom_string '"' cs quote]
  have same : stringBody (cs.take (stringBody cs).1 ++
      stripFrom .code q (cs.drop (stringBody cs).1)) = stringBody cs :=
    stringBody_take fun opened => atLine_stripFrom (atLine_stringBody opened)
  have taken : (cs.take (stringBody cs).1).length = (stringBody cs).1 := by
    rw [List.length_take, Nat.min_eq_left (stringBody_le cs)]
  rw [List.append_assoc, List.cons_append, List.take_append_drop, stripped, signs_string known, same,
    List.take_left' taken, List.drop_left' taken]

theorem carries_marked (mark : List Char) (known : mark ∈ stringMarks) {ds : List Char}
    (text : mark ++ '"' :: cs = c :: ds) {kind : LexemeKind} {n : Nat}
    (whole : extent c ds = (kind, n)) : Carries p ⟨kind, c :: ds.take n⟩ (ds.drop n) := by
  rw [extent_string known text] at whole
  cases whole
  obtain ⟨taken, left⟩ := string_text text (stringBody cs).1
  rw [taken, left]
  exact carries_string known

end Strings

section Apostrophes

theorem carries_char (some : charBody cs ≠ 0) {rest : List Char}
    (closed : cs.drop (charBody cs) = '\'' :: rest)
    (clear : p.isAlphanum = false ∨ inert p ('\'' :: (cs.take (charBody cs) ++ ['\''])) = true) :
    Carries p ⟨.charLit, '\'' :: (cs.take (charBody cs) ++ ['\''])⟩ rest := by
  have whole : cs = cs.take (charBody cs) ++ ['\''] ++ rest := by
    rw [List.append_assoc, List.singleton_append, ← closed, List.take_append_drop]
  have last : (cs.take (charBody cs) ++ ['\'']).getLastD '\'' = '\'' := by simp
  refine carries_copied ?_ ?_
  -- the stripper sees a literal too, or it copies the characters one by one
  · rcases clear with separate | quiet
    · rw [← whole, stripFrom_code_cons (opensComment_cons (by decide)), if_pos (by simp [separate]),
        stripFrom_char '\'' closed, last]
      simp
    · have copied := stripFrom_inert rest quiet
      rwa [List.cons_append, List.getLastD_cons] at copied
  · generalize stripFrom .code _ rest = after
    have body := charBody_take after closed
    have short : (cs.take (charBody cs)).length = charBody cs := by
      rw [List.length_take, Nat.min_eq_left (charBody_le cs)]
    rw [List.append_assoc, List.singleton_append]
    have closed' : (cs.take (charBody cs) ++ '\'' :: after).drop
        (charBody (cs.take (charBody cs) ++ '\'' :: after)) = '\'' :: after := by
      rw [body, List.drop_left' short]
    have taken := charExtent_eq (by rwa [body]) closed'
    rw [body] at taken
    simpa [extent, isSpace, short] using taken

theorem carries_apostrophe {kind : LexemeKind} {n : Nat} (taken : charExtent cs = (kind, n))
    (clears : clear p ⟨kind, '\'' :: cs.take n⟩ = true) :
    Carries p ⟨kind, '\'' :: cs.take n⟩ (cs.drop n) := by
  cases charCuts_of_charExtent taken with
  | bare | opened => simp [clear] at clears
  | closed filled quote =>
    obtain ⟨text, left⟩ := take_succ_of_drop quote
    rw [text] at clears ⊢
    rw [left]
    exact carries_char filled quote (by simpa [clear] using clears)

end Apostrophes

section Words

theorem inert_punctuation (slash : c ≠ '/') (quote : c ≠ '"') (apostrophe : c ≠ '\'') :
    inert p (c :: cs.take (punctuationExtent c cs).2) = true := by
  refine inert_of_forall (List.forall_mem_cons.mpr ⟨⟨slash, quote, apostrophe⟩, ?_⟩)
  unfold punctuationExtent
  split <;> try simp
  split <;> simp

theorem carries_word (ordinary : Ordinary c cs) {kind : LexemeKind} {n : Nat}
    (taken : extent c cs = (kind, n)) (clears : clear p ⟨kind, c :: cs.take n⟩ = true) :
    Carries p ⟨kind, c :: cs.take n⟩ (cs.drop n) := by
  have carries := carries_plain (p := p) ordinary taken
  rw [ordinary.extent_eq] at taken
  split at taken
  next start =>
    cases taken
    refine carries (lengthWhile_le _ _) (stripFrom_inert_take (inert_of_forall fun d mem => ?_))
    rcases List.mem_cons.mp mem with rfl | mem
    · refine quiet_of_isWordPart ?_
      simp only [isWordStart, Bool.or_eq_true] at start
      rcases start with start | start <;> simp [isWordPart, Char.isAlphanum, start]
    · rw [take_lengthWhile] at mem
      exact quiet_of_isWordPart (List.mem_takeWhile_imp mem)
  next =>
    split at taken
    next =>
      cases taken
      exact carries (lengthWhile_le _ _) (stripFrom_inert_take clears)
    next =>
      have same : n = (punctuationExtent c cs).2 := by rw [taken]
      subst same
      refine carries (punctuationExtent_le c cs) ?_
      by_cases slash : c = '/'
      · subst slash
        rw [stripFrom_code_cons ordinary.plain, if_neg (by simp)]
        rfl
      · exact stripFrom_inert_take (inert_punctuation slash ordinary.quote ordinary.apostrophe)

end Words

section Directives

theorem carries_directive (clears : whole p ('#' :: cs.take (directiveBody cs)) = true) :
    Carries p ⟨.directive, '#' :: cs.take (directiveBody cs)⟩ (cs.drop (directiveBody cs)) := by
  have line := atLine_directiveBody cs
  generalize cs.take (directiveBody cs) = text at clears ⊢
  generalize cs.drop (directiveBody cs) = rest at line ⊢
  have opens : stripFrom .code p ('#' :: text) = '#' :: stripFrom .code '#' text := by
    rw [stripFrom_code_cons (opensComment_cons (by decide)), if_neg (by simp)]
  simp only [whole, opens, endsLine, Bool.and_eq_true, beq_iff_eq, decide_eq_true_eq, List.tail_cons,
    List.length_cons, Nat.add_right_cancel_iff, List.contains_iff_mem, List.mem_cons,
    List.not_mem_nil, or_false] at clears
  obtain ⟨⟨⟨left, -⟩, single⟩, same⟩ := clears
  generalize stripFrom .code '#' text = kept at opens single same
  unfold Carries
  generalize ('#' :: text).getLastD p = q
  rw [stripFrom_append_line (q := q) (by simp) left line, opens, ← same]
  have ends := directiveBody_line single (atLine_stripFrom (q := q) line).1
  have taken : extent '#' (kept ++ stripFrom .code q rest) = (.directive, kept.length) := by
    simp [extent, isSpace, ends]
  rw [List.cons_append, signs_cons taken, List.take_left, List.drop_left]

end Directives

theorem carries_extent {kind : LexemeKind} {n : Nat} (taken : extent c cs = (kind, n))
    (clears : clear p ⟨kind, c :: cs.take n⟩ = true) :
    Carries p ⟨kind, c :: cs.take n⟩ (cs.drop n) := by
  cases cuts_of_extent taken with
  | blanks blank => exact carries_blank blank
  | lineComment rest => exact carries_lineComment
  | blockComment rest => exact carries_blockComment
  | directive => exact carries_directive clears
  | string known text => exact carries_marked _ known text taken
  | char own => exact carries_apostrophe own clears
  | word ordinary | number ordinary | punctuation ordinary =>
    exact carries_word ordinary taken clears

/-- What is left of a clear text reads as the text does. -/
theorem signs_stripFrom (p : Char) (cs : List Char) (clears : allClear p (cut cs) = true) :
    signs (stripFrom .code p cs) = signs cs := by
  fun_induction cut cs generalizing p with
  | case1 => simp
  | case2 c cs kind n taken ih =>
    obtain ⟨here, later⟩ := Bool.and_eq_true_iff.mp clears
    have carries : Carries p ⟨kind, c :: cs.take n⟩ (cs.drop n) := carries_extent taken here
    unfold Carries at carries
    rw [List.cons_append, List.take_append_drop] at carries
    rw [carries, ih _ later, signs_cons taken]

end Carrying

end Lexeme

namespace Lexing
open Lexeme (cut signs allClear)

/-- The stripper and the reader of tokens agree on what a comment is. A text whose lexemes are clear
has the same tokens and include targets without its comments, wherever these start and however many
lines they span. -/
theorem ofText_stripComments {s : String} (clears : allClear '\x00' (cut s.toList) = true) :
    (ofText (Text.stripComments s)).tokens.map Placed.token = (ofText s).tokens.map Placed.token ∧
      (ofText (Text.stripComments s)).includes.map (fun i => (i.target, i.angled)) =
        (ofText s).includes.map fun i => (i.target, i.angled) := by
  have same : signs (Text.stripFrom .code '\x00' s.toList) = signs s.toList :=
    Lexeme.signs_stripFrom _ _ clears
  unfold signs at same
  unfold ofText ofChars Text.stripComments
  rw [String.toList_ofList]
  exact ⟨by rw [map_token_place, map_token_place, same],
    by rw [map_named_place, map_named_place, same]⟩

def commentedHeader : String :=
  "#include <a.hpp> // b\n#define X \"//\" /* c */\nint d = 1'000; /* e\n f */ char g = '\\'', *h = u8\"/*\";"

theorem ofText_stripComments_commented :
    allClear '\x00' (cut commentedHeader.toList) = true ∧
      (ofText (Text.stripComments commentedHeader)).tokens.map Placed.token =
        (ofText commentedHeader).tokens.map Placed.token ∧
      (ofText (Text.stripComments commentedHeader)).includes.map (fun i => (i.target, i.angled)) =
        (ofText commentedHeader).includes.map fun i => (i.target, i.angled) := by
  have clears : allClear '\x00' (cut commentedHeader.toList) = true := by decide +kernel
  exact ⟨clears, ofText_stripComments clears⟩

def openDirective : String :=
  "#define X /* a\nb */ int c;"

/-- Not every text reads the same without its comments: the second line of a comment that starts in a
directive stands for tokens, and the stripper takes it away. -/
theorem ofText_stripComments_ne :
    (ofText (Text.stripComments openDirective)).tokens.map Placed.token ≠
      (ofText openDirective).tokens.map Placed.token := by
  have stripped : (ofText (Text.stripComments openDirective)).tokens.map Placed.token =
      [.word "int", .word "c", .mark .semicolon, .eof] := by decide +kernel
  have whole : (ofText openDirective).tokens.map Placed.token =
      [.word "b", .mark .star, .symbol '/', .word "int", .word "c", .mark .semicolon, .eof] := by
    decide +kernel
  rw [stripped, whole]
  decide

end Lexing

end HeaderMeta
