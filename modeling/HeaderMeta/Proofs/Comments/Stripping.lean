import HeaderMeta.Text.Comments
import HeaderMeta.Token.Lexeme
import Mathlib.Data.List.Basic

/-! How comments are stripped from the parts of a text.

What a comment is for the lexemes of a text, that is it for the stripper too: a comment is passed over
up to the same place, and literals are copied up to the same place. Behind every part the stripper is
back in code.
-/

set_option autoImplicit false

namespace HeaderMeta.Text
open Lexeme (isSpace lengthWhile commentBody stringBody charBody)

def leaveFrom : CommentState → (previous : Char) → List Char → CommentState
  | state, _, [] => state
  | .code, _, '/' :: '/' :: cs => leaveFrom .lineComment '/' cs
  | .code, _, '/' :: '*' :: cs => leaveFrom .blockComment '/' cs
  | .code, previous, c :: cs =>
    if c = '"' || (c = '\'' && !previous.isAlphanum) then leaveFrom (.literal c) c cs
    else leaveFrom .code c cs
  | .lineComment, _, c :: cs =>
    if c = '\n' then leaveFrom .code c cs else leaveFrom .lineComment c cs
  | .blockComment, _, '*' :: '/' :: cs => leaveFrom .code '*' cs
  | .blockComment, _, c :: cs => leaveFrom .blockComment c cs
  | .literal quote, _, '\\' :: _ :: cs => leaveFrom (.literal quote) '\\' cs
  | .literal quote, _, c :: cs =>
    if c = quote || c = '\n' then leaveFrom .code c cs else leaveFrom (.literal quote) c cs

def opensComment : List Char → Bool
  | '/' :: '/' :: _ | '/' :: '*' :: _ => true
  | _ => false

/-- No character of the text opens a comment or a literal: an apostrophe follows a letter or digit. -/
def inert : (previous : Char) → List Char → Bool
  | _, [] => true
  | previous, c :: cs =>
    c != '/' && c != '"' && (c != '\'' || previous.isAlphanum) && inert c cs

def AtLine (cs : List Char) : Prop :=
  ∀ c ∈ cs.head?, c = '\n'

section Parts
variable {p q : Char} {cs rest : List Char}

theorem opensComment_cons {c : Char} (slash : c ≠ '/') : opensComment (c :: cs) = false := by
  simp [opensComment, slash]

theorem opensComment_slash (d : Char) (cs : List Char) :
    opensComment ('/' :: d :: cs) = (d == '/' || d == '*') := by
  by_cases line : d = '/'
  · subst line
    rfl
  by_cases block : d = '*'
  · subst block
    rfl
  · simp [opensComment, line, block]

theorem opensComment_of_ne {c : Char} (notLine : ∀ ds, c = '/' → cs = '/' :: ds → False)
    (notBlock : ∀ ds, c = '/' → cs = '*' :: ds → False) : opensComment (c :: cs) = false := by
  unfold opensComment
  split
  next ds same => exact (notLine ds (List.cons.inj same).1 (List.cons.inj same).2).elim
  next ds same => exact (notBlock ds (List.cons.inj same).1 (List.cons.inj same).2).elim
  next => rfl

@[simp] theorem stripFrom_nil (state : CommentState) : stripFrom state p [] = [] := by
  cases state <;> rfl

@[simp] theorem stripFrom_code_line :
    stripFrom .code p ('/' :: '/' :: cs) = stripFrom .lineComment '/' cs := rfl

@[simp] theorem stripFrom_code_block :
    stripFrom .code p ('/' :: '*' :: cs) = ' ' :: stripFrom .blockComment '/' cs := rfl

@[simp] theorem stripFrom_block_end :
    stripFrom .blockComment p ('*' :: '/' :: cs) = stripFrom .code '*' cs := rfl

@[simp] theorem stripFrom_literal_escape (quote c : Char) :
    stripFrom (.literal quote) p ('\\' :: c :: cs) =
      '\\' :: c :: stripFrom (.literal quote) '\\' cs := rfl

theorem stripFrom_code_cons {c : Char} (plain : opensComment (c :: cs) = false) :
    stripFrom .code p (c :: cs) =
      if c = '"' || (c = '\'' && !p.isAlphanum) then c :: stripFrom (.literal c) c cs
      else c :: stripFrom .code c cs := by
  rw [stripFrom]
  · rintro ds rfl rfl
    simp [opensComment] at plain
  · rintro ds rfl rfl
    simp [opensComment] at plain

theorem stripFrom_line_cons (c : Char) :
    stripFrom .lineComment p (c :: cs) =
      if c = '\n' then c :: stripFrom .code c cs else stripFrom .lineComment c cs := by
  rw [stripFrom]

theorem stripFrom_block_cons {c : Char} (notEnd : ∀ ds, c = '*' → cs = '/' :: ds → False) :
    stripFrom .blockComment p (c :: cs) =
      if c = '\n' then c :: stripFrom .blockComment c cs else stripFrom .blockComment c cs := by
  rw [stripFrom]
  exact notEnd

theorem stripFrom_literal_cons {quote c : Char}
    (notEscape : ∀ d ds, c = '\\' → cs = d :: ds → False) :
    stripFrom (.literal quote) p (c :: cs) =
      if c = quote || c = '\n' then c :: stripFrom .code c cs
      else c :: stripFrom (.literal quote) c cs := by
  rw [stripFrom]
  exact notEscape

theorem stripFrom_inert {xs : List Char} (rest : List Char) (quiet : inert p xs = true) :
    stripFrom .code p (xs ++ rest) = xs ++ stripFrom .code (xs.getLastD p) rest := by
  induction xs generalizing p with
  | nil => rfl
  | cons c xs ih =>
    simp only [inert, Bool.and_eq_true, bne_iff_ne, ne_eq, Bool.or_eq_true] at quiet
    obtain ⟨⟨⟨slash, quote⟩, apostrophe⟩, later⟩ := quiet
    have copied : ¬ (c = '"' || (c = '\'' && !p.isAlphanum)) = true := by
      simpa [quote, Classical.or_iff_not_imp_left] using apostrophe
    rw [List.cons_append, stripFrom_code_cons (opensComment_cons slash), if_neg copied,
      ih later, List.getLastD_cons]
    rfl

theorem stripFrom_congr (same : p.isAlphanum = q.isAlphanum) :
    stripFrom .code p cs = stripFrom .code q cs := by
  cases cs with
  | nil => rw [stripFrom_nil, stripFrom_nil]
  | cons c cs =>
    cases plain : opensComment (c :: cs) with
    | false => rw [stripFrom_code_cons plain, stripFrom_code_cons plain, same]
    | true =>
      unfold opensComment at plain
      split at plain
      next ds opened => rw [opened, stripFrom_code_line, stripFrom_code_line]
      next ds opened => rw [opened, stripFrom_code_block, stripFrom_code_block]
      next => cases plain

theorem stripFrom_newline :
    stripFrom .code p ('\n' :: cs) = '\n' :: stripFrom .code '\n' cs := by
  rw [stripFrom_code_cons (opensComment_cons (by decide)), if_neg (by simp)]

theorem stripFrom_atLine {state : CommentState} (inLine : state ≠ .blockComment) (line : AtLine cs) :
    stripFrom state p cs = stripFrom .code q cs := by
  cases cs with
  | nil => rw [stripFrom_nil, stripFrom_nil]
  | cons c cs =>
    obtain rfl := line c rfl
    rw [stripFrom_newline]
    cases state with
    | code => exact stripFrom_newline
    | lineComment => rw [stripFrom_line_cons, if_pos rfl]
    | blockComment => exact absurd rfl inLine
    | literal quote => rw [stripFrom_literal_cons (by simp), if_pos (by simp)]

theorem stripFrom_lineComment :
    stripFrom .lineComment p cs =
      stripFrom .code q (cs.drop (lengthWhile (· != '\n') cs)) := by
  induction cs generalizing p with
  | nil => simp
  | cons c cs ih =>
    by_cases line : c = '\n'
    · subst line
      exact stripFrom_atLine (by simp) (by simp [AtLine])
    · have further : lengthWhile (· != '\n') (c :: cs) = lengthWhile (· != '\n') cs + 1 := by
        simp [lengthWhile, line]
      rw [stripFrom_line_cons, if_neg line, ih, further, List.drop_succ_cons]

/-- A block comment leaves its line feeds. -/
theorem stripFrom_blockComment (p : Char) (cs : List Char) :
    ∃ gap : List Char, gap.all isSpace = true ∧
      stripFrom .blockComment p cs = gap ++ stripFrom .code '*' (cs.drop (commentBody cs).1) := by
  fun_induction commentBody cs generalizing p with
  | case1 => exact ⟨[], rfl, by simp⟩
  | case2 rest => exact ⟨[], rfl, stripFrom_block_end⟩
  | case3 c cs notEnd n closed body ih =>
    obtain ⟨gap, blank, same⟩ := ih c
    rw [body] at same
    rw [stripFrom_block_cons notEnd, List.drop_succ_cons]
    split
    next line =>
      subst line
      exact ⟨'\n' :: gap, by simpa using ⟨by decide, by simpa using blank⟩, by rw [same]; rfl⟩
    next => exact ⟨gap, blank, same⟩

/-- A string literal is copied up to its quote, or up to the end of the line. -/
theorem stripFrom_string (p : Char) {q : Char} (cs : List Char)
    (quote : (stringBody cs).2 = true → q = '"') :
    stripFrom (.literal '"') p cs =
      cs.take (stringBody cs).1 ++ stripFrom .code q (cs.drop (stringBody cs).1) := by
  fun_induction stringBody cs generalizing p with
  | case1 => simp
  | case2 rest =>
    rw [stripFrom_literal_cons (by simp), if_pos (by simp), quote rfl]
    rfl
  | case3 rest => exact stripFrom_atLine (q := q) (by simp) (by simp [AtLine])
  | case4 c cs n closed body ih =>
    rw [body] at ih
    rw [stripFrom_literal_escape, ih '\\' quote]
    simp
  | case5 c cs notQuote notLine notEscape n closed body ih =>
    rw [body] at ih
    rw [stripFrom_literal_cons notEscape, if_neg (by simpa using ⟨notQuote, notLine⟩), ih c quote]
    simp

theorem getLastD_stringBody (p : Char) {cs : List Char} (closed : (stringBody cs).2 = true) :
    (cs.take (stringBody cs).1).getLastD p = '"' := by
  fun_induction stringBody cs generalizing p with
  | case1 => cases closed
  | case2 rest => rfl
  | case3 rest => cases closed
  | case4 c cs n closed' body ih =>
    rw [body] at ih
    rw [List.take_succ_cons, List.take_succ_cons, List.getLastD_cons, List.getLastD_cons]
    exact ih c closed
  | case5 c cs notQuote notLine notEscape n closed' body ih =>
    rw [body] at ih
    rw [List.take_succ_cons, List.getLastD_cons]
    exact ih c closed

theorem atLine_stringBody {cs : List Char} (opened : (stringBody cs).2 = false) :
    AtLine (cs.drop (stringBody cs).1) := by
  fun_induction stringBody cs with
  | case1 => exact nofun
  | case2 rest => cases opened
  | case3 rest => simp [AtLine]
  | case4 c cs n closed' body ih | case5 c cs notQuote notLine notEscape n closed' body ih =>
    rw [body] at ih
    simpa using ih opened

/-- A character literal is copied up to its apostrophe. -/
theorem stripFrom_char (p : Char) {cs rest : List Char}
    (closed : cs.drop (charBody cs) = '\'' :: rest) :
    stripFrom (.literal '\'') p cs = cs.take (charBody cs) ++ '\'' :: stripFrom .code '\'' rest := by
  fun_induction charBody cs generalizing p with
  | case1 => cases closed
  | case2 cs => cases closed
  | case3 c cs line ih =>
    rw [List.drop_succ_cons, List.drop_succ_cons] at closed
    rw [stripFrom_literal_escape, ih '\\' closed]
    simp
  | case4 c cs notEscape stop =>
    obtain ⟨rfl, rfl⟩ := List.cons.inj closed
    rw [stripFrom_literal_cons (by simp), if_pos (by simp)]
    rfl
  | case5 c cs notEscape stop ih =>
    rw [List.drop_succ_cons] at closed
    simp only [Bool.or_eq_true, decide_eq_true_eq, not_or] at stop
    rw [stripFrom_literal_cons notEscape, if_neg (by simpa using ⟨stop.1.1, stop.2⟩), ih c closed]
    simp

/-- What neither opens nor closes a comment with a character before it. -/
def Apart (cs : List Char) : Prop :=
  ∀ c ∈ cs.head?, c ≠ '/' ∧ c ≠ '*'

theorem AtLine.apart (line : AtLine rest) : Apart rest := by
  intro c first
  rw [line c first]
  decide

theorem Apart.not_append {text : List Char} {c d : Char} (apart : Apart rest) (mark : d = '/' ∨ d = '*')
    {x : Char} (not : ∀ ds, c = x → text = d :: ds → False) (ds : List Char) (here : c = x)
    (same : text ++ rest = d :: ds) : False := by
  cases text with
  | nil =>
    obtain rfl : rest = d :: ds := same
    obtain ⟨slash, star⟩ := apart d rfl
    exact mark.elim slash star
  | cons e es =>
    obtain ⟨rfl, -⟩ := List.cons.inj same
    exact not es here rfl

/-- The stripper goes on behind a text that leaves no literal open, in the state the text leaves. -/
theorem stripFrom_append {state : CommentState} {text : List Char} (quote : state ≠ .literal '\\')
    (closed : ∀ q, leaveFrom state p text ≠ .literal q) (apart : Apart rest) :
    ∃ q, stripFrom state p (text ++ rest) =
      stripFrom state p text ++ stripFrom (leaveFrom state p text) q rest := by
  -- the cases of `leaveFrom` are those of the stripper; where one of them looks a character further,
  -- it must not find the mark of a comment in `rest` there
  fun_induction leaveFrom state p text with
  | case1 p state => exact ⟨p, by rw [stripFrom_nil]; rfl⟩
  | case2 p cs ih =>
    obtain ⟨q, same⟩ := ih (by simp) closed
    exact ⟨q, by simp only [List.cons_append, stripFrom_code_line, same]⟩
  | case3 p cs ih =>
    obtain ⟨q, same⟩ := ih (by simp) closed
    exact ⟨q, by simp only [List.cons_append, stripFrom_code_block, same]⟩
  | case4 p c cs notLine notBlock opens ih =>
    have quote : c ≠ '\\' := by
      rintro rfl
      simp at opens
    obtain ⟨q, same⟩ := ih (by simpa using quote) closed
    refine ⟨q, ?_⟩
    rw [List.cons_append, stripFrom_code_cons (opensComment_of_ne notLine notBlock), if_pos opens,
      stripFrom_code_cons (opensComment_of_ne (apart.not_append (.inl rfl) notLine)
        (apart.not_append (.inr rfl) notBlock)), if_pos opens, same]
    rfl
  | case5 p c cs notLine notBlock opens ih =>
    obtain ⟨q, same⟩ := ih (by simp) closed
    refine ⟨q, ?_⟩
    rw [List.cons_append, stripFrom_code_cons (opensComment_of_ne notLine notBlock), if_neg opens,
      stripFrom_code_cons (opensComment_of_ne (apart.not_append (.inl rfl) notLine)
        (apart.not_append (.inr rfl) notBlock)), if_neg opens, same]
    rfl
  | case6 p cs ih =>
    obtain ⟨q, same⟩ := ih (by simp) closed
    exact ⟨q, by simp only [List.cons_append, stripFrom_line_cons, if_true, same]⟩
  | case7 p c cs other ih =>
    obtain ⟨q, same⟩ := ih (by simp) closed
    exact ⟨q, by simp only [List.cons_append, stripFrom_line_cons, if_neg other, same]⟩
  | case8 p cs ih =>
    obtain ⟨q, same⟩ := ih (by simp) closed
    exact ⟨q, by simp only [List.cons_append, stripFrom_block_end, same]⟩
  | case9 p c cs notEnd ih =>
    obtain ⟨q, same⟩ := ih (by simp) closed
    refine ⟨q, ?_⟩
    rw [List.cons_append, stripFrom_block_cons notEnd,
      stripFrom_block_cons (apart.not_append (.inl rfl) notEnd), same]
    split <;> rfl
  | case10 p quote c cs ih =>
    obtain ⟨q, same⟩ := ih ‹_› closed
    exact ⟨q, by simp only [List.cons_append, stripFrom_literal_escape, same]⟩
  | case11 p mark c cs notEscape ends ih =>
    have notSlash : c ≠ '\\' := by
      rintro rfl
      have same : '\\' = mark := by simpa using ends
      exact quote (congrArg _ same.symm)
    have escapes (ts : List Char) (d : Char) (ds : List Char) (slash : c = '\\')
        (_ : ts = d :: ds) : False := notSlash slash
    obtain ⟨q, same⟩ := ih (by simp) closed
    refine ⟨q, ?_⟩
    rw [List.cons_append, stripFrom_literal_cons (escapes _), if_pos ends,
      stripFrom_literal_cons (escapes _), if_pos ends, same]
    rfl
  | case12 p mark c cs notEscape inside ih =>
    -- a backslash as the last character leaves the literal open, which `closed` excludes
    have notSlash : c ≠ '\\' := by
      rintro rfl
      cases cs with
      | nil => exact closed mark rfl
      | cons d ds => exact notEscape d ds rfl rfl
    have escapes (ts : List Char) (d : Char) (ds : List Char) (slash : c = '\\')
        (_ : ts = d :: ds) : False := notSlash slash
    obtain ⟨q, same⟩ := ih quote closed
    refine ⟨q, ?_⟩
    rw [List.cons_append, stripFrom_literal_cons (escapes _), if_neg inside,
      stripFrom_literal_cons (escapes _), if_neg inside, same]
    rfl

theorem stripFrom_append_line {state : CommentState} {text : List Char}
    (quote : state ≠ .literal '\\')
    (left : leaveFrom state p text = .code ∨ leaveFrom state p text = .lineComment)
    (line : AtLine rest) :
    stripFrom state p (text ++ rest) = stripFrom state p text ++ stripFrom .code q rest := by
  have closed (mark : Char) : leaveFrom state p text ≠ .literal mark := by
    rcases left with code | comment <;> simp [*]
  have inLine : leaveFrom state p text ≠ .blockComment := by
    rcases left with code | comment <;> simp [*]
  obtain ⟨_, same⟩ := stripFrom_append quote closed line.apart
  rw [same, stripFrom_atLine inLine line]

/-- What is left of a text, as far as a lexeme looks ahead: the same characters up to a comment, and a
blank or nothing in place of this. -/
inductive Near : List Char → List Char → Prop where
  | nil : Near [] []
  | cons (c : Char) {cs ds : List Char} (near : Near cs ds) : Near (c :: cs) (c :: ds)
  | gone (cs : List Char) {ds : List Char} (blank : ∀ c ∈ ds.head?, isSpace c = true) :
      Near ('/' :: cs) ds

theorem isSpace_head_lineComment (p : Char) (cs : List Char) :
    ∀ c ∈ (stripFrom .lineComment p cs).head?, isSpace c = true := by
  induction cs generalizing p with
  | nil => simp
  | cons d cs ih =>
    rw [stripFrom_line_cons]
    split
    next line =>
      rintro c ⟨⟩
      rw [line]
      decide
    next => exact ih d

/-- In code and in literals a character is kept, or a comment starts there. -/
theorem near_stripFrom (state : CommentState) (p : Char) (cs : List Char)
    (reads : state ≠ .lineComment ∧ state ≠ .blockComment) : Near cs (stripFrom state p cs) := by
  fun_induction stripFrom state p cs with
  | case1 => exact .nil
  | case2 p cs ih => exact .gone _ (isSpace_head_lineComment '/' cs)
  | case3 p cs ih =>
    refine .gone _ fun c first => ?_
    cases first
    decide
  | case4 p c cs _ _ _ ih | case5 p c cs _ _ _ ih => exact .cons c (ih (by simp))
  | case6 | case7 => exact absurd rfl reads.1
  | case8 | case9 | case10 => exact absurd rfl reads.2
  | case11 p quote c cs ih => exact .cons _ (.cons c (ih (by simp)))
  | case12 p quote c cs _ _ ih | case13 p quote c cs _ _ ih => exact .cons c (ih (by simp))

end Parts

end HeaderMeta.Text
