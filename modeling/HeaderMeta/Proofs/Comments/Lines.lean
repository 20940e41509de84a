import HeaderMeta.Proofs.Comments.Lexemes
import Mathlib.Data.List.Infix

/-! The lines of a text and what stripping leaves on them.

Which characters are comments is said here without the stripper: a text is a row of code characters,
literals and comments, where a comment goes up to the end of its line or up to the first mark that closes
it (`Marking`). Stripping leaves what these marks say (`Marking.stripFrom_eq`). They keep the line feeds,
so that each line is stripped for itself (`stripFrom_lines`), and nothing that is left makes a comment
with what comes after it (`stripFrom_stripFrom`).
-/

set_option autoImplicit false

namespace HeaderMeta.Text
open Lexeme (opensComment_near)

/-- What becomes of a character: the one that opens a block comment leaves a space for all of it. -/
inductive Fate where
  | kept
  | spaced
  | dropped
  deriving DecidableEq, Repr

structure Marked where
  char : Char
  fate : Fate
  deriving DecidableEq, Repr

def Marked.left? (m : Marked) : Option Char :=
  match m.fate with
  | .kept => some m.char
  | .spaced => some ' '
  | .dropped => none

def kept (cs : List Char) : List Marked :=
  cs.map (⟨·, .kept⟩)

def dropped (cs : List Char) : List Marked :=
  cs.map fun c => ⟨c, if c = '\n' then .kept else .dropped⟩

/-- An apostrophe after a letter or digit opens no literal. -/
def opensLiteral (previous c : Char) : Bool :=
  c = '"' || (c = '\'' && !previous.isAlphanum)

/-- A literal that `quote` opened has the characters `body` when `rest` is behind it. It ends with its
quote, with the line or with the text, and a backslash takes the next character along. -/
inductive LiteralBody (quote : Char) : (body rest : List Char) → Prop where
  | text : LiteralBody quote [] []
  | quote (rest : List Char) : LiteralBody quote [quote] rest
  | line (rest : List Char) : LiteralBody quote ['\n'] rest
  | escape (c : Char) {body rest : List Char} (further : LiteralBody quote body rest) :
      LiteralBody quote ('\\' :: c :: body) rest
  | slash : LiteralBody quote ['\\'] []
  | char {c : Char} {body rest : List Char} (inside : c ≠ quote ∧ c ≠ '\n' ∧ c ≠ '\\')
      (further : LiteralBody quote body rest) : LiteralBody quote (c :: body) rest

/-- The marks of a text behind the character `previous`. -/
inductive Marking : (previous : Char) → List Char → List Marked → Prop where
  | nil {p : Char} : Marking p [] []
  | code {p c : Char} {cs : List Char} {ms : List Marked} (plain : opensComment (c :: cs) = false)
      (bare : opensLiteral p c = false) (behind : Marking c cs ms) :
      Marking p (c :: cs) (kept [c] ++ ms)
  | literal {p c : Char} {body cs : List Char} {ms : List Marked} (opens : opensLiteral p c = true)
      (ends : LiteralBody c body cs) (behind : Marking (body.getLastD c) cs ms) :
      Marking p (c :: body ++ cs) (kept (c :: body) ++ ms)
  | lineComment {p : Char} {body cs : List Char} {ms : List Marked} (one : '\n' ∉ body)
      (ends : AtLine cs) (behind : Marking (body.getLastD '/') cs ms) :
      Marking p ('/' :: '/' :: body ++ cs) (dropped ('/' :: '/' :: body) ++ ms)
  | blockComment {p : Char} {body cs : List Char} {ms : List Marked}
      (first : ¬ ['*', '/'] <:+: body) (behind : Marking '/' cs ms) :
      Marking p ('/' :: '*' :: body ++ '*' :: '/' :: cs)
        (⟨'/', .spaced⟩ :: dropped ('*' :: body ++ ['*', '/']) ++ ms)
  | openComment {p : Char} {body : List Char} (first : ¬ ['*', '/'] <:+: body) :
      Marking p ('/' :: '*' :: body) (⟨'/', .spaced⟩ :: dropped ('*' :: body))

section Stripping
variable {p q : Char} {cs body rest : List Char} {ms : List Marked}

@[simp] theorem map_char_kept (cs : List Char) : (kept cs).map (·.char) = cs := by
  simp [kept, Function.comp_def]

@[simp] theorem map_char_dropped (cs : List Char) : (dropped cs).map (·.char) = cs := by
  simp [dropped, Function.comp_def]

@[simp] theorem filterMap_kept (cs : List Char) : (kept cs).filterMap Marked.left? = cs := by
  simp [kept, List.filterMap_map, Function.comp_def, Marked.left?]

@[simp] theorem filterMap_dropped (cs : List Char) :
    (dropped cs).filterMap Marked.left? = cs.filter (· == '\n') := by
  induction cs with
  | nil => rfl
  | cons c cs ih =>
    rw [dropped] at ih ⊢
    rw [List.map_cons, List.filterMap_cons, List.filter_cons, ih]
    by_cases line : c = '\n' <;> simp [line, Marked.left?]

theorem stripFrom_literalBody {quote : Char} (notSlash : quote ≠ '\\') (p q : Char)
    (ends : LiteralBody quote body rest) :
    stripFrom (.literal quote) p (body ++ rest) =
      body ++ stripFrom .code (body.getLastD q) rest := by
  induction ends generalizing p q with
  | text => simp
  | quote rest =>
    rw [List.singleton_append, stripFrom_literal_cons fun _ _ same _ => notSlash same,
      if_pos (by simp)]
    rfl
  | line rest =>
    rw [List.singleton_append, stripFrom_literal_cons (by simp), if_pos (by simp)]
    rfl
  | escape c further ih =>
    rw [List.cons_append, List.cons_append, stripFrom_literal_escape, ih '\\' c,
      List.getLastD_cons, List.getLastD_cons]
    rfl
  | slash =>
    rw [List.append_nil, stripFrom_literal_cons (by simp)]
    split <;> simp
  | @char c _ _ inside further ih =>
    rw [List.cons_append, stripFrom_literal_cons fun _ _ same _ => inside.2.2 same,
      if_neg (by simpa using ⟨inside.1, inside.2.1⟩), ih c c, List.getLastD_cons]
    rfl

theorem stripFrom_lineBody (one : '\n' ∉ body) (ends : AtLine rest) (p q : Char) :
    stripFrom .lineComment p (body ++ rest) = stripFrom .code q rest := by
  induction body generalizing p with
  | nil => exact stripFrom_atLine (by simp) ends
  | cons c body ih =>
    obtain ⟨here, later⟩ := not_or.mp (List.mem_cons.not.mp one)
    rw [List.cons_append, stripFrom_line_cons, if_neg (Ne.symm here), ih later]

/-- A block comment leaves its line feeds, up to the mark that closes it. -/
theorem stripFrom_blockBody (first : ¬ ['*', '/'] <:+: body) (p : Char) :
    stripFrom .blockComment p body = body.filter (· == '\n') ∧
      ∀ rest, stripFrom .blockComment p (body ++ '*' :: '/' :: rest) =
        body.filter (· == '\n') ++ stripFrom .code '*' rest := by
  induction body generalizing p with
  | nil => exact ⟨stripFrom_nil _, fun rest => stripFrom_block_end⟩
  | cons c body ih =>
    rw [List.infix_cons_iff, not_or] at first
    obtain ⟨alone, before⟩ := ih first.2 c
    have notEnd (ds : List Char) (star : c = '*') (slash : body = '/' :: ds) : False := by
      subst star slash
      exact first.1 ⟨ds, rfl⟩
    refine ⟨?_, fun rest => ?_⟩
    · rw [stripFrom_block_cons notEnd, alone]
      by_cases line : c = '\n' <;> simp [line]
    · have notEnd' (ds : List Char) (star : c = '*')
          (slash : body ++ '*' :: '/' :: rest = '/' :: ds) : False := by
        cases body with
        | nil => simp at slash
        | cons d body => exact notEnd body star (congrArg (· :: body) (List.cons.inj slash).1)
      rw [List.cons_append, stripFrom_block_cons notEnd', before]
      by_cases line : c = '\n' <;> simp [line]

theorem opensLiteral_ne_slash {c : Char} (opens : opensLiteral p c = true) : c ≠ '\\' ∧ c ≠ '/' := by
  constructor <;> rintro rfl <;> simp [opensLiteral] at opens

theorem Marking.map_char (marks : Marking p cs ms) : ms.map (·.char) = cs := by
  induction marks with
  | nil => rfl
  | code _ _ _ ih | literal _ _ _ ih | lineComment _ _ _ ih | blockComment _ _ ih =>
    simp [ih]
  | openComment => simp

/-- Stripping leaves what the marks say. -/
theorem Marking.stripFrom_eq (marks : Marking p cs ms) :
    stripFrom .code p cs = ms.filterMap Marked.left? := by
  induction marks with
  | nil => rfl
  | code plain bare behind ih =>
    rw [stripFrom_code_cons plain, if_neg (by simpa [opensLiteral] using bare), ih]
    simp
  | @literal p c body cs ms opens ends behind ih =>
    obtain ⟨notEscape, notComment⟩ := opensLiteral_ne_slash opens
    rw [List.cons_append, stripFrom_code_cons (opensComment_cons notComment),
      if_pos (by simpa [opensLiteral] using opens), stripFrom_literalBody notEscape c c ends, ih]
    simp
  | @lineComment p body cs ms one ends behind ih =>
    have quiet : body.filter (· == '\n') = [] := by
      rw [List.filter_eq_nil_iff]
      rintro c mem line
      exact one (beq_iff_eq.mp line ▸ mem)
    rw [List.cons_append, List.cons_append, stripFrom_code_line, stripFrom_lineBody one ends, ih]
    simp [quiet]
  | blockComment first behind ih =>
    rw [List.cons_append, List.cons_append, stripFrom_code_block,
      (stripFrom_blockBody first '/').2,
      stripFrom_congr (show '*'.isAlphanum = '/'.isAlphanum from rfl), ih]
    simp [Marked.left?]
  | openComment first =>
    rw [stripFrom_code_block, (stripFrom_blockBody first '/').1]
    simp [Marked.left?]

end Stripping

section Existence
variable {m : Marked} {p : Char} {cs : List Char} {ms : List Marked}

/-- A literal ends in every text. -/
theorem exists_literalBody (quote : Char) :
    ∀ cs, ∃ body rest, cs = body ++ rest ∧ LiteralBody quote body rest
  | [] => ⟨[], [], rfl, .text⟩
  | c :: cs => by
    by_cases slash : c = '\\'
    · subst slash
      cases cs with
      | nil => exact ⟨['\\'], [], rfl, .slash⟩
      | cons d cs =>
        obtain ⟨body, rest, rfl, ends⟩ := exists_literalBody quote cs
        exact ⟨'\\' :: d :: body, rest, rfl, .escape d ends⟩
    · by_cases closes : c = quote
      · exact ⟨[c], cs, rfl, closes ▸ .quote cs⟩
      · by_cases line : c = '\n'
        · exact ⟨[c], cs, rfl, line ▸ .line cs⟩
        · obtain ⟨body, rest, rfl, ends⟩ := exists_literalBody quote cs
          exact ⟨c :: body, rest, rfl, .char ⟨closes, line, slash⟩ ends⟩

theorem exists_blockBody (cs : List Char) :
    ¬ ['*', '/'] <:+: cs ∨ ∃ body rest, cs = body ++ '*' :: '/' :: rest ∧ ¬ ['*', '/'] <:+: body := by
  induction cs with
  | nil => exact .inl (by simp)
  | cons c cs ih =>
    by_cases here : ['*', '/'] <+: c :: cs
    · obtain ⟨rest, same⟩ := here
      exact .inr ⟨[], rest, same.symm, by simp⟩
    · rcases ih with none | ⟨body, rest, rfl, first⟩
      · exact .inl fun some => (List.infix_cons_iff.mp some).elim here none
      · refine .inr ⟨c :: body, rest, rfl, fun some => ?_⟩
        exact (List.infix_cons_iff.mp some).elim
          (fun start => here (start.trans (List.prefix_append (c :: body) _))) first

theorem atLine_dropWhile (cs : List Char) : AtLine (cs.dropWhile (· != '\n')) := by
  intro c first
  have stop := List.head?_dropWhile_not (· != '\n') cs
  rw [Option.mem_def.mp first] at stop
  simpa using stop

theorem exists_part (p c : Char) (cs : List Char) :
    ∃ q part rest, c :: cs = part ++ rest ∧ part ≠ [] ∧
      ∀ ms, Marking q rest ms → ∃ more, Marking p (c :: cs) more := by
  cases plain : opensComment (c :: cs) with
  | false =>
    cases opens : opensLiteral p c with
    | false => exact ⟨c, [c], cs, rfl, by simp, fun ms marks => ⟨_, .code plain opens marks⟩⟩
    | true =>
      obtain ⟨body, rest, rfl, ends⟩ := exists_literalBody c cs
      exact ⟨body.getLastD c, c :: body, rest, rfl, by simp,
        fun ms marks => ⟨_, .literal opens ends marks⟩⟩
  | true =>
    unfold opensComment at plain
    split at plain
    next ds same =>
      let body := ds.takeWhile (· != '\n')
      let rest := ds.dropWhile (· != '\n')
      have whole : c :: cs = '/' :: '/' :: body ++ rest := by
        rw [same, List.cons_append, List.cons_append, List.takeWhile_append_dropWhile]
      have one : '\n' ∉ body := fun mem => by simpa using List.mem_takeWhile_imp mem
      rw [whole]
      exact ⟨body.getLastD '/', '/' :: '/' :: body, rest, rfl, by simp,
        fun ms marks => ⟨_, .lineComment one (atLine_dropWhile ds) marks⟩⟩
    next ds same =>
      rw [same]
      rcases exists_blockBody ds with none | ⟨body, rest, rfl, first⟩
      · exact ⟨'/', '/' :: '*' :: ds, [], by simp, by simp, fun _ _ => ⟨_, .openComment none⟩⟩
      · exact ⟨'/', '/' :: '*' :: body ++ ['*', '/'], rest, by simp, by simp,
          fun ms marks => ⟨_, .blockComment first marks⟩⟩
    next => cases plain

/-- Every text can be marked. -/
theorem exists_marking (p : Char) (cs : List Char) : ∃ ms, Marking p cs ms := by
  induction size : cs.length using Nat.strong_induction_on generalizing p cs with
  | _ n ih =>
    cases cs with
    | nil => exact ⟨[], .nil⟩
    | cons c cs =>
      obtain ⟨q, part, rest, whole, some, marks⟩ := exists_part p c cs
      have length := List.length_pos_iff.mpr some
      rw [whole, List.length_append] at size
      obtain ⟨ms, behind⟩ := ih rest.length (by omega) q rest rfl
      exact marks ms behind

/-- Line feeds are kept, also those of comments. -/
theorem Marking.keeps_line (marks : Marking p cs ms) (mem : m ∈ ms) (line : m.char = '\n') :
    m.fate = .kept := by
  have ofKept {cs : List Char} (mem : m ∈ kept cs) : m.fate = .kept := by
    obtain ⟨c, -, rfl⟩ := List.mem_map.mp mem
    rfl
  have ofDropped {cs : List Char} (mem : m ∈ dropped cs) : m.fate = .kept := by
    obtain ⟨c, -, rfl⟩ := List.mem_map.mp mem
    exact if_pos line
  induction marks with
  | nil => cases mem
  | code _ _ _ ih | literal _ _ _ ih => exact (List.mem_append.mp mem).elim ofKept ih
  | lineComment _ _ _ ih => exact (List.mem_append.mp mem).elim ofDropped ih
  | blockComment _ _ ih =>
    rcases List.mem_append.mp mem with comment | behind
    · rcases List.mem_cons.mp comment with rfl | inner
      · cases line
      · exact ofDropped inner
    · exact ih behind
  | openComment =>
    rcases List.mem_cons.mp mem with rfl | inner
    · cases line
    · exact ofDropped inner

theorem Marking.left?_eq_line (marks : Marking p cs ms) (mem : m ∈ ms) :
    m.left? = some '\n' ↔ m.char = '\n' := by
  constructor
  · unfold Marked.left?
    cases m.fate <;> simp
  · intro line
    rw [Marked.left?, marks.keeps_line mem line, line]

end Existence

section Splitting
variable {p : Char} {cs : List Char} {ms : List Marked}

def markedLines (ms : List Marked) : List (List Marked) :=
  ms.splitOnP (·.char == '\n')

/-- A text made of marked characters, line feeds of line feeds, has their lines. -/
theorem splitOn_filterMap {f : Marked → Option Char}
    (line : ∀ m ∈ ms, f m = some '\n' ↔ m.char = '\n') :
    (ms.filterMap f).splitOn '\n' = (markedLines ms).map (·.filterMap f) := by
  induction ms with
  | nil => rfl
  | cons m ms ih =>
    have here := line m List.mem_cons_self
    have later := ih fun m mem => line m (List.mem_cons_of_mem _ mem)
    unfold List.splitOn markedLines at later ⊢
    rw [List.splitOnP_cons_eq_if_modifyHead]
    by_cases feed : m.char = '\n'
    · rw [List.filterMap_cons_some (here.mpr feed), List.splitOnP_cons_eq_if_modifyHead]
      simp [feed, later]
    · cases lines : ms.splitOnP (·.char == '\n') with
      | nil => exact absurd lines (List.splitOnP_ne_nil _ _)
      | cons first others =>
        rw [lines] at later
        cases left : f m with
        | none => simp [List.filterMap_cons_none left, later, feed]
        | some c =>
          have other : c ≠ '\n' := by
            rintro rfl
            exact feed (here.mp left)
          rw [List.filterMap_cons_some left, List.splitOnP_cons_eq_if_modifyHead, later]
          simp [feed, other, List.filterMap_cons_some left]

/-- Each line of what is left is what is left of a line. -/
theorem Marking.lines (marks : Marking p cs ms) :
    cs.splitOn '\n' = (markedLines ms).map (·.map (·.char)) ∧
      (stripFrom .code p cs).splitOn '\n' = (markedLines ms).map (·.filterMap Marked.left?) := by
  constructor
  · have text : (ms.filterMap (some ∘ Marked.char)).splitOn '\n' =
        (markedLines ms).map (·.filterMap (some ∘ Marked.char)) :=
      splitOn_filterMap fun m _ => by simp
    rw [List.filterMap_eq_map, marks.map_char] at text
    simpa only [List.filterMap_eq_map] using text
  · rw [marks.stripFrom_eq]
    exact splitOn_filterMap fun m mem => marks.left?_eq_line mem

theorem Marking.count_line (marks : Marking p cs ms) :
    (stripFrom .code p cs).count '\n' = cs.count '\n' := by
  rw [marks.stripFrom_eq, ← marks.map_char, List.count_eq_countP, List.count_eq_countP,
    List.countP_filterMap, List.countP_map]
  apply List.countP_congr
  intro m mem
  have same := marks.left?_eq_line mem
  cases left : m.left? with
  | none => simpa [left] using same
  | some c => simpa [left] using same

end Splitting

section Again
variable {p q : Char} {cs : List Char}

/-- The state in which the stripper reads what it left in a state. -/
def CommentState.again : CommentState → CommentState
  | .code | .lineComment | .blockComment => .code
  | .literal quote => .literal quote

def CommentState.Alike (p q : Char) : CommentState → Prop
  | .code => p.isAlphanum = q.isAlphanum
  | .blockComment => q.isAlphanum = false
  | .lineComment | .literal _ => True

theorem stripFrom_notEscape {c : Char} (notEscape : ∀ d ds, c = '\\' → cs = d :: ds → False)
    (state : CommentState) (d : Char) (ds : List Char) (slash : c = '\\')
    (left : stripFrom state p cs = d :: ds) : False := by
  cases cs with
  | nil => simp at left
  | cons e es => exact notEscape e es slash rfl

/-- What is left has no comments, and its literals are the old ones. -/
theorem stripFrom_stripFrom (state : CommentState) (alike : state.Alike p q) :
    stripFrom state.again q (stripFrom state p cs) = stripFrom state p cs := by
  -- behind a comment the character before is another one than in the text, but `alike` still holds
  fun_induction stripFrom state p cs generalizing q with
  | case1 => exact stripFrom_nil _
  | case2 p cs ih => exact ih trivial
  | case3 p cs ih =>
    have further := ih (q := ' ') rfl
    rw [CommentState.again, stripFrom_code_cons (opensComment_cons (by decide)), if_neg (by simp)]
    exact congrArg (' ' :: ·) further
  | case4 p c cs notLine notBlock opens ih =>
    have notComment : c ≠ '/' := (opensLiteral_ne_slash (p := p) (by simpa [opensLiteral] using opens)).2
    have same : p.isAlphanum = q.isAlphanum := alike
    rw [same] at opens
    rw [CommentState.again, stripFrom_code_cons (opensComment_cons notComment), if_pos opens]
    exact congrArg (c :: ·) (ih trivial)
  | case5 p c cs notLine notBlock bare ih =>
    have near := near_stripFrom .code c cs (by simp)
    have same : p.isAlphanum = q.isAlphanum := alike
    rw [same] at bare
    rw [CommentState.again,
      stripFrom_code_cons (opensComment_near near (opensComment_of_ne notLine notBlock)), if_neg bare]
    exact congrArg (c :: ·) (ih rfl)
  | case6 p cs ih =>
    rw [CommentState.again, stripFrom_newline]
    exact congrArg ('\n' :: ·) (ih rfl)
  | case7 p c cs other ih => exact ih trivial
  | case8 p cs ih => exact ih (show false = q.isAlphanum from alike.symm)
  | case9 p cs notEnd ih =>
    rw [CommentState.again, stripFrom_newline]
    exact congrArg ('\n' :: ·) (ih rfl)
  | case10 p c cs notEnd other ih => exact ih alike
  | case11 p quote c cs ih =>
    rw [CommentState.again, stripFrom_literal_escape]
    exact congrArg ('\\' :: c :: ·) (ih trivial)
  | case12 p quote c cs notEscape ends ih =>
    rw [CommentState.again, stripFrom_literal_cons (stripFrom_notEscape notEscape _), if_pos ends]
    exact congrArg (c :: ·) (ih rfl)
  | case13 p quote c cs notEscape inside ih =>
    rw [CommentState.again, stripFrom_literal_cons (stripFrom_notEscape notEscape _), if_neg inside]
    exact congrArg (c :: ·) (ih trivial)

end Again

/-- Stripping again changes nothing. A text has as many line feeds before as after, its characters are code,
literals and comments in one way or another, and however they are marked, each line of what is left is the
line of the text without the characters of comments and with a space where a block comment opens. -/
theorem stripComments_retracts_lines (s : String) :
    stripComments (stripComments s) = stripComments s ∧
      (stripComments s).toList.count '\n' = s.toList.count '\n' ∧
      (∃ ms, Marking '\x00' s.toList ms) ∧
      ∀ ms, Marking '\x00' s.toList ms →
        s.toList.splitOn '\n' = (markedLines ms).map (·.map (·.char)) ∧
          (stripComments s).toList.splitOn '\n' =
            (markedLines ms).map (·.filterMap Marked.left?) := by
  have text : (stripComments s).toList = stripFrom .code '\x00' s.toList := String.toList_ofList
  obtain ⟨ms, marks⟩ := exists_marking '\x00' s.toList
  refine ⟨?_, ?_, ⟨ms, marks⟩, fun other marks => ?_⟩
  · have again : stripFrom .code '\x00' (stripFrom .code '\x00' s.toList) =
        stripFrom .code '\x00' s.toList :=
      stripFrom_stripFrom .code rfl
    rw [stripComments, text, again]
    rfl
  · rw [text]
    exact marks.count_line
  · rw [text]
    exact marks.lines

example : stripComments "/*\n*/ a'b // c" = " \n a'b " := by decide +kernel

end HeaderMeta.Text
