import HeaderMeta.Proofs.Comments.Lexemes
import HeaderMeta.Proofs.Grammar.Lexing
import Mathlib.Data.List.Pairwise

/-! Every byte of a text is accounted for.

The lexemes of a text lie one behind the other. Each is a token spelled as the text is there, a
fault, or text that stands for nothing: blanks, a complete comment or a directive
(`accounted_extent`). So what lies between tokens and faults is made of such pieces.
-/

set_option autoImplicit false

namespace HeaderMeta

namespace Lexeme
open Text

section Pieces

/-- `line` is what is left of a logical line before `rest`. A backslash carries the line over a line
end and otherwise takes the character behind it along. -/
inductive LogicalLine : (line rest : List Char) → Prop where
  | endOfText : LogicalLine [] []
  | endOfLine (rest : List Char) : LogicalLine [] ('\n' :: rest)
  | plain {c : Char} {line rest : List Char} (inside : c ≠ '\n') (unescaped : c ≠ '\\') :
      LogicalLine line rest → LogicalLine (c :: line) rest
  | spliced {line rest : List Char} :
      LogicalLine line rest → LogicalLine ('\\' :: '\r' :: '\n' :: line) rest
  | escaped {c : Char} {line rest : List Char}
      (single : c = '\r' → (line ++ rest).head? ≠ some '\n') :
      LogicalLine line rest → LogicalLine ('\\' :: c :: line) rest
  /-- Nothing is left for the backslash to take along. -/
  | lastBackslash : LogicalLine ['\\'] []

/-- Text before `rest` that stands for no token and is no fault. -/
inductive Quiet : (text rest : List Char) → Prop where
  | blanks {text rest : List Char} (blank : ∀ c ∈ text, isSpace c = true) : Quiet text rest
  | lineComment {body rest : List Char} (inside : '\n' ∉ body) (line : AtLine rest) :
      Quiet ('/' :: '/' :: body) rest
  /-- The comment ends at the first closing mark behind its opening one. -/
  | blockComment {body rest : List Char} (closed : ∃ inner, body = inner ++ ['*', '/'])
      (first : ∀ inner more, body = inner ++ '*' :: '/' :: more → more = []) :
      Quiet ('/' :: '*' :: body) rest
  | directive {line rest : List Char} (whole : LogicalLine line rest) : Quiet ('#' :: line) rest

inductive Silent : (text rest : List Char) → Prop where
  | done (rest : List Char) : Silent [] rest
  | piece {text more rest : List Char} (quiet : Quiet text (more ++ rest)) :
      Silent more rest → Silent (text ++ more) rest

def Idle (x : Lexeme) : Prop :=
  Lexing.tokenOf x = none ∧ Lexing.faultOf x = none

/-- A lexeme before `rest` is a token with its own text, a fault, or quiet. -/
inductive Accounted (x : Lexeme) (rest : List Char) : Prop where
  | token {t : Token} (read : Lexing.tokenOf x = some t) (sound : Lexing.faultOf x = none)
      (inside : t ≠ .eof) (spelled : t.spelling.toList = x.text)
  | fault {f : LexFault} (silent : Lexing.tokenOf x = none) (found : Lexing.faultOf x = some f)
  | quiet (idle : x.Idle) (quiet : Quiet x.text rest)

end Pieces

section Kinds
variable {c : Char} {cs rest : List Char}

theorem accounted_verbatim {kind : LexemeKind} (make : String → Token) (text : List Char)
    (read : Lexing.tokenOf ⟨kind, text⟩ = some (make (.ofList text)))
    (sound : Lexing.faultOf ⟨kind, text⟩ = none)
    (verbatim : ∀ s, make s ≠ .eof ∧ (make s).spelling = s) : Accounted ⟨kind, text⟩ rest :=
  .token read sound (verbatim _).1 (by rw [(verbatim _).2, String.toList_ofList])

theorem accounted_mark (m : Mark) (spelled : c :: cs = m.spelling.toList) :
    Accounted ⟨.mark m, c :: cs⟩ rest :=
  .token rfl rfl nofun spelled.symm

theorem accounted_symbol : Accounted ⟨.symbol, [c]⟩ rest :=
  .token rfl rfl nofun (String.toList_singleton c)

theorem accounted_stray : Accounted ⟨.stray, c :: cs⟩ rest :=
  .fault rfl rfl

theorem accounted_stringLit (closed : Bool) (text : List Char) :
    Accounted ⟨.stringLit closed, text⟩ rest := by
  cases closed with
  | true => exact accounted_verbatim .stringLit text rfl rfl fun _ => ⟨nofun, rfl⟩
  | false => exact .fault rfl rfl

theorem accounted_char {kind : LexemeKind} {n : Nat} (taken : charExtent cs = (kind, n)) :
    Accounted ⟨kind, '\'' :: cs.take n⟩ (cs.drop n) := by
  cases charCuts_of_charExtent taken with
  | bare => exact accounted_symbol
  | closed => exact accounted_verbatim .charLit _ rfl rfl fun _ => ⟨nofun, rfl⟩
  | opened => exact accounted_stray

theorem accounted_punctuation {kind : LexemeKind} {n : Nat}
    (taken : punctuationExtent c cs = (kind, n)) :
    Accounted ⟨kind, c :: cs.take n⟩ (cs.drop n) := by
  unfold punctuationExtent at taken
  split at taken
  case h_21 =>
    split at taken <;> cases taken
    · exact accounted_symbol
    · exact accounted_stray
  all_goals
    cases taken
    exact accounted_mark _ rfl

theorem quiet_lineComment :
    Quiet ('/' :: '/' :: cs.take (lengthWhile (· != '\n') cs))
      (cs.drop (lengthWhile (· != '\n') cs)) := by
  refine .lineComment ?_ ?_
  · rw [take_lengthWhile]
    intro mem
    exact absurd (List.mem_takeWhile_imp mem) (by decide)
  · rw [drop_lengthWhile]
    intro c first
    have stop := List.head?_dropWhile_not (· != '\n') cs
    rw [first] at stop
    simpa using stop

/-- The body ends with its closing mark, and holds no other. -/
theorem commentBody_closed (closed : (commentBody cs).2 = true) :
    (∃ inner, cs.take (commentBody cs).1 = inner ++ ['*', '/']) ∧
      ∀ inner more, cs.take (commentBody cs).1 = inner ++ '*' :: '/' :: more → more = [] := by
  fun_induction commentBody cs with
  | case1 => cases closed
  | case2 rest =>
    refine ⟨⟨[], rfl⟩, fun inner more body => ?_⟩
    have size := congrArg List.length body
    simp at size
    exact List.eq_nil_of_length_eq_zero (by omega)
  | case3 c cs notEnd n closed' body ih =>
    rw [body] at ih
    obtain ⟨⟨inner, ends⟩, first⟩ := ih closed
    refine ⟨⟨c :: inner, by rw [List.take_succ_cons, ends]; rfl⟩, fun before more body => ?_⟩
    rw [List.take_succ_cons] at body
    cases before with
    | nil =>
      -- the closing mark would have ended the body here
      obtain ⟨rfl, slash⟩ := List.cons.inj body
      cases cs with
      | nil => simp at slash
      | cons d ds =>
        cases n with
        | zero => cases slash
        | succ n =>
          obtain ⟨rfl, -⟩ := List.cons.inj slash
          exact absurd rfl (notEnd ds rfl)
    | cons _ before => exact first before more (List.cons.inj body).2

theorem logicalLine_directiveBody (cs : List Char) :
    LogicalLine (cs.take (directiveBody cs)) (cs.drop (directiveBody cs)) := by
  fun_induction directiveBody cs with
  | case1 => exact .endOfText
  | case2 cs => exact .endOfLine cs
  | case3 => exact .lastBackslash
  | case4 cs ih => exact .spliced ih
  | case5 c cs notReturn ih =>
    refine .escaped ?_ ih
    rintro rfl newline
    rw [List.drop_succ_cons, List.drop_succ_cons, List.take_append_drop] at newline
    obtain ⟨ds, rfl⟩ := List.head?_eq_some_iff.mp newline
    exact notReturn ds rfl rfl
  | case6 c cs notLine notLast notReturn notEscape ih =>
    refine .plain notLine ?_ ih
    rintro rfl
    cases cs with
    | nil => exact notLast rfl rfl
    | cons d ds => exact notEscape d ds rfl rfl

theorem accounted_extent {kind : LexemeKind} {n : Nat} (taken : extent c cs = (kind, n)) :
    Accounted ⟨kind, c :: cs.take n⟩ (cs.drop n) := by
  cases cuts_of_extent taken with
  | blanks blank =>
    refine .quiet ⟨rfl, rfl⟩ (.blanks ?_)
    rw [take_lengthWhile]
    exact List.forall_mem_cons.mpr ⟨blank, fun d mem => List.mem_takeWhile_imp mem⟩
  | lineComment rest => exact .quiet ⟨rfl, rfl⟩ quiet_lineComment
  | blockComment rest =>
    cases closed : (commentBody rest).2 with
    | true =>
      obtain ⟨ends, first⟩ := commentBody_closed closed
      exact .quiet ⟨rfl, rfl⟩ (.blockComment ends first)
    | false => exact .fault rfl rfl
  | directive => exact .quiet ⟨rfl, rfl⟩ (.directive (logicalLine_directiveBody cs))
  | string => exact accounted_stringLit _ _
  | char own => exact accounted_char own
  | word => exact accounted_verbatim .word _ rfl rfl fun _ => ⟨nofun, rfl⟩
  | number => exact accounted_verbatim .number _ rfl rfl fun _ => ⟨nofun, rfl⟩
  | punctuation _ _ _ own => exact accounted_punctuation own

end Kinds

section Cutting

theorem cut_flatMap {cs : List Char} {before after : List Lexeme}
    (cuts : cut cs = before ++ after) : cut (after.flatMap text) = after := by
  induction before generalizing cs with
  | nil =>
    rw [← List.nil_append after, ← cuts, flatten_cut]
  | cons x before ih =>
    cases cs with
    | nil => simp [cut] at cuts
    | cons c cs =>
      rw [cut] at cuts
      exact ih (List.cons.inj cuts).2

/-- A lexeme is accounted for before the text of the lexemes behind it. -/
theorem accounted_cut {cs : List Char} {before after : List Lexeme} {x : Lexeme}
    (cuts : cut cs = before ++ x :: after) : Accounted x (after.flatMap text) := by
  have own := cut_flatMap cuts
  generalize (x :: after).flatMap text = ds at own
  cases ds with
  | nil => simp [cut] at own
  | cons c ds =>
    rw [cut] at own
    obtain ⟨rfl, rfl⟩ := List.cons.inj own
    rw [flatten_cut]
    exact accounted_extent rfl

theorem silent_cut {cs : List Char} {before inner after : List Lexeme}
    (cuts : cut cs = before ++ (inner ++ after))
    (idle : ∀ x ∈ inner, x.Idle) : Silent (inner.flatMap text) (after.flatMap text) := by
  induction inner generalizing before with
  | nil => exact .done _
  | cons x inner ih =>
    obtain ⟨⟨noToken, noFault⟩, later⟩ := List.forall_mem_cons.mp idle
    have rest : cut cs = (before ++ [x]) ++ (inner ++ after) := by simpa using cuts
    rw [List.flatMap_cons]
    refine .piece ?_ (ih rest later)
    rw [← List.flatMap_append]
    cases accounted_cut cuts with
    | token read => simp [noToken] at read
    | fault _ found => simp [noFault] at found
    | quiet _ quiet => exact quiet

end Cutting

end Lexeme

namespace Source

theorem bytes_append (cs ds : List Char) : bytes (cs ++ ds) = bytes cs + bytes ds := by
  induction cs with
  | nil => simp [bytes]
  | cons c cs ih => rw [List.cons_append, bytes, bytes, ih, Nat.add_assoc]

theorem bytes_pos {cs : List Char} (some : cs ≠ []) : 0 < bytes cs := by
  cases cs with
  | nil => exact absurd rfl some
  | cons c cs => exact Nat.add_pos_left c.utf8Size_pos _

theorem bytes_toList (s : String) : bytes s.toList = s.utf8ByteSize := by
  suffices all : ∀ cs : List Char, bytes cs = (String.ofList cs).utf8ByteSize by
    rw [all, String.ofList_toList]
  intro cs
  induction cs with
  | nil => rfl
  | cons c cs ih =>
    rw [bytes, ih, String.ofList_cons, String.utf8ByteSize_append, String.utf8ByteSize_singleton]

end Source

namespace Span

def Holds (s : Span) (i : Nat) : Prop :=
  s.start ≤ i ∧ i < s.stop

def Apart (a b : Span) : Prop :=
  a.stop ≤ b.start ∨ b.stop ≤ a.start

instance : Std.Symm Apart :=
  ⟨fun _ _ apart => apart.symm⟩

end Span

namespace Lexing
open Lexeme (cut)
open Source (bytes)

section Spots
variable {p : Position} {xs : List Lexeme} {x : Lexeme} {span : Span} {cs : List Char}

/-- Lexemes with the spans they stand at, one behind the other from `p`. -/
def spots (p : Position) : List Lexeme → List (Lexeme × Span)
  | [] => []
  | x :: xs => (x, p.spanOf x.text) :: spots (p.after x.text) xs

theorem tokens_place : (place p xs).tokens =
    (spots p xs).filterMap (fun s => (tokenOf s.1).map (⟨·, s.2⟩)) ++
      [⟨.eof, (p.after (xs.flatMap Lexeme.text)).spanOf []⟩] := by
  induction xs generalizing p with
  | nil => rfl
  | cons x xs ih =>
    rw [place, ih, spots, List.filterMap_cons, List.flatMap_cons, Position.after_append]
    cases tokenOf x <;> rfl

theorem faults_place :
    (place p xs).faults = (spots p xs).filterMap fun s => (faultOf s.1).map (⟨·, s.2⟩) := by
  induction xs generalizing p with
  | nil => rfl
  | cons x xs ih =>
    rw [place, ih, spots, List.filterMap_cons]
    cases faultOf x <;> rfl

theorem mem_dropLast_tokens {t : Placed} : t ∈ (place p xs).tokens.dropLast ↔
    ∃ x, (x, t.span) ∈ spots p xs ∧ tokenOf x = some t.token := by
  rw [tokens_place, List.dropLast_concat, List.mem_filterMap]
  refine ⟨?_, ?_⟩
  · rintro ⟨⟨x, span⟩, mem, read⟩
    obtain ⟨token, own, rfl⟩ := Option.map_eq_some_iff.mp read
    exact ⟨x, mem, own⟩
  · rintro ⟨x, mem, read⟩
    exact ⟨_, mem, by rw [read, Option.map_some]⟩

theorem mem_faults {f : PlacedFault} : f ∈ (place p xs).faults ↔
    ∃ x, (x, f.span) ∈ spots p xs ∧ faultOf x = some f.fault := by
  rw [faults_place, List.mem_filterMap]
  refine ⟨?_, ?_⟩
  · rintro ⟨⟨x, span⟩, mem, found⟩
    obtain ⟨fault, own, rfl⟩ := Option.map_eq_some_iff.mp found
    exact ⟨x, mem, own⟩
  · rintro ⟨x, mem, found⟩
    exact ⟨_, mem, by rw [found, Option.map_some]⟩

theorem mem_spots : (x, span) ∈ spots p xs ↔
    ∃ before after, xs = before ++ x :: after ∧
      span = (p.after (before.flatMap Lexeme.text)).spanOf x.text := by
  induction xs generalizing p with
  | nil => simp [spots]
  | cons y xs ih =>
    rw [spots, List.mem_cons, ih]
    refine ⟨?_, ?_⟩
    · rintro (same | ⟨before, after, rfl, here⟩)
      · obtain ⟨rfl, rfl⟩ := Prod.mk.inj same
        exact ⟨[], xs, rfl, rfl⟩
      · exact ⟨y :: before, after, rfl, by rw [here, List.flatMap_cons, Position.after_append]⟩
    · rintro ⟨before, after, parts, here⟩
      cases before with
      | nil =>
        obtain ⟨rfl, rfl⟩ := List.cons.inj parts
        exact .inl (Prod.ext rfl here)
      | cons z before =>
        obtain ⟨rfl, rfl⟩ := List.cons.inj parts
        rw [List.flatMap_cons, Position.after_append] at here
        exact .inr ⟨before, after, rfl, here⟩

@[simp] theorem start_spanOf (cs : List Char) : (p.spanOf cs).start = p.offset := rfl

@[simp] theorem stop_spanOf (cs : List Char) : (p.spanOf cs).stop = p.offset + bytes cs :=
  p.offset_after cs

@[simp] theorem offset_start_after (cs : List Char) :
    (Position.start.after cs).offset = bytes cs := by
  rw [Position.offset_after, Position.start, Nat.zero_add]

/-- A lexeme takes the bytes behind those of the lexemes before it. -/
theorem exists_cut_of_mem_spots (mem : (x, span) ∈ spots .start xs) :
    ∃ before after, xs = before ++ x :: after ∧ span.start = bytes (before.flatMap Lexeme.text) ∧
      span.stop = bytes (before.flatMap Lexeme.text) + bytes x.text := by
  obtain ⟨before, after, cuts, rfl⟩ := mem_spots.mp mem
  exact ⟨before, after, cuts, by simp, by simp⟩

theorem pairwise_spots (p : Position) (xs : List Lexeme) :
    (spots p xs).Pairwise fun a b => a.2.stop ≤ b.2.start := by
  induction xs generalizing p with
  | nil => exact .nil
  | cons x xs ih =>
    refine List.pairwise_cons.mpr ⟨?_, ih (p.after x.text)⟩
    rintro ⟨y, span⟩ mem
    obtain ⟨before, after, -, rfl⟩ := mem_spots.mp mem
    simp [Position.offset_after]

/-- Of two lexemes only one takes a byte. -/
theorem apart_of_mem_spots {s t : Lexeme × Span} (first : s ∈ spots p xs) (second : t ∈ spots p xs)
    (ne : s ≠ t) : s.2.Apart t.2 := by
  have apart : (spots p xs).Pairwise fun a b => a.2.Apart b.2 :=
    (pairwise_spots p xs).imp fun before => .inl before
  exact apart.forall first second ne

theorem start_lt_stop (mem : (x, span) ∈ spots p (cut cs)) : span.start < span.stop := by
  obtain ⟨before, after, cuts, rfl⟩ := mem_spots.mp mem
  have some : x.text ≠ [] := Lexeme.text_ne_nil_of_mem_cut (cuts ▸ List.mem_append_cons_self)
  simpa using Source.bytes_pos some

theorem stop_le_of_mem_spots (mem : (x, span) ∈ spots .start (cut cs)) : span.stop ≤ bytes cs := by
  obtain ⟨before, after, cuts, -, stop⟩ := exists_cut_of_mem_spots mem
  rw [stop, ← Lexeme.flatten_cut cs, cuts, List.flatMap_append, List.flatMap_cons,
    Source.bytes_append, Source.bytes_append]
  omega

theorem accounted_of_mem_spots (mem : (x, span) ∈ spots p (cut cs)) : ∃ rest, x.Accounted rest := by
  obtain ⟨before, after, cuts, -⟩ := mem_spots.mp mem
  exact ⟨_, Lexeme.accounted_cut cuts⟩

end Spots

/-- Whether a token or a fault takes the byte `i`. -/
def Taken (l : Lexing) (i : Nat) : Prop :=
  (∃ t ∈ l.tokens, t.span.Holds i) ∨ ∃ f ∈ l.faults, f.span.Holds i

/-- The bytes from `start` to before `stop` are as many in a row as no token and no fault takes. -/
structure Gap (l : Lexing) (size start stop : Nat) : Prop where
  some : start < stop
  inside : stop ≤ size
  free : ∀ i, start ≤ i → i < stop → ¬ l.Taken i
  left : start = 0 ∨ l.Taken (start - 1)
  right : stop = size ∨ l.Taken stop

/-- Nothing of the text is lost, taken twice or misread. -/
structure Accounts (l : Lexing) (source : Source) : Prop where
  ordered : l.tokens.Pairwise fun a b =>
    a.span.start < b.span.start ∧ a.span.stop ≤ b.span.start
  spelled : ∀ t ∈ l.tokens.dropLast, t.token ≠ .eof ∧ t.span.start < t.span.stop ∧
    source.slice t.span.start t.span.stop = t.token.spelling.toList
  ended : ∃ last, l.tokens.getLast? = some last ∧ last.token = .eof ∧
    last.span.start = source.text.utf8ByteSize ∧ last.span.stop = source.text.utf8ByteSize
  faulted : l.faults.Pairwise fun a b => a.span.Apart b.span
  apart : ∀ f ∈ l.faults, f.span.start < f.span.stop ∧ ∀ t ∈ l.tokens, f.span.Apart t.span
  silent : ∀ start stop, l.Gap source.text.utf8ByteSize start stop →
    ∃ before gap rest, source.text.toList = before ++ (gap ++ rest) ∧
      bytes before = start ∧ bytes (before ++ gap) = stop ∧ Lexeme.Silent gap rest

section Gaps
variable {p : Position} {xs : List Lexeme} {cs : List Char} {start stop i : Nat}

theorem taken_place : (place p xs).Taken i ↔
    ∃ x span, (x, span) ∈ spots p xs ∧ ¬ x.Idle ∧ span.Holds i := by
  unfold Taken
  refine ⟨?_, ?_⟩
  · rintro (⟨t, mem, holds⟩ | ⟨f, mem, holds⟩)
    · rcases List.mem_append.mp (tokens_place ▸ mem) with inner | last
      · obtain ⟨x, spot, read⟩ :=
          mem_dropLast_tokens.mp (by rwa [tokens_place, List.dropLast_concat])
        exact ⟨x, _, spot, fun idle => by simp [idle.1] at read, holds⟩
      · -- the end of the file takes no byte
        obtain rfl := List.mem_singleton.mp last
        exact absurd (holds.1.trans_lt holds.2) (Nat.lt_irrefl _)
    · obtain ⟨x, spot, found⟩ := mem_faults.mp mem
      exact ⟨x, _, spot, fun idle => by simp [idle.2] at found, holds⟩
  · rintro ⟨x, span, spot, loud, holds⟩
    cases read : tokenOf x with
    | some t =>
      have mem : ⟨t, span⟩ ∈ (place p xs).tokens.dropLast := mem_dropLast_tokens.mpr ⟨x, spot, read⟩
      exact .inl ⟨_, List.dropLast_subset _ mem, holds⟩
    | none =>
      cases found : faultOf x with
      | some f => exact .inr ⟨⟨f, span⟩, mem_faults.mpr ⟨x, spot, found⟩, holds⟩
      | none => exact absurd ⟨read, found⟩ loud

theorem exists_cut_start (gap : (ofChars cs).Gap (bytes cs) start stop) :
    ∃ before after, cut cs = before ++ after ∧ bytes (before.flatMap Lexeme.text) = start := by
  rcases gap.left with rfl | taken
  · exact ⟨[], cut cs, rfl, rfl⟩
  · obtain ⟨x, span, spot, loud, holds⟩ := taken_place.mp taken
    have free : ¬ span.Holds start := fun here =>
      gap.free start (Nat.le_refl start) gap.some (taken_place.mpr ⟨x, span, spot, loud, here⟩)
    obtain ⟨before, after, cuts, starts, stops⟩ := exists_cut_of_mem_spots spot
    refine ⟨before ++ [x], after, by simp [cuts], ?_⟩
    rw [List.flatMap_append, List.flatMap_singleton, Source.bytes_append]
    unfold Span.Holds at holds free
    omega

theorem exists_cut_stop (gap : (ofChars cs).Gap (bytes cs) start stop) :
    ∃ before after, cut cs = before ++ after ∧ bytes (before.flatMap Lexeme.text) = stop := by
  rcases gap.right with rfl | taken
  · exact ⟨cut cs, [], (List.append_nil _).symm, by rw [Lexeme.flatten_cut]⟩
  · obtain ⟨x, span, spot, loud, holds⟩ := taken_place.mp taken
    have some := gap.some
    have free : ¬ span.Holds (stop - 1) := fun here =>
      gap.free (stop - 1) (by omega) (by omega) (taken_place.mpr ⟨x, span, spot, loud, here⟩)
    obtain ⟨before, after, cuts, starts, stops⟩ := exists_cut_of_mem_spots spot
    refine ⟨before, x :: after, cuts, ?_⟩
    unfold Span.Holds at holds free
    omega

theorem silent_of_gap (gap : (ofChars cs).Gap (bytes cs) start stop) :
    ∃ before inner rest, cs = before ++ (inner ++ rest) ∧
      bytes before = start ∧ bytes (before ++ inner) = stop ∧ Lexeme.Silent inner rest := by
  have some := gap.some
  obtain ⟨before, after, cuts, atStart⟩ := exists_cut_start gap
  obtain ⟨upTo, rest, cutsAgain, atStop⟩ := exists_cut_stop gap
  obtain ⟨inner, rfl, rfl⟩ : ∃ inner, upTo = before ++ inner ∧ after = inner ++ rest := by
    rcases List.append_eq_append_iff.mp (cuts.symm.trans cutsAgain) with parts | ⟨inner, rfl, -⟩
    · exact parts
    · rw [List.flatMap_append, Source.bytes_append] at atStart
      omega
  -- a lexeme that is not idle would stand in the gap
  have idle : ∀ x ∈ inner, x.Idle := by
    intro x mem
    by_contra loud
    obtain ⟨left, right, rfl⟩ := List.append_of_mem mem
    have spot : (x, (Position.start.after ((before ++ left).flatMap Lexeme.text)).spanOf x.text) ∈
        spots .start (cut cs) := mem_spots.mpr ⟨before ++ left, right ++ rest, by simp [cuts], rfl⟩
    have size : 0 < bytes x.text := by simpa using start_lt_stop spot
    have inGap : start ≤ bytes ((before ++ left).flatMap Lexeme.text) ∧
        bytes ((before ++ left).flatMap Lexeme.text) < stop := by
      simp only [← atStart, ← atStop, List.flatMap_append, List.flatMap_cons, Source.bytes_append]
      omega
    refine gap.free _ inGap.1 inGap.2 (taken_place.mpr ⟨x, _, spot, loud, ?_, ?_⟩)
    · rw [start_spanOf, offset_start_after]
    · rw [stop_spanOf, offset_start_after]
      omega
  refine ⟨before.flatMap Lexeme.text, inner.flatMap Lexeme.text, rest.flatMap Lexeme.text, ?_,
    atStart, ?_, Lexeme.silent_cut cuts idle⟩
  · rw [← List.flatMap_append, ← List.flatMap_append, ← cuts, Lexeme.flatten_cut]
  · rw [← List.flatMap_append, atStop]

end Gaps

section Tokens
variable {source : Source}

theorem spelled_ofText {t : Placed} (mem : t ∈ (ofText source.text).tokens.dropLast) :
    t.token ≠ .eof ∧ t.span.start < t.span.stop ∧
      source.slice t.span.start t.span.stop = t.token.spelling.toList := by
  obtain ⟨x, spot, read⟩ := mem_dropLast_tokens.mp mem
  obtain ⟨before, after, cuts, span⟩ := mem_spots.mp spot
  have text : source.text.toList =
      before.flatMap Lexeme.text ++ (x.text ++ after.flatMap Lexeme.text) := by
    rw [← List.flatMap_cons, ← List.flatMap_append, ← cuts, Lexeme.flatten_cut]
  have slice : source.slice t.span.start t.span.stop = x.text := by
    rw [span]
    exact Source.slice_after text
  obtain ⟨rest, accounted⟩ := accounted_of_mem_spots spot
  cases accounted with
  | token own _ inside spelled =>
    obtain rfl := Option.some.inj (read.symm.trans own)
    exact ⟨inside, start_lt_stop spot, slice.trans spelled.symm⟩
  | fault silent => simp [read] at silent
  | quiet idle => simp [idle.1] at read

theorem tokens_ofText (source : Source) : ∃ last, (ofText source.text).tokens =
      (ofText source.text).tokens.dropLast ++ [last] ∧ last.token = Token.eof ∧
    last.span.start = source.text.utf8ByteSize ∧ last.span.stop = source.text.utf8ByteSize := by
  let there := Position.start.after ((cut source.text.toList).flatMap Lexeme.text)
  have size : there.offset = source.text.utf8ByteSize := by
    rw [offset_start_after, Lexeme.flatten_cut, Source.bytes_toList]
  refine ⟨⟨.eof, there.spanOf []⟩, ?_, rfl, size, size⟩
  rw [ofText, ofChars, tokens_place, List.dropLast_concat]

theorem stop_le_ofText {t : Placed} (mem : t ∈ (ofText source.text).tokens.dropLast) :
    t.span.stop ≤ source.text.utf8ByteSize := by
  obtain ⟨x, spot, -⟩ := mem_dropLast_tokens.mp mem
  exact (stop_le_of_mem_spots spot).trans_eq (Source.bytes_toList _)

theorem ordered_ofText : (ofText source.text).tokens.Pairwise fun a b =>
    a.span.start < b.span.start ∧ a.span.stop ≤ b.span.start := by
  obtain ⟨last, tokens, -, atEnd, -⟩ := tokens_ofText source
  rw [tokens, List.pairwise_append]
  refine ⟨?_, List.pairwise_singleton _ _, fun t mem _ final => ?_⟩
  · rw [ofText, ofChars, tokens_place, List.dropLast_concat, List.pairwise_filterMap]
    refine (pairwise_spots .start _).imp_of_mem ?_
    rintro ⟨x, span⟩ ⟨y, later⟩ first second before t own u other
    obtain ⟨_, -, rfl⟩ := Option.map_eq_some_iff.mp own
    obtain ⟨_, -, rfl⟩ := Option.map_eq_some_iff.mp other
    exact ⟨(start_lt_stop first).trans_le before, before⟩
  · obtain rfl := List.mem_singleton.mp final
    have inside := stop_le_ofText mem
    have some := (spelled_ofText mem).2.1
    exact ⟨by omega, by omega⟩

theorem faulted_ofText : (ofText source.text).faults.Pairwise fun a b => a.span.Apart b.span := by
  rw [ofText, ofChars, faults_place, List.pairwise_filterMap]
  refine (pairwise_spots .start _).imp ?_
  rintro ⟨x, span⟩ ⟨y, later⟩ before f own g other
  obtain ⟨_, -, rfl⟩ := Option.map_eq_some_iff.mp own
  obtain ⟨_, -, rfl⟩ := Option.map_eq_some_iff.mp other
  exact .inl before

theorem apart_ofText {f : PlacedFault} {t : Placed} (fault : f ∈ (ofText source.text).faults)
    (token : t ∈ (ofText source.text).tokens) : f.span.Apart t.span := by
  obtain ⟨x, spot, found⟩ := mem_faults.mp fault
  obtain ⟨last, tokens, -, atEnd, -⟩ := tokens_ofText source
  rw [tokens, List.mem_append, List.mem_singleton] at token
  rcases token with inner | rfl
  · obtain ⟨y, other, read⟩ := mem_dropLast_tokens.mp inner
    refine apart_of_mem_spots spot other fun same => ?_
    obtain rfl := (Prod.mk.inj same).1
    obtain ⟨rest, accounted⟩ := accounted_of_mem_spots spot
    cases accounted with
    | token _ sound => simp [found] at sound
    | fault silent => simp [read] at silent
    | quiet idle => simp [idle.1] at read
  · have inside := (stop_le_of_mem_spots spot).trans_eq (Source.bytes_toList _)
    exact .inl (inside.trans_eq atEnd.symm)

end Tokens

/-- The tokens, the faults and what lies between them make up the whole text. -/
theorem ofText_accounts (source : Source) : (ofText source.text).Accounts source where
  ordered := ordered_ofText
  spelled _ mem := spelled_ofText mem
  ended := by
    obtain ⟨last, tokens, eof, span⟩ := tokens_ofText source
    exact ⟨last, by rw [tokens, List.getLast?_concat], eof, span⟩
  faulted := faulted_ofText
  apart f mem := by
    obtain ⟨x, spot, -⟩ := mem_faults.mp mem
    exact ⟨start_lt_stop spot, fun t token => apart_ofText mem token⟩
  silent start stop gap := silent_of_gap (by rwa [← Source.bytes_toList] at gap)

end Lexing

end HeaderMeta
