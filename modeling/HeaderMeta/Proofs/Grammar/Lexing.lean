import HeaderMeta.Proofs.Grammar
import HeaderMeta.Text.Word
import Mathlib.Data.List.Basic
import Mathlib.Data.List.TakeWhile

/-! The tokens of a text that is laid out from pieces.

A piece is cut off on its own wherever what follows does not carry it on (`Piece.stopsAt`), a blank or
a closing parenthesis for one, and the blanks between pieces leave nothing behind. `Covers` relates
pieces to the tokens read for them. Places matter to it for arguments only, whose text is read back from
the source.
-/

set_option autoImplicit false

namespace HeaderMeta

section Places

def Source.bytes : List Char → Nat
  | [] => 0
  | c :: cs => c.utf8Size + bytes cs

theorem Position.offset_after (p : Position) (cs : List Char) :
    (p.after cs).offset = p.offset + Source.bytes cs := by
  induction cs generalizing p with
  | nil => rfl
  | cons c cs ih =>
    have step : (p.next c).offset = p.offset + c.utf8Size := by
      unfold next
      split <;> rfl
    change ((p.next c).after cs).offset = _
    rw [ih, step, Source.bytes, Nat.add_assoc]

theorem Source.exists_bytes_cons (c : Char) (cs : List Char) :
    ∃ n, c.utf8Size + bytes cs = n + 1 := by
  have pos := c.utf8Size_pos
  exact ⟨c.utf8Size + bytes cs - 1, by omega⟩

theorem Source.dropBytes_append (cs ds : List Char) : dropBytes (bytes cs) (cs ++ ds) = ds := by
  induction cs with
  | nil => simp [bytes, dropBytes]
  | cons c cs ih =>
    obtain ⟨n, size⟩ := exists_bytes_cons c cs
    rw [bytes, size, List.cons_append, dropBytes, ← size, Nat.add_sub_cancel_left, ih]

theorem Source.takeBytes_append (cs ds : List Char) : takeBytes (bytes cs) (cs ++ ds) = cs := by
  induction cs with
  | nil => simp [bytes, takeBytes]
  | cons c cs ih =>
    obtain ⟨n, size⟩ := exists_bytes_cons c cs
    rw [bytes, size, List.cons_append, takeBytes, ← size, Nat.add_sub_cancel_left, ih]

theorem Source.slice_after {source : Source} {before inside rest : List Char}
    (text : source.text.toList = before ++ (inside ++ rest)) :
    source.slice (Position.start.after before).offset
      ((Position.start.after before).after inside).offset = inside := by
  have start : (Position.start.after before).offset = bytes before := by
    simp [Position.offset_after, Position.start]
  rw [slice, Position.offset_after _ inside, start, Nat.add_sub_cancel_left, text,
    dropBytes_append, takeBytes_append]

end Places

namespace Lexeme

def Ends (after : List Char) : Prop :=
  ∀ c ∈ after.head?, isSpace c = true ∨ c = ')'

theorem Ends.ne {c : Char} {after : List Char} (ends : Ends (c :: after)) :
    c ≠ ':' ∧ c ≠ '&' ∧ c ≠ '.' ∧ c ≠ '"' ∧ isNumberPart c = false := by
  rcases ends c rfl with blank | rfl
  · simp only [isSpace, Bool.or_eq_true, beq_iff_eq] at blank
    rcases blank with ((((rfl | rfl) | rfl) | rfl) | rfl) | rfl <;> decide
  · decide

theorem ends_of_blank {blanks after : List Char} (blank : blanks.all isSpace = true)
    (some : blanks ≠ []) : Ends (blanks ++ after) := by
  cases blanks with
  | nil => exact absurd rfl some
  | cons b bs =>
    intro c first
    cases first
    exact .inl (Bool.and_eq_true_iff.mp blank).1

theorem lengthWhile_append {p : Char → Bool} {cs after : List Char} (all : cs.all p = true)
    (ends : ∀ c ∈ after.head?, p c = false) : lengthWhile p (cs ++ after) = cs.length := by
  have stop : after.takeWhile p = [] := by
    cases after with
    | nil => rfl
    | cons c _ => simp [ends c rfl]
  rw [lengthWhile, List.takeWhile_append_of_pos (by simpa using all), stop, List.append_nil]

theorem isSpace_eq_false_of_isNumberPart {c : Char} (part : isNumberPart c = true) :
    isSpace c = false := by
  cases blank : isSpace c with
  | false => rfl
  | true =>
    simp only [isSpace, Bool.or_eq_true, beq_iff_eq] at blank
    rcases blank with ((((rfl | rfl) | rfl) | rfl) | rfl) | rfl <;>
      simp [isNumberPart, isWordPart] at part

theorem isNumberPart_of_isWordStart {c : Char} (start : isWordStart c = true) :
    isNumberPart c = true := by
  simp only [isWordStart, Bool.or_eq_true] at start
  rcases start with start | start <;> simp [isNumberPart, isWordPart, Char.isAlphanum, start]

theorem isNumberPart_of_isWordPart {c : Char} (part : isWordPart c = true) :
    isNumberPart c = true := by
  simp [isNumberPart, part]

theorem isWordPart_of_isWordStart {c : Char} (start : isWordStart c = true) : isWordPart c = true := by
  simp only [isWordStart, Bool.or_eq_true] at start
  rcases start with alpha | underscore
  · simp [isWordPart, Char.isAlphanum, alpha]
  · simp [isWordPart, underscore]

theorem isWordPart_of_isIdentifier {text : String} (identifier : Grammar.isIdentifier text = true) :
    ∀ c ∈ text.toList, isWordPart c = true := by
  unfold Grammar.isIdentifier at identifier
  split at identifier
  next => cases identifier
  next c cs spelled =>
    obtain ⟨start, parts⟩ := Bool.and_eq_true_iff.mp identifier
    rw [spelled]
    exact List.forall_mem_cons.mpr ⟨isWordPart_of_isWordStart start, List.all_eq_true.mp parts⟩

theorem toNat_of_isWordPart {c : Char} (part : isWordPart c = true) : 48 ≤ c.toNat ∧ c.toNat ≤ 122 := by
  change ((decide ('A'.val ≤ c.val ∧ c.val ≤ 'Z'.val) ||
    (decide ('a'.val ≤ c.val) && decide (c.val ≤ 'z'.val))) ||
    (decide ('0'.val ≤ c.val) && decide (c.val ≤ '9'.val)) || c == '_') = true at part
  simp only [Bool.or_eq_true, Bool.and_eq_true, decide_eq_true_eq, beq_iff_eq,
    UInt32.le_iff_toNat_le] at part
  rcases part with ((⟨low, high⟩ | ⟨low, high⟩) | ⟨low, high⟩) | rfl
  case inr => decide
  all_goals exact ⟨le_trans (by decide) low, le_trans high (by decide)⟩

theorem Ends.not_isNumberPart {after : List Char} (ends : Ends after) :
    ∀ c ∈ after.head?, isNumberPart c = false := by
  intro c first
  cases after with
  | nil => cases first
  | cons d rest =>
    cases first
    exact ends.ne.2.2.2.2

theorem Ends.not_isWordPart {after : List Char} (ends : Ends after) :
    ∀ c ∈ after.head?, isWordPart c = false ∧ c ≠ '"' := by
  intro c first
  obtain ⟨rest, rfl⟩ := List.head?_eq_some_iff.mp first
  refine ⟨?_, ends.ne.2.2.2.1⟩
  cases part : isWordPart c with
  | false => rfl
  | true => exact absurd (isNumberPart_of_isWordPart part) (by simp [ends.ne.2.2.2.2])

theorem Ends.not_joint {after : List Char} (ends : Ends after) :
    ∀ c ∈ after.head?, c ≠ ':' ∧ c ≠ '&' ∧ c ≠ '.' := by
  intro c first
  obtain ⟨rest, rfl⟩ := List.head?_eq_some_iff.mp first
  obtain ⟨notColon, notAmp, notDot, -⟩ := ends.ne
  exact ⟨notColon, notAmp, notDot⟩

/-- A quote directly behind would make a word the mark of a string literal. -/
theorem append_ne_quote {cs after rest : List Char}
    (ends : ∀ c ∈ after.head?, isWordPart c = false ∧ c ≠ '"') (parts : cs.all isWordPart = true) :
    cs ++ after ≠ '"' :: rest := by
  rintro same
  cases cs with
  | nil =>
    obtain rfl : after = '"' :: rest := same
    exact (ends '"' rfl).2 rfl
  | cons c cs =>
    obtain ⟨rfl, -⟩ := List.cons.inj same
    simp [isWordPart] at parts

theorem extent_word {c : Char} {cs after : List Char} (start : isWordStart c = true)
    (parts : cs.all isWordPart = true) (ends : ∀ c ∈ after.head?, isWordPart c = false ∧ c ≠ '"') :
    extent c (cs ++ after) = (.word, cs.length) := by
  have solid := isSpace_eq_false_of_isNumberPart (isNumberPart_of_isWordStart start)
  unfold extent
  rw [if_neg (by simp [solid])]
  split
  case h_1 => simp [isWordStart] at start
  case h_2 => simp [isWordStart] at start
  case h_3 => simp [isWordStart] at start
  case h_4 => simp [isWordStart] at start
  case h_5 => simp [isWordStart] at start
  case h_6 same =>
    cases cs with
    | nil =>
      obtain rfl : after = _ := same
      exact absurd (ends '8' rfl).1 (by decide)
    | cons d cs =>
      exact absurd (List.cons.inj same).2 (append_ne_quote ends (Bool.and_eq_true_iff.mp parts).2)
  case h_7 same => exact absurd same (append_ne_quote ends parts)
  case h_8 same => exact absurd same (append_ne_quote ends parts)
  case h_9 same => exact absurd same (append_ne_quote ends parts)
  case h_10 => rw [if_pos start, lengthWhile_append parts fun c first => (ends c first).1]

theorem toNat_of_isWordStart {c : Char} (start : isWordStart c = true) : 65 ≤ c.toNat := by
  rcases Bool.or_eq_true_iff.mp start with alpha | line
  · rcases Bool.or_eq_true_iff.mp alpha with upper | lower
    · have low : 'A'.val ≤ c.val ∧ c.val ≤ 'Z'.val := of_decide_eq_true upper
      exact UInt32.le_iff_toNat_le.mp low.1
    · have low : 'a'.val ≤ c.val := of_decide_eq_true (Bool.and_eq_true_iff.mp lower).1
      exact Nat.le_trans (by decide) (UInt32.le_iff_toNat_le.mp low)
  · rw [beq_iff_eq.mp line]
    decide

theorem isWordStart_eq_false_of_isDigit {c : Char} (digit : c.isDigit = true) :
    isWordStart c = false := by
  cases start : isWordStart c with
  | false => rfl
  | true =>
    have low := (Char.isDigit_iff_toNat.mp digit).2
    have high := toNat_of_isWordStart start
    exact absurd (Nat.le_trans high low) (by decide)

theorem extent_digit {c : Char} {cs after : List Char} (digit : c.isDigit = true)
    (digits : cs.all Char.isDigit = true) (ends : ∀ c ∈ after.head?, isNumberPart c = false) :
    extent c (cs ++ after) = (.number, cs.length) := by
  have part : ∀ d : Char, d.isDigit = true → isNumberPart d = true := fun d h => by
    simp [isNumberPart, isWordPart, Char.isAlphanum, h]
  have parts : cs.all isNumberPart = true :=
    List.all_eq_true.mpr fun d mem => part d (List.all_eq_true.mp digits d mem)
  unfold extent
  rw [if_neg (by simp [isSpace_eq_false_of_isNumberPart (part c digit)])]
  split
  case h_10 =>
    rw [isWordStart_eq_false_of_isDigit digit, if_neg Bool.false_ne_true, if_pos digit,
      lengthWhile_append parts ends]
  all_goals simp at digit

theorem toString_digits (n : Nat) :
    ∃ c cs, (toString n).toList = c :: cs ∧ c.isDigit = true ∧ cs.all Char.isDigit = true := by
  have digits : ∀ c ∈ (toString n).toList, c.isDigit = true := fun c mem =>
    Nat.isDigit_of_mem_toDigits (b := 10) (n := n) (by decide) (by decide) (by simpa using mem)
  cases spelled : (toString n).toList with
  | nil => simp at spelled
  | cons c cs =>
    rw [spelled] at digits
    obtain ⟨first, others⟩ := List.forall_mem_cons.mp digits
    exact ⟨c, cs, rfl, first, List.all_eq_true.mpr others⟩

/-- Where a mark or a symbol starts, nothing else can be read. -/
theorem extent_at_punctuation {c : Char} (cs : List Char)
    (among : c ∈ [':', ';', ',', '{', '}', '(', ')', '[', ']', '<', '>', '*', '&', '=', '~', '-', '.',
      '+', '%', '^', '|', '!', '?', '@', '$', '\\']) :
    extent c cs = punctuationExtent c cs := by
  simp only [List.mem_cons, List.not_mem_nil, or_false] at among
  rcases among with rfl | rfl | rfl | rfl | rfl | rfl | rfl | rfl | rfl | rfl | rfl | rfl | rfl | rfl |
    rfl | rfl | rfl | rfl | rfl | rfl | rfl | rfl | rfl | rfl | rfl | rfl <;> rfl

theorem extent_minus {c : Char} {cs : List Char} (digit : c.isDigit = true) :
    extent '-' (c :: cs) = (.symbol, 0) := by
  have notGreater : c ≠ '>' := by
    rintro rfl
    simp at digit
  rw [extent_at_punctuation _ (by decide)]
  simp [punctuationExtent, isSymbol, notGreater]

theorem extent_mark {m : Mark} {c : Char} {cs after : List Char}
    (ends : ∀ c ∈ after.head?, c ≠ ':' ∧ c ≠ '&' ∧ c ≠ '.') (spelled : m.spelling.toList = c :: cs) :
    extent c (cs ++ after) = (.mark m, cs.length) := by
  cases m <;> simp [Mark.spelling] at spelled <;> obtain ⟨rfl, rfl⟩ := spelled <;>
    rw [extent_at_punctuation _ (by decide)] <;>
    cases after with
    | nil => rfl
    | cons d rest =>
      obtain ⟨notColon, notAmp, notDot⟩ := ends d rfl
      simp [punctuationExtent, *]

theorem extent_bracket {m : Mark} {c : Char} {cs after : List Char}
    (bracket : m ∈ [.openParen, .closeParen, .openBracket, .closeBracket, .openBrace])
    (spelled : m.spelling.toList = c :: cs) : extent c (cs ++ after) = (.mark m, cs.length) := by
  cases m <;> simp at bracket <;> simp [Mark.spelling] at spelled <;>
    obtain ⟨rfl, rfl⟩ := spelled <;> exact extent_at_punctuation _ (by decide)

end Lexeme

namespace Lexing

open Lexeme (Ends cut extent isSpace)

/-- The text before `after` stands for the tokens `ts` and nothing else. -/
def Adds (p : Position) (text after : List Char) (ts : Tokens) : Prop :=
  place p (cut (text ++ after)) =
    let rest := place (p.after text) (cut after)
    { rest with tokens := ts ++ rest.tokens }

section Adds
variable {p : Position} {text more after : List Char} {ts us : Tokens}

theorem Adds.nil : Adds p [] after [] := rfl

theorem Adds.append (first : Adds p text (more ++ after) ts)
    (second : Adds (p.after text) more after us) : Adds p (text ++ more) after (ts ++ us) := by
  unfold Adds at first second ⊢
  rw [List.append_assoc, first, second]
  simp

theorem place_cut_of_isSpace {c : Char} {cs : List Char} (blank : isSpace c = true) :
    place p (cut (c :: cs)) =
      let n := Lexeme.lengthWhile isSpace cs
      place (p.after (c :: cs.take n)) (cut (cs.drop n)) := by
  have taken : extent c cs = (.blank, Lexeme.lengthWhile isSpace cs) := by
    unfold extent
    rw [if_pos blank]
  rw [cut, taken]
  simp [place, tokenOf, faultOf, includeOf]

theorem place_cut_blank {c : Char} {cs : List Char} (blank : isSpace c = true) :
    place p (cut (c :: cs)) = place (p.next c) (cut cs) := by
  rw [place_cut_of_isSpace blank]
  cases cs with
  | nil => simp [Position.after]
  | cons d ds =>
    cases next : isSpace d with
    | true => simp [place_cut_of_isSpace next, Lexeme.lengthWhile, next, Position.after]
    | false => simp [Lexeme.lengthWhile, next, Position.after]

theorem Adds.blank {blanks : List Char} (blank : blanks.all isSpace = true) :
    Adds p blanks after [] := by
  induction blanks generalizing p with
  | nil => exact .nil
  | cons c cs ih =>
    obtain ⟨here, later⟩ := Bool.and_eq_true_iff.mp blank
    exact (place_cut_blank here).trans (ih later)

theorem Adds.lexeme {c : Char} {cs : List Char} {kind : LexemeKind} {t : Token}
    (taken : extent c (cs ++ after) = (kind, cs.length)) (token : tokenOf ⟨kind, c :: cs⟩ = some t)
    (noFault : faultOf ⟨kind, c :: cs⟩ = none) (noInclude : ∀ s, includeOf ⟨kind, c :: cs⟩ s = none) :
    Adds p (c :: cs) after [⟨t, p.spanOf (c :: cs)⟩] := by
  unfold Adds
  rw [List.cons_append, cut, taken]
  simp [place, token, noFault, noInclude]

theorem Adds.word {text : String} (identifier : Grammar.isIdentifier text = true)
    (ends : ∀ c ∈ after.head?, Lexeme.isWordPart c = false ∧ c ≠ '"') :
    Adds p text.toList after [⟨.word text, p.spanOf text.toList⟩] := by
  unfold Grammar.isIdentifier at identifier
  cases spelled : text.toList with
  | nil => simp [spelled] at identifier
  | cons c cs =>
    simp only [spelled, Bool.and_eq_true] at identifier
    refine .lexeme (Lexeme.extent_word identifier.1 identifier.2 ends) ?_ rfl (fun _ => rfl)
    simp [tokenOf, ← spelled]

theorem Adds.number (n : Nat) (ends : ∀ c ∈ after.head?, Lexeme.isNumberPart c = false) :
    Adds p (toString n).toList after [⟨.number (toString n), p.spanOf (toString n).toList⟩] := by
  obtain ⟨c, cs, spelled, first, others⟩ := Lexeme.toString_digits n
  rw [spelled]
  refine .lexeme (Lexeme.extent_digit first others ends) ?_ rfl (fun _ => rfl)
  rw [tokenOf, ← spelled, String.ofList_toList]

theorem Adds.mark (m : Mark) (ends : ∀ c ∈ after.head?, c ≠ ':' ∧ c ≠ '&' ∧ c ≠ '.') :
    Adds p m.spelling.toList after [⟨.mark m, p.spanOf m.spelling.toList⟩] := by
  cases spelled : m.spelling.toList with
  | nil => cases m <;> simp [Mark.spelling] at spelled
  | cons c cs => exact .lexeme (Lexeme.extent_mark ends spelled) rfl rfl (fun _ => rfl)

theorem Adds.bracket {m : Mark}
    (bracket : m ∈ [.openParen, .closeParen, .openBracket, .closeBracket, .openBrace]) :
    Adds p m.spelling.toList after [⟨.mark m, p.spanOf m.spelling.toList⟩] := by
  cases spelled : m.spelling.toList with
  | nil => cases m <;> simp [Mark.spelling] at spelled
  | cons c cs => exact .lexeme (Lexeme.extent_bracket bracket spelled) rfl rfl (fun _ => rfl)

end Adds

end Lexing

namespace Grammar

open Lexeme (Ends isSpace)
open Lexing (Adds)

/-- What a text that is laid out from words adds, when each word adds tokens with a property. -/
theorem adds_interlace {P : Placed → Prop} (gap : Nat → List Char) {words : List (List Char)}
    (blank : ∀ i, (gap i).all isSpace = true) (some : ∀ i, gap i ≠ [])
    (each : ∀ w ∈ words, ∀ p after, Ends after → ∃ ts, Adds p w after ts ∧ ∀ t ∈ ts, P t)
    {p : Position} {after : List Char} (ends : Ends after) :
    ∃ ts, Adds p (interlace gap words) after ts ∧ ∀ t ∈ ts, P t := by
  induction words generalizing gap p with
  | nil => exact ⟨[], .nil, by simp⟩
  | cons w words ih =>
    cases words with
    | nil => exact each w (by simp) p after ends
    | cons v words =>
      obtain ⟨ts, added, holds⟩ := each w (by simp) p
        (gap 0 ++ (interlace (fun i => gap (i + 1)) (v :: words) ++ after))
        (Lexeme.ends_of_blank (blank 0) (some 0))
      obtain ⟨us, addedMore, holdsMore⟩ := ih (fun i => gap (i + 1)) (fun _ => blank _)
        (fun _ => some _) (fun w mem => each w (List.mem_cons_of_mem _ mem))
        (p := (p.after w).after (gap 0))
      refine ⟨ts ++ us, ?_, by simpa [or_imp, forall_and] using ⟨holds, holdsMore⟩⟩
      have gapped := (Adds.blank (p := p.after w) (blank 0)).append addedMore
      rw [interlace, List.append_assoc]
      exact Adds.append (by rwa [List.append_assoc]) gapped

section Arguments

/-- A token that neither opens nor closes parentheses, nor ends the file. -/
def isInner (t : Token) : Bool :=
  t != .mark .openParen && t != .mark .closeParen && t != .eof

theorem toString_negSucc (k : Nat) :
    (toString (Int.negSucc k)).toList = '-' :: (toString (k + 1)).toList := by
  change (Int.repr (Int.negSucc k)).toList = _
  simp [Int.repr]

theorem adds_integer (n : Int) {p : Position} {after : List Char} (ends : Ends after) :
    ∃ ts, Adds p (toString n).toList after ts ∧ ∀ t ∈ ts, isInner t.token = true := by
  have natural (k : Nat) (p : Position) :
      ∃ ts, Adds p (toString k).toList after ts ∧ ∀ t ∈ ts, isInner t.token = true :=
    ⟨_, .number k ends.not_isNumberPart, by simp [isInner]⟩
  cases n with
  | ofNat k => exact natural k p
  | negSucc k =>
    obtain ⟨ts, added, inner⟩ := natural (k + 1) (p.after ['-'])
    obtain ⟨c, cs, spelled, digit, -⟩ := Lexeme.toString_digits (k + 1)
    have minus : Adds p ['-'] ((toString (k + 1)).toList ++ after)
        [⟨.symbol '-', p.spanOf ['-']⟩] := by
      rw [spelled]
      exact .lexeme (Lexeme.extent_minus digit) rfl rfl (fun _ => rfl)
    rw [toString_negSucc]
    exact ⟨_, minus.append added, by simpa [isInner] using inner⟩

theorem eq_or_mem_of_mem_intersperse {α : Type} {sep x : α} {xs : List α}
    (mem : x ∈ xs.intersperse sep) : x = sep ∨ x ∈ xs := by
  induction xs with
  | nil => cases mem
  | cons y ys ih =>
    cases ys with
    | nil => exact .inr mem
    | cons z zs =>
      simp only [List.intersperse_cons_cons, List.mem_cons] at mem ih ⊢
      rcases mem with rfl | rfl | mem
      · exact .inr (.inl rfl)
      · exact .inl rfl
      · exact (ih mem).imp_right .inr

theorem Arguments.mem_words {a : Arguments} {w : List Char} (mem : w ∈ a.words) :
    w = [','] ∨ ∃ n : Int, w = (toString n).toList := by
  refine (eq_or_mem_of_mem_intersperse mem).imp_right fun written => ?_
  obtain ⟨n, -, rfl⟩ := List.mem_map.mp written
  exact ⟨n, rfl⟩

theorem Arguments.adds_inner (a : Arguments) {p : Position} {after : List Char}
    (ends : Ends after) :
    ∃ ts, Adds p a.inner after ts ∧ ∀ t ∈ ts, isInner t.token = true := by
  have each : ∀ w ∈ a.words, ∀ p after, Ends after →
      ∃ ts, Adds p w after ts ∧ ∀ t ∈ ts, isInner t.token = true := by
    intro w mem p after ends
    rcases mem_words mem with rfl | ⟨n, rfl⟩
    · exact ⟨_, .mark .comma ends.not_joint, by simp [isInner]⟩
    · exact adds_integer n ends
  have trailEnds : Ends (a.layout.trail ++ after) := by
    cases trailing : a.layout.trail with
    | nil => exact ends
    | cons b bs => exact Lexeme.ends_of_blank (trailing ▸ a.layout.trail_blank) (by simp)
  obtain ⟨ts, added, inner⟩ := adds_interlace _ a.layout.gap_blank a.layout.gap_ne_nil each
    (p := p.after a.layout.lead) trailEnds
  refine ⟨[] ++ ts ++ [], ?_, by simpa using inner⟩
  refine .append (.append (.blank a.layout.lead_blank) ?_) (.blank a.layout.trail_blank)
  simpa using added

theorem isBlank_of_isSpace {c : Char} (blank : isSpace c = true) : Text.isBlank c = true := by
  simp only [isSpace, Bool.or_eq_true, beq_iff_eq] at blank
  rcases blank with ((((rfl | rfl) | rfl) | rfl) | rfl) | rfl <;> decide

theorem isBlank_eq_false_of_isDigit {c : Char} (digit : c.isDigit = true) :
    Text.isBlank c = false := by
  have low := (Char.isDigit_iff_toNat.mp digit).1
  have high := (Char.isDigit_iff_toNat.mp digit).2
  simp [Text.isBlank] at low high ⊢
  omega

theorem isBlank_eq_false_of_isWordPart {c : Char} (part : Lexeme.isWordPart c = true) :
    Text.isBlank c = false := by
  have range := Lexeme.toNat_of_isWordPart part
  simp [Text.isBlank]
  omega

def Solid (w : List Char) : Prop :=
  w ≠ [] ∧ ∀ c ∈ w, Text.isBlank c = false

theorem solid_toString (n : Nat) : Solid (toString n).toList := by
  obtain ⟨c, cs, spelled, first, others⟩ := Lexeme.toString_digits n
  rw [spelled]
  refine ⟨by simp, List.forall_mem_cons.mpr ⟨isBlank_eq_false_of_isDigit first, fun d mem => ?_⟩⟩
  exact isBlank_eq_false_of_isDigit (List.all_eq_true.mp others d mem)

theorem Arguments.solid_of_mem_words {a : Arguments} {w : List Char} (mem : w ∈ a.words) :
    Solid w := by
  rcases mem_words mem with rfl | ⟨n, rfl⟩
  · exact ⟨by simp, List.forall_mem_singleton.mpr (by decide)⟩
  · cases n with
    | ofNat k => exact solid_toString k
    | negSucc k =>
      rw [toString_negSucc]
      exact ⟨by simp, List.forall_mem_cons.mpr ⟨by decide, (solid_toString (k + 1)).2⟩⟩

theorem head?_interlace {gap : Nat → List Char} {words : List (List Char)}
    (solid : ∀ w ∈ words, Solid w) :
    ∀ c ∈ (interlace gap words).head?, Text.isBlank c = false := by
  cases words with
  | nil => simp [interlace]
  | cons w words =>
    obtain ⟨some, blank⟩ := solid w (by simp)
    obtain ⟨c, cs, rfl⟩ := List.exists_cons_of_ne_nil some
    cases words <;> simpa [interlace] using blank c (by simp)

theorem getLast?_interlace {gap : Nat → List Char} {words : List (List Char)}
    (solid : ∀ w ∈ words, Solid w) :
    ∀ c ∈ (interlace gap words).getLast?, Text.isBlank c = false := by
  induction words generalizing gap with
  | nil => simp [interlace]
  | cons w words ih =>
    cases words with
    | nil => exact fun c last => (solid w (by simp)).2 c (List.mem_of_getLast? last)
    | cons v words =>
      obtain ⟨d, ds, rfl⟩ := List.exists_cons_of_ne_nil (solid v (by simp)).1
      have some : interlace (fun i => gap (i + 1)) ((d :: ds) :: words) ≠ [] := by
        cases words <;> simp [interlace]
      intro c last
      rw [interlace, List.getLast?_append_of_ne_nil _ some] at last
      exact ih (fun w mem => solid w (List.mem_cons_of_mem _ mem)) c last

theorem forall_isBlank {cs : List Char} (blank : cs.all isSpace = true) :
    ∀ c ∈ cs, Text.isBlank c = true :=
  fun c mem => isBlank_of_isSpace (List.all_eq_true.mp blank c mem)

/-- Trimming takes off the blanks at both ends, up to a text that has none there. -/
theorem trimChars_append {lead text trail : List Char} (leading : ∀ c ∈ lead, Text.isBlank c = true)
    (trailing : ∀ c ∈ trail, Text.isBlank c = true)
    (first : ∀ c ∈ text.head?, Text.isBlank c = false)
    (last : ∀ c ∈ text.getLast?, Text.isBlank c = false) :
    Text.trimChars (lead ++ text ++ trail) = text := by
  have stays {cs : List Char} (solid : ∀ c ∈ cs.head?, Text.isBlank c = false) :
      cs.dropWhile Text.isBlank = cs := by
    cases cs with
    | nil => rfl
    | cons c cs => exact List.dropWhile_cons_of_neg (by simp [solid c rfl])
  have starts : Text.trimStartChars (lead ++ text ++ trail) = Text.trimStartChars (text ++ trail) := by
    rw [List.append_assoc]
    exact List.dropWhile_append_of_pos leading
  have ends : Text.trimEndChars (text ++ trail) = text := by
    rw [Text.trimEndChars, List.reverse_append,
      List.dropWhile_append_of_pos (fun c mem => trailing c (List.mem_reverse.mp mem)),
      stays (by simpa using last), List.reverse_reverse]
  unfold Text.trimChars
  rw [starts]
  cases text with
  | nil =>
    have gone : Text.trimStartChars trail = [] := List.dropWhile_eq_nil_iff.mpr trailing
    rw [List.nil_append, gone]
    rfl
  | cons c cs => rw [Text.trimStartChars, stays (by simpa using first), ends]

theorem Arguments.trimChars_inner (a : Arguments) :
    String.ofList (Text.trimChars a.inner) = a.text := by
  unfold inner Layout.render text
  rw [trimChars_append (forall_isBlank a.layout.lead_blank) (forall_isBlank a.layout.trail_blank)
    (head?_interlace fun _ => solid_of_mem_words) (getLast?_interlace fun _ => solid_of_mem_words)]

end Arguments

section Covers

inductive Piece.Read (source : Source) : Piece → Tokens → Prop where
  | word {text : String} {identifier : isIdentifier text = true} (span : Span) :
      Read source (.word text identifier) [⟨.word text, span⟩]
  | mark {m : Mark} (span : Span) : Read source (.mark m) [⟨.mark m, span⟩]
  | number {n : Nat} (span : Span) : Read source (.number n) [⟨.number (toString n), span⟩]
  | openList (s₁ s₂ : Span) :
      Read source .openList [⟨.mark .openBracket, s₁⟩, ⟨.mark .openBracket, s₂⟩]
  | closeList (s₁ s₂ : Span) :
      Read source .closeList [⟨.mark .closeBracket, s₁⟩, ⟨.mark .closeBracket, s₂⟩]
  | arguments {a : Arguments} {inner : Tokens} {s₁ s₂ : Span}
      (closed : ∀ t ∈ inner, isInner t.token = true)
      (text : String.ofList (Text.trimChars (source.slice s₁.stop s₂.start)) = a.text) :
      Read source (.arguments a) (⟨.mark .openParen, s₁⟩ :: (inner ++ [⟨.mark .closeParen, s₂⟩]))

/-- The tokens start with those of pieces, and `rest` follows. -/
inductive Covers (source : Source) : List Piece → Tokens → Tokens → Prop where
  | nil {rest : Tokens} : Covers source [] rest rest
  | cons {p : Piece} {ps : List Piece} {own ts rest : Tokens} (first : p.Read source own)
      (more : Covers source ps ts rest) : Covers source (p :: ps) (own ++ ts) rest

def Piece.stopsAt : Piece → Char → Bool
  | word _ _, c => !Text.isWordChar c && c != '"'
  | mark _, c => c != ':' && c != '&' && c != '.'
  | number _, c => !Lexeme.isNumberPart c
  | openList, _ | closeList, _ | arguments _, _ => true

theorem isWordChar_of_isWordPart {c : Char} (part : Lexeme.isWordPart c = true) :
    Text.isWordChar c = true := by
  have low : c.toNat < 128 := by
    have := (Lexeme.toNat_of_isWordPart part).2
    omega
  rwa [Text.isWordChar, if_pos low]

theorem Piece.stopsAt_of_ends (piece : Piece) {after : List Char} (ends : Ends after) :
    ∀ c ∈ after.head?, piece.stopsAt c = true := by
  intro c first
  cases piece with
  | word =>
    have apart : Text.isWordChar c = false := by
      rcases ends c first with blank | rfl
      · simp only [isSpace, Bool.or_eq_true, beq_iff_eq] at blank
        rcases blank with ((((rfl | rfl) | rfl) | rfl) | rfl) | rfl <;> decide
      · decide
    simp [stopsAt, apart, (ends.not_isWordPart c first).2]
  | mark => simp [stopsAt, ends.not_joint c first]
  | number => simp [stopsAt, ends.not_isNumberPart c first]
  | openList | closeList | arguments => rfl

theorem Piece.adds (piece : Piece) {source : Source} {before after : List Char}
    (text : source.text.toList = before ++ (piece.text ++ after))
    (stops : ∀ c ∈ after.head?, piece.stopsAt c = true) :
    ∃ ts, Adds (Position.start.after before) piece.text after ts ∧ piece.Read source ts := by
  cases piece with
  | word text identifier =>
    have ends : ∀ c ∈ after.head?, Lexeme.isWordPart c = false ∧ c ≠ '"' := by
      intro c first
      have stop := stops c first
      simp only [stopsAt, Bool.and_eq_true, Bool.not_eq_true', bne_iff_ne] at stop
      refine ⟨?_, stop.2⟩
      cases part : Lexeme.isWordPart c with
      | false => rfl
      | true => simp [isWordChar_of_isWordPart part] at stop
    exact ⟨_, .word identifier ends, .word _⟩
  | mark m =>
    exact ⟨_, .mark m fun c first => by simpa [stopsAt, and_assoc] using stops c first, .mark _⟩
  | number n => exact ⟨_, .number n fun c first => by simpa [stopsAt] using stops c first, .number _⟩
  | openList =>
    have first : Adds _ _ (['['] ++ after) _ :=
      Adds.bracket (m := .openBracket) (p := Position.start.after before) (by simp)
    exact ⟨_, first.append (.bracket (m := .openBracket) (by simp)), .openList _ _⟩
  | closeList =>
    have first : Adds _ _ ([']'] ++ after) _ :=
      Adds.bracket (m := .closeBracket) (p := Position.start.after before) (by simp)
    exact ⟨_, first.append (.bracket (m := .closeBracket) (by simp)), .closeList _ _⟩
  | arguments a =>
    have closing : Ends (')' :: after) := fun c first => .inr (by simpa using first.symm)
    obtain ⟨inner, added, closed⟩ :=
      a.adds_inner (p := (Position.start.after before).after ['(']) closing
    have opened := (Adds.bracket (m := .openParen) (by simp)).append added
    refine ⟨_, opened.append (.bracket (m := .closeParen) (by simp)), .arguments closed ?_⟩
    -- the text between the parentheses is read back from the source by its places
    have between : source.slice ((Position.start.after before).after ['(']).offset
        (((Position.start.after before).after ['(']).after a.inner).offset = a.inner := by
      have shape : source.text.toList = (before ++ ['(']) ++ (a.inner ++ ')' :: after) := by
        simpa [Piece.text] using text
      rw [← Position.after_append]
      exact Source.slice_after shape
    exact (congrArg (fun cs => String.ofList (Text.trimChars cs)) between).trans a.trimChars_inner

theorem adds_pieces {source : Source} {pieces : List Piece} (gap : Nat → List Char)
    (before : List Char) {trail : List Char} (blank : ∀ i, (gap i).all isSpace = true) (some : ∀ i, gap i ≠ [])
    (trailing : trail.all isSpace = true)
    (text : source.text.toList = before ++ (interlace gap (pieces.map Piece.text) ++ trail)) :
    ∃ ts, Adds (Position.start.after before) (interlace gap (pieces.map Piece.text)) trail ts ∧
      ∀ rest, Covers source pieces (ts ++ rest) rest := by
  have trailEnds : Ends trail := by
    cases trail with
    | nil => exact fun c first => by cases first
    | cons b bs => exact List.append_nil (b :: bs) ▸ Lexeme.ends_of_blank trailing (by simp)
  induction pieces generalizing gap before with
  | nil => exact ⟨[], .nil, fun rest => .nil⟩
  | cons piece pieces ih =>
    cases pieces with
    | nil =>
      obtain ⟨ts, added, read⟩ := piece.adds text (piece.stopsAt_of_ends trailEnds)
      exact ⟨ts, added, fun rest => .cons read .nil⟩
    | cons next pieces =>
      simp only [List.map_cons, interlace, List.append_assoc] at text
      obtain ⟨ts, added, read⟩ :=
        piece.adds text (piece.stopsAt_of_ends (Lexeme.ends_of_blank (blank 0) (some 0)))
      obtain ⟨us, addedMore, covers⟩ := ih (fun i => gap (i + 1))
        (before ++ piece.text ++ gap 0) (fun _ => blank _) (fun _ => some _)
        (by simpa using text)
      refine ⟨ts ++ us, ?_, fun rest => by simpa using Covers.cons read (covers rest)⟩
      have gapped := (Adds.blank (p := (Position.start.after before).after piece.text)
        (blank 0)).append (by simpa using addedMore)
      simp only [List.map_cons, interlace]
      rw [List.append_assoc]
      exact Adds.append (by rwa [List.append_assoc]) gapped

end Covers

/-- The tokens of a laid out text cover its pieces; it has no includes and no faults. -/
theorem lexing_render (path : Path) (l : Layout) (pieces : List Piece) :
    let source : Source := ⟨path, String.ofList (l.render (pieces.map Piece.text))⟩
    ∃ ts span, Lexing.ofText source.text = ⟨ts, [], []⟩ ∧
      Covers source pieces ts [⟨.eof, span⟩] := by
  intro source
  have text : source.text.toList =
      l.lead ++ (interlace l.gap (pieces.map Piece.text) ++ l.trail) := by
    simp [source, Layout.render]
  obtain ⟨ts, added, covers⟩ := adds_pieces _ _ l.gap_blank l.gap_ne_nil l.trail_blank text
  have leading : Adds .start l.lead (interlace l.gap (pieces.map Piece.text) ++ l.trail) [] :=
    .blank l.lead_blank
  have trailing : Adds (Position.start.after (l.lead ++ interlace l.gap (pieces.map Piece.text)))
      l.trail [] [] := .blank l.trail_blank
  have whole := Adds.append (by simpa using leading.append added) trailing
  have chars : Lexing.ofText source.text =
      Lexing.place .start (Lexeme.cut (l.render (pieces.map Piece.text) ++ [])) := by
    rw [List.append_nil, Lexing.ofText, Lexing.ofChars, text, Layout.render, List.append_assoc]
  let final := (Position.start.after (l.render (pieces.map Piece.text))).spanOf []
  refine ⟨ts ++ [⟨.eof, final⟩], final, ?_, covers _⟩
  rw [chars]
  refine whole.trans ?_
  simp [Lexeme.cut, Lexing.place, final, Layout.render]

end Grammar

end HeaderMeta
