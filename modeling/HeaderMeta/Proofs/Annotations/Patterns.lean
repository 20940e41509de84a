import Mathlib.Data.String.Basic
import HeaderMeta.Proofs.Searching
import HeaderMeta.Proofs.Headings
import HeaderMeta.Proofs.Resolution.Arguments
import HeaderMeta.Reflection.Annotated

/-! What the parts of the pattern for an annotation take.

Most parts take their text whatever stands around it (`Takes`), and such parts can be put one after the
other (`TakesAll`). Only a word boundary looks at its neighbours; in a heading a blank follows every word.
-/

set_option autoImplicit false

namespace HeaderMeta
open Lexeme (isSpace)

section Splitting
open String (utf8Len)
variable {l m r : List Char} {c : Char} {acc : List String}

/-- Splitting at `::` behind `l`, where `m` is the part read so far and `r` is left. -/
def splitScope (l m r : List Char) (acc : List String) : List String :=
  (String.ofList (l ++ (m ++ r))).splitOnAux "::" ⟨utf8Len l⟩ ⟨utf8Len l + utf8Len m⟩ 0 acc

theorem splitScope_nil : splitScope l m [] acc = acc.reverse ++ [String.ofList m] := by
  have ended := (String.atEnd_of_valid (l ++ m) []).mpr rfl
  have taken := String.extract_of_valid l m []
  rw [String.utf8Len_append, List.append_assoc] at ended
  rw [List.append_assoc] at taken
  rw [splitScope, String.splitOnAux.eq_1, if_pos ended, taken]
  simp

theorem read_at (l m : List Char) (c : Char) (r : List Char) :
    let s := String.ofList (l ++ (m ++ c :: r))
    ¬ String.Pos.Raw.atEnd s ⟨utf8Len l + utf8Len m⟩ = true ∧
      String.Pos.Raw.get s ⟨utf8Len l + utf8Len m⟩ = c ∧
      String.Pos.Raw.next s ⟨utf8Len l + utf8Len m⟩ = ⟨utf8Len l + utf8Len (m ++ [c])⟩ := by
  have going := mt (String.atEnd_of_valid (l ++ m) (c :: r)).mp (by simp)
  have here := String.get_of_valid (l ++ m) (c :: r)
  have next := String.next_of_valid (l ++ m) c r
  rw [String.utf8Len_append, List.append_assoc] at going here next
  refine ⟨going, here, next.trans ?_⟩
  simp [Nat.add_assoc]

theorem splitScope_other (other : c ≠ ':') :
    splitScope l m (c :: r) acc = splitScope l (m ++ [c]) r acc := by
  obtain ⟨going, here, next⟩ := read_at l m c r
  have first : String.Pos.Raw.get "::" 0 = ':' := by decide
  have start : (⟨utf8Len l + utf8Len m⟩ : String.Pos.Raw).unoffsetBy 0 = ⟨utf8Len l + utf8Len m⟩ := rfl
  rw [splitScope, String.splitOnAux.eq_1, if_neg going, here, first, if_neg (by simpa using other), start,
    next, splitScope, List.append_assoc, List.singleton_append]

theorem splitScope_colons : splitScope l m (':' :: ':' :: r) acc =
    splitScope (l ++ (m ++ [':', ':'])) [] r (String.ofList m :: acc) := by
  obtain ⟨going, here, next⟩ := read_at l m ':' (':' :: r)
  obtain ⟨going', here', next'⟩ := read_at l (m ++ [':']) ':' r
  have first : String.Pos.Raw.get "::" 0 = ':' ∧ String.Pos.Raw.next "::" 0 = ⟨1⟩ ∧
      String.Pos.Raw.atEnd "::" ⟨1⟩ = false := by decide
  have second : String.Pos.Raw.get "::" ⟨1⟩ = ':' ∧ String.Pos.Raw.next "::" ⟨1⟩ = ⟨2⟩ ∧
      String.Pos.Raw.atEnd "::" ⟨2⟩ = true := by decide
  have taken := String.extract_of_valid l m (':' :: ':' :: r)
  rw [List.append_assoc] at taken
  rw [List.append_assoc, List.singleton_append] at going' here' next'
  have back : (⟨utf8Len l + utf8Len (m ++ [':'] ++ [':'])⟩ : String.Pos.Raw).unoffsetBy ⟨2⟩ =
      ⟨utf8Len l + utf8Len m⟩ := by
    simp only [String.Pos.Raw.unoffsetBy, String.utf8Len_append, String.utf8Len_cons,
      String.utf8Len_nil]
    rfl
  rw [splitScope, String.splitOnAux.eq_1, if_neg going, here, first.1, if_pos (by rfl), next]
  dsimp only
  rw [first.2.1, if_neg (by simp [first.2.2]), String.splitOnAux.eq_1, if_neg going', here', second.1,
    if_pos (by rfl), next']
  dsimp only
  rw [second.2.1, if_pos second.2.2, back, taken, splitScope]
  simp

theorem splitScope_word {w : List Char} (plain : ':' ∉ w) :
    splitScope l m (w ++ r) acc = splitScope l (m ++ w) r acc := by
  induction w generalizing m with
  | nil => rw [List.append_nil]; rfl
  | cons c w ih =>
    rw [List.mem_cons, not_or] at plain
    obtain ⟨other, others⟩ := plain
    rw [List.cons_append, splitScope_other (Ne.symm other), ih others, List.append_assoc]
    rfl

/-- A scope of names without colons is split into its names. -/
theorem splitOn_joinScope {names : List String} (some : names ≠ [])
    (plain : ∀ name ∈ names, ':' ∉ name.toList) : (joinScope names).splitOn "::" = names := by
  have all (name : String) (rest : List String) (l : List Char) (acc : List String)
      (plain : ∀ own ∈ name :: rest, ':' ∉ own.toList) :
      splitScope l [] (joinScope (name :: rest)).toList acc = acc.reverse ++ name :: rest := by
    induction rest generalizing name l acc with
    | nil =>
      have word : splitScope l [] (name.toList ++ []) acc = splitScope l name.toList [] acc :=
        splitScope_word (plain name List.mem_cons_self)
      rw [List.append_nil] at word
      simp [joinScope, Text.joinWith, word, splitScope_nil]
    | cons next rest ih =>
      obtain ⟨own, others⟩ := List.forall_mem_cons.mp plain
      have text : (joinScope (name :: next :: rest)).toList =
          name.toList ++ ':' :: ':' :: (joinScope (next :: rest)).toList := by
        simp [joinScope, Text.joinWith]
      rw [text, splitScope_word own, splitScope_colons, ih next _ _ others]
      simp
  obtain ⟨name, rest, rfl⟩ := List.exists_cons_of_ne_nil some
  have whole := all name rest [] [] plain
  simpa [splitScope, String.splitOn] using whole

end Splitting

namespace Pattern
variable {p q : Pattern} {ps qs : List Pattern} {s : CharSet} {cs ds blanks : List Char}
  {before after : Option Char}

/-- The pattern takes the text whatever stands around it. -/
def Takes (p : Pattern) (cs : List Char) : Prop :=
  ∀ before after, Matches p before cs after

inductive TakesAll : List Pattern → List Char → Prop where
  | nil : TakesAll [] []
  | cons {p : Pattern} {ps : List Pattern} {cs ds : List Char} (first : Takes p cs)
      (others : TakesAll ps ds) : TakesAll (p :: ps) (cs ++ ds)

theorem Takes.seq (first : Takes p cs) (second : Takes q ds) : Takes (.seq p q) (cs ++ ds) :=
  fun _ _ => .seq (first _ _) (second _ _)

theorem Takes.optional (taken : Takes p cs) : Takes (optional p) cs :=
  fun _ _ => .left (taken _ _)

theorem takes_optional_nil : Takes (optional p) [] :=
  fun _ _ => .right .empty

theorem takes_star_nil : Takes (.star p) [] :=
  fun _ _ => .stop

theorem Takes.star (first : Takes p cs) (others : Takes (.star p) ds) : Takes (.star p) (cs ++ ds) :=
  fun _ _ => .more (first _ _) (others _ _)

theorem takes_set {c : Char} (has : s.has c = true) : Takes (.set s) [c] :=
  fun _ _ => .set has

theorem takes_char (c : Char) : Takes (char c) [c] :=
  takes_set (by simp [CharSet.has])

theorem takes_star_set (all : ∀ c ∈ cs, s.has c = true) : Takes (.star (.set s)) cs := by
  induction cs with
  | nil => exact takes_star_nil
  | cons c cs ih =>
    obtain ⟨here, later⟩ := List.forall_mem_cons.mp all
    exact (takes_set here).star (ih later)

theorem matches_seqs_cons (some : ps ≠ []) (first : Matches p before cs (ds.head?.or after))
    (others : Matches (seqs ps) (cs.getLast?.or before) ds after) :
    Matches (seqs (p :: ps)) before (cs ++ ds) after := by
  cases ps with
  | nil => exact absurd rfl some
  | cons q ps => exact .seq first others

theorem TakesAll.matches_append (taken : TakesAll ps cs) (some : qs ≠ [])
    (others : Matches (seqs qs) (cs.getLast?.or before) ds after) :
    Matches (seqs (ps ++ qs)) before (cs ++ ds) after := by
  induction taken generalizing before with
  | nil => exact others
  | @cons p ps cs cs' first _ ih =>
    rw [List.cons_append, List.append_assoc]
    refine matches_seqs_cons (List.append_ne_nil_of_right_ne_nil _ some) (first _ _) (ih ?_)
    rwa [List.getLast?_append, Option.or_assoc] at others

theorem Takes.all (taken : Takes p cs) : TakesAll [p] cs :=
  List.append_nil cs ▸ .cons taken .nil

theorem TakesAll.takes (taken : TakesAll ps cs) : Takes (seqs ps) cs := by
  induction taken with
  | nil => exact fun _ _ => .empty
  | @cons p ps cs ds first others ih =>
    cases others with
    | nil => exact (List.append_nil cs).symm ▸ first
    | cons => exact first.seq ih

theorem has_anyOf (cs : List Char) (d : Char) : (CharSet.anyOf cs).has d = true ↔ d ∈ cs := by
  fun_induction CharSet.anyOf cs with
  | case1 => simp [CharSet.has]; omega
  | case2 c =>
    rw [CharSet.has, beq_iff_eq, List.mem_singleton]
    exact eq_comm
  | case3 c cs _ ih =>
    rw [CharSet.has, CharSet.has, Bool.or_eq_true, beq_iff_eq, ih, List.mem_cons]
    exact or_congr_left eq_comm

theorem takes_star_noneOf {ends : List Char} (inside : ∀ c ∈ cs, c ∉ ends) :
    Takes (.star (.set (.noneOf ends))) cs :=
  takes_star_set fun c mem => by
    simpa [CharSet.noneOf, CharSet.has] using mt (has_anyOf ends c).mp (inside c mem)

theorem takes_literal (cs : List Char) : Takes (literal cs) cs := by
  have all : TakesAll (cs.map char) cs := by
    induction cs with
    | nil => exact .nil
    | cons c cs ih => exact .cons (takes_char c) ih
  exact all.takes

theorem takes_text (s : String) : Takes (text s) s.toList :=
  takes_literal s.toList

theorem has_blank (blank : blanks.all isSpace = true) : ∀ c ∈ blanks, CharSet.blank.has c = true :=
  Grammar.forall_isBlank blank

theorem takes_blanks (blank : blanks.all isSpace = true) : Takes Pattern.blanks blanks :=
  takes_star_set (has_blank blank)

theorem takes_plus_blank (blank : blanks.all isSpace = true) (some : blanks ≠ []) :
    Takes (plus (.set .blank)) blanks := by
  obtain ⟨b, bs, rfl⟩ := List.exists_cons_of_ne_nil some
  obtain ⟨here, later⟩ := List.forall_mem_cons.mp (has_blank blank)
  exact (takes_set here).seq (takes_star_set later)

section Boundaries

theorem wordAt_of_touches {w : String} {identifier : Grammar.isIdentifier w = true} {next : Option Char}
    (touch : ∀ c ∈ next, (Grammar.Piece.word w identifier).touches c = true) : wordAt next = false := by
  cases next with
  | none => rfl
  | some c =>
    have stop := Grammar.Piece.stopsAt_of_touches (touch c rfl)
    simp only [Grammar.Piece.stopsAt, Bool.and_eq_true, Bool.not_eq_true'] at stop
    exact stop.1

theorem wordAt_word {w : String} (identifier : Grammar.isIdentifier w = true) (before : Option Char) :
    wordAt (w.toList.getLast?.or before) = true := by
  have some : w.toList ≠ [] := by
    intro none
    simp [Grammar.isIdentifier, none] at identifier
  rw [List.getLast?_eq_some_getLast some]
  exact Grammar.isWordChar_of_isWordPart
    (Lexeme.isWordPart_of_isIdentifier identifier _ (List.getLast_mem some))

theorem wordAt_head {w : String} (identifier : Grammar.isIdentifier w = true) (cs : List Char)
    (after : Option Char) : wordAt ((w.toList ++ cs).head?.or after) = true := by
  have parts := Lexeme.isWordPart_of_isIdentifier identifier
  unfold Grammar.isIdentifier at identifier
  split at identifier
  next => cases identifier
  next c ds spelled =>
    rw [spelled] at parts ⊢
    exact Grammar.isWordChar_of_isWordPart (parts c List.mem_cons_self)

theorem matches_word_boundary {w : String} (identifier : Grammar.isIdentifier w = true)
    (some : ps ≠ []) (ends : wordAt (ds.head?.or after) = false)
    (others : Matches (seqs ps) (w.toList.getLast?.or before) ds after) :
    Matches (seqs (text w :: .boundary :: ps)) before (w.toList ++ ds) after := by
  refine matches_seqs_cons (by simp) (takes_text w _ _) ?_
  have boundary : Matches .boundary (w.toList.getLast?.or before) [] (ds.head?.or after) := by
    refine .boundary ?_
    rw [ends, wordAt_word identifier]
    decide
  exact matches_seqs_cons some boundary others

end Boundaries

end Pattern

namespace Grammar
open Pattern (Takes TakesAll)
open Annotated
variable {next : Option Char} {text blanks : List Char}

section Lists
variable {ps : List Piece} {f : AttributeForm} {as : List AttributeForm} {a : Attribute}

def Piece.isInner : Piece → Bool
  | word _ _ | arguments _ => true
  | mark m => m = .comma || m = .colonColon
  | _ => false

theorem Piece.inner_text {piece : Piece} (inner : piece.isInner = true) :
    ∀ c ∈ piece.text, c ≠ ']' ∧ c ≠ '{' ∧ c ≠ ';' := by
  have part {c : Char} (part : Lexeme.isWordPart c = true) : c ≠ ']' ∧ c ≠ '{' ∧ c ≠ ';' := by
    refine ⟨?_, ?_, ?_⟩ <;> rintro rfl <;> simp [Lexeme.isWordPart] at part
  have blank {c : Char} (blank : isSpace c = true) : c ≠ ']' ∧ c ≠ '{' ∧ c ≠ ';' := by
    refine ⟨?_, ?_, ?_⟩ <;> rintro rfl <;> simp [isSpace] at blank
  intro c mem
  cases piece with
  | word w identifier => exact part (Lexeme.isWordPart_of_isIdentifier identifier c mem)
  | mark m =>
    simp only [isInner, Bool.or_eq_true, decide_eq_true_eq] at inner
    rcases inner with rfl | rfl <;> simp_all [text, Mark.spelling]
  | number | openList | closeList => cases inner
  | arguments a =>
    simp only [text, List.mem_append, List.mem_cons, List.not_mem_nil, or_false, List.cons_append] at mem
    rcases mem with rfl | inside | rfl
    · simp
    · rcases Arguments.mem_inner inside with space | digit | rfl | rfl
      · exact blank space
      · exact part (by simp [Lexeme.isWordPart, Char.isAlphanum, digit])
      · simp
      · simp
    · simp

theorem Left.inner_text (left : Left next ps text) (inner : ∀ piece ∈ ps, piece.isInner = true) :
    ∀ c ∈ text, c ≠ ']' ∧ c ≠ '{' ∧ c ≠ ';' := by
  induction ps generalizing text with
  | nil => simp [left.of_nil]
  | cons piece ps ih =>
    obtain ⟨blanks, more, rfl, blank, -, others⟩ := left.of_cons
    obtain ⟨own, later⟩ := List.forall_mem_cons.mp inner
    intro c mem
    rcases List.mem_append.mp mem with here | mem
    · exact Piece.inner_text own c here
    rcases List.mem_append.mp mem with gap | there
    · refine ⟨?_, ?_, ?_⟩ <;> rintro rfl <;> exact absurd (List.all_eq_true.mp blank _ gap) (by decide)
    · exact ih others later c there

theorem mem_separated {gs : List (List Piece)} {piece : Piece} (mem : piece ∈ separated gs) :
    piece = .mark .comma ∨ ∃ g ∈ gs, piece ∈ g := by
  induction gs with
  | nil => cases mem
  | cons g gs ih =>
    cases gs with
    | nil => exact .inr ⟨g, List.mem_cons_self, mem⟩
    | cons g' gs =>
      rw [separated, List.mem_append, List.mem_cons] at mem
      rcases mem with own | comma | later
      · exact .inr ⟨g, List.mem_cons_self, own⟩
      · exact .inl comma
      · obtain comma | ⟨other, among, own⟩ := ih later
        · exact .inl comma
        · exact .inr ⟨other, List.mem_cons_of_mem _ among, own⟩

theorem ScopedName.isInner {n : ScopedName} : ∀ piece ∈ n.pieces, piece.isInner = true := by
  intro piece mem
  simp only [pieces, List.mem_append, List.mem_flatMap, List.mem_cons, List.not_mem_nil,
    or_false] at mem
  rcases mem with ⟨o, -, rfl | rfl⟩ | rfl <;> rfl

theorem isInner_attributes : ∀ piece ∈ separated (as.map AttributeForm.pieces), piece.isInner = true := by
  intro piece mem
  rcases mem_separated mem with rfl | ⟨g, among, own⟩
  · rfl
  · obtain ⟨a, -, rfl⟩ := List.mem_map.mp among
    rcases List.mem_append.mp own with named | argued
    · exact ScopedName.isInner piece named
    · obtain ⟨args, -, rfl⟩ := by simpa using argued
      rfl

theorem isInner_bases {bs : List BaseForm} :
    ∀ piece ∈ separated (bs.map BaseForm.pieces), piece.isInner = true := by
  intro piece mem
  rcases mem_separated mem with rfl | ⟨g, among, own⟩
  · rfl
  · obtain ⟨b, -, rfl⟩ := List.mem_map.mp among
    rcases List.mem_append.mp own with access | named
    · obtain ⟨v, -, rfl⟩ := by simpa using access
      rfl
    · exact ScopedName.isInner piece named

theorem takes_inBrackets (inside : ∀ c ∈ text, c ≠ ']') : Takes inBrackets text :=
  Pattern.takes_star_noneOf fun c mem => by simpa using inside c mem

theorem takes_anyList (inside : ∀ c ∈ text, c ≠ ']') : Takes anyList (['[', '['] ++ (text ++ [']', ']'])) :=
  (TakesAll.cons (Pattern.takes_text "[[") (.cons (takes_inBrackets inside)
    (Pattern.takes_text "]]").all)).takes

theorem takes_leadIn (inside : ∀ c ∈ text, c ≠ ']')
    (ends : ∀ c ∈ text.getLast?, c = ',' ∨ isSpace c = true) : Takes leadIn text := by
  rcases List.eq_nil_or_concat' text with rfl | ⟨front, c, rfl⟩
  · exact Pattern.takes_optional_nil
  · have last : c = ',' ∨ isSpace c = true := ends c (by simp)
    refine ((takes_inBrackets fun d mem => inside d (List.mem_append_left _ mem)).seq
      (Pattern.takes_set ?_)).optional
    rcases last with rfl | blank
    · decide
    · simp [CharSet.has, isBlank_of_isSpace blank]

theorem forall_getLast?_append {good : Char → Prop} {xs ys : List Char}
    (first : ∀ c ∈ xs.getLast?, good c) (second : ∀ c ∈ ys.getLast?, good c) :
    ∀ c ∈ (xs ++ ys).getLast?, good c := by
  rw [List.getLast?_append]
  cases own : ys.getLast? with
  | none => exact first
  | some d =>
    rw [own] at second
    exact second

theorem getLast?_blank (blank : blanks.all isSpace = true) :
    ∀ c ∈ blanks.getLast?, c = ',' ∨ isSpace c = true :=
  fun _ last => .inr (List.all_eq_true.mp blank _ (List.mem_of_getLast? last))

theorem exists_item (mem : f ∈ as) (left : Left next (separated (as.map AttributeForm.pieces)) text) :
    ∃ lead own behind, text = lead ++ (own ++ behind) ∧ Left (behind.head?.or next) f.name.pieces own ∧
      ∀ c ∈ lead.getLast?, c = ',' ∨ isSpace c = true := by
  induction as generalizing text with
  | nil => cases mem
  | cons a as ih =>
    cases as with
    | nil =>
      obtain rfl := List.mem_singleton.mp mem
      obtain ⟨name, behind, rfl, named, -⟩ := Left.of_append left
      exact ⟨[], name, behind, rfl, named, by simp⟩
    | cons b bs =>
      obtain ⟨own, others, rfl, first, more⟩ := Left.of_append left
      rcases List.mem_cons.mp mem with rfl | later
      · obtain ⟨name, behind, rfl, named, -⟩ := Left.of_append first
        rw [← Option.or_assoc, ← List.head?_append] at named
        exact ⟨[], name, behind ++ others, by simp, named, by simp⟩
      · obtain ⟨blanks, items, rfl, blank, -, listed⟩ := more.of_cons
        obtain ⟨lead, name, behind, rfl, named, ends⟩ := ih later listed
        refine ⟨own ++ [','] ++ (blanks ++ lead), name, behind, ?_, named,
          forall_getLast?_append (by simp) (forall_getLast?_append (getLast?_blank blank) ends)⟩
        simp [Piece.text, Mark.spelling]

def scopeParts (outer : List Name) : List Pattern :=
  (outer.map fun o => Pattern.text o.text).intersperse
    (.seqs [.blanks, .text "::", .blanks])

theorem scopePattern_joinScope {outer : List Name} (some : outer ≠ []) :
    scopePattern (joinScope (outer.map Name.text)) = .seqs (scopeParts outer) := by
  have split : (joinScope (outer.map Name.text)).splitOn "::" = outer.map Name.text := by
    refine splitOn_joinScope (by simpa using some) fun name mem colon => ?_
    obtain ⟨o, -, rfl⟩ := List.mem_map.mp mem
    exact absurd (o.isWordPart _ colon) (by decide)
  have bare (o : Name) : Text.trim o.text = o.text :=
    (isBareName_of_isWordPart o.text_ne_empty fun c mem => .inl (o.isWordPart c mem)).trim
  simp [scopePattern, split, scopeParts, Function.comp_def, bare]

theorem takes_scope {outer : List Name} (some : outer ≠ [])
    (left : Left next (outer.flatMap fun o => [o.piece, .mark .colonColon]) text) :
    ∃ scope b₁ b₂, text = scope ++ (b₁ ++ ([':', ':'] ++ b₂)) ∧ TakesAll (scopeParts outer) scope ∧
      b₁.all isSpace = true ∧ b₂.all isSpace = true := by
  induction outer generalizing text with
  | nil => exact absurd rfl some
  | cons o outer ih =>
    obtain ⟨b₁, _, rfl, blank₁, -, colons⟩ := Left.of_cons left
    obtain ⟨b₂, more, rfl, blank₂, -, others⟩ := colons.of_cons
    cases outer with
    | nil =>
      obtain rfl := others.of_nil
      refine ⟨o.text.toList, b₁, b₂, ?_, (Pattern.takes_text o.text).all, blank₁, blank₂⟩
      simp [Name.piece, Piece.text, Mark.spelling]
    | cons o' outer =>
      obtain ⟨scope, b₃, b₄, rfl, taken, blank₃, blank₄⟩ := ih (by simp) others
      have joint : Takes (.seqs [.blanks, .text "::", .blanks]) (b₁ ++ ([':', ':'] ++ b₂)) :=
        (TakesAll.cons (Pattern.takes_blanks blank₁) (.cons (Pattern.takes_text "::")
          (Pattern.takes_blanks blank₂).all)).takes
      refine ⟨o.text.toList ++ ((b₁ ++ ([':', ':'] ++ b₂)) ++ scope), b₃, b₄, ?_,
        .cons (Pattern.takes_text o.text) (.cons joint taken), blank₃, blank₄⟩
      simp [Name.piece, Piece.text, Mark.spelling]

theorem matches_name (n : Name) {before after : Option Char} (ends : Pattern.wordAt after = false) :
    Pattern.Matches (.seq (.text n.text) .boundary) before n.text.toList after := by
  have apart : Pattern.wordAt (n.text.toList.getLast?.or before) ≠ Pattern.wordAt after := by
    rw [ends, Pattern.wordAt_word n.identifier]
    decide
  exact List.append_nil n.text.toList ▸ .seq (Pattern.takes_text n.text _ _) (.boundary apart)

theorem exists_named {lead outer : List Char} (name : a.name = f.denote.name)
    (scope : a.scope = f.denote.scope) (leads : Takes leadIn lead)
    (left : Left next (f.name.outer.flatMap fun o => [o.piece, .mark .colonColon]) outer) :
    ∃ p, listPattern a = .seqs [.text "[[", p, inBrackets, .text "]]"] ∧
      ∀ before after, Pattern.wordAt after = false →
        Pattern.Matches p before (lead ++ (outer ++ f.name.last.text.toList)) after := by
  have named : a.name = f.name.last.text := name
  cases own : f.name.outer with
  -- without a scope the name stands directly behind what leads to it
  | nil =>
    obtain rfl := Left.of_nil (own ▸ left)
    have none : a.scope = none := by simp [scope, AttributeForm.denote, own]
    refine ⟨_, by rw [listPattern, none, named], fun before after ends => ?_⟩
    exact .seq (leads _ _) (matches_name f.name.last ends)
  | cons o os =>
    obtain ⟨names, b₁, b₂, rfl, taken, blank₁, blank₂⟩ := takes_scope (by simp [own]) left
    have given : a.scope = some (joinScope (f.name.outer.map Name.text)) := by
      simp [scope, AttributeForm.denote, own]
    have parts : scopePattern (joinScope (f.name.outer.map Name.text)) = _ :=
      scopePattern_joinScope (by simp [own])
    refine ⟨_, by rw [listPattern, given, named], fun before after ends => .left ?_⟩
    rw [parts]
    have front : TakesAll [leadIn, .seqs (scopeParts f.name.outer), .blanks, .text "::", .blanks]
        (lead ++ (names ++ (b₁ ++ ([':', ':'] ++ b₂)))) :=
      .cons leads (.cons taken.takes (.cons (Pattern.takes_blanks blank₁)
        (.cons (Pattern.takes_text "::") (Pattern.takes_blanks blank₂).all)))
    have last (before : Option Char) : Pattern.Matches
        (.seqs [.seq (.text f.name.last.text) .boundary]) before f.name.last.text.toList after :=
      matches_name f.name.last ends
    have whole := front.matches_append (by simp) (last (Option.or _ before))
    simpa using whole

/-- A list with the attribute in it. -/
theorem takes_listPattern (mem : f ∈ as)
    (left : Left (some ']') (separated (as.map AttributeForm.pieces)) text)
    (blank : blanks.all isSpace = true) (name : a.name = f.denote.name)
    (scope : a.scope = f.denote.scope) :
    Takes (listPattern a) (['[', '['] ++ (blanks ++ (text ++ [']', ']']))) := by
  have inside : ∀ c ∈ text, c ≠ ']' := fun c mem => (left.inner_text isInner_attributes c mem).1
  obtain ⟨lead, own, behind, rfl, named, ends⟩ := exists_item mem left
  obtain ⟨outer, last, rfl, outerLeft, lastLeft⟩ := Left.of_append named
  obtain ⟨gap, _, rfl, gapBlank, touch, none⟩ := lastLeft.of_cons
  obtain rfl := none.of_nil
  have leads : Takes leadIn (blanks ++ lead) := by
    refine takes_leadIn (fun c mem => ?_) (forall_getLast?_append (getLast?_blank blank) ends)
    rcases List.mem_append.mp mem with here | there
    · rintro rfl
      exact absurd (List.all_eq_true.mp blank _ here) (by decide)
    · exact inside c (List.mem_append_left _ there)
  have rests : Takes inBrackets (gap ++ behind) :=
    takes_inBrackets fun c mem => inside c (by simp_all)
  have apart (after : Option Char) :
      Pattern.wordAt ((gap ++ behind ++ [']', ']']).head?.or after) = false := by
    have stop := Pattern.wordAt_of_touches touch
    simpa [List.head?_append, Option.or_assoc] using stop
  obtain ⟨p, list, taken⟩ := exists_named name scope leads outerLeft
  intro before after
  have closing (before : Option Char) : Pattern.Matches (.seqs [p, inBrackets, .text "]]"]) before
      ((blanks ++ lead ++ (outer ++ f.name.last.text.toList)) ++ ((gap ++ behind) ++ [']', ']'])) after :=
    .seq (taken _ _ (apart after)) (rests.seq (Pattern.takes_text "]]") _ _)
  have whole := Pattern.matches_seqs_cons (by simp) (Pattern.takes_text "[[" before _) (closing _)
  rw [list]
  simpa [Name.piece, Piece.text] using whole

end Lists

end Grammar

end HeaderMeta
