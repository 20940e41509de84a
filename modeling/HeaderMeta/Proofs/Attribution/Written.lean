import HeaderMeta.Proofs.Attribution
import HeaderMeta.Proofs.Naming.Words
import HeaderMeta.Proofs.Nesting
import HeaderMeta.Proofs.Relexing

/-! Attributes as they are written.

An attribute that a header records stands among the tokens of its file: its name where its span says, and
its arguments, if it has some, in the parentheses behind the name (`Attribute.Written`). An argument list
that nothing closes runs to the end of the file, where nothing is recorded.
-/

set_option autoImplicit false

namespace HeaderMeta

open Grammar (isIdentifier)

/-- A scope of words, none for the empty one. -/
def IsScope (scope : String) : Prop :=
  ∃ parts : List String, scope = joinScope parts ∧ ∀ part ∈ parts, isIdentifier part = true

/-- The parentheses of an attribute among the tokens of a file, directly behind its name. -/
structure Attribute.Group (source : Source) (a : Attribute) where
  before : Tokens
  own : Tokens
  inner : Tokens
  after : Tokens
  «open» : Span
  close : Span
  lexed : (Lexing.ofText source.text).tokens = before ++ (own ++
    ⟨.mark .openParen, «open»⟩ :: (inner ++ ⟨.mark .closeParen, close⟩ :: after))
  placed : own.here = a.span
  named : ∃ outer, own.nameParts = (outer ++ [a.name], []) ∧
    (outer ≠ [] → a.scope = some (joinScope outer))
  balanced : Tokens.BalancedIn .openParen .closeParen inner

def Attribute.Group.raw {source : Source} {a : Attribute} (g : a.Group source) : List Char :=
  source.slice g.open.stop g.close.start

/-- The attribute is one of a file: a name of its own, and arguments that are the text between the
parentheses behind it. -/
structure Attribute.Written (source : Source) (a : Attribute) : Prop where
  name : isIdentifier a.name = true
  scope : ∀ scope ∈ a.scope, IsScope scope
  arguments : ∀ text ∈ a.arguments, ∃ g : a.Group source, text = String.ofList (Text.trimChars g.raw)

theorem Token.Genuine.isIdentifier {word : String} (genuine : (Token.word word).Genuine) :
    isIdentifier word = true := by
  obtain ⟨-, c, cs, n, taken, text, -⟩ := genuine
  obtain ⟨start, rfl⟩ := Lexeme.extent_eq_word taken
  have spelled : word.toList = c :: cs.take (Lexeme.lengthWhile Lexeme.isWordPart cs) := text
  unfold Grammar.isIdentifier
  rw [spelled, Lexeme.take_lengthWhile]
  simp [start]

namespace Tokens
variable {source : Source} {ts us : Tokens}

abbrev Lexed (source : Source) (ts : Tokens) : Prop :=
  ts <:+ (Lexing.ofText source.text).tokens

theorem Lexed.isIdentifier (lexed : Lexed source ts) {t : Placed} (mem : t ∈ ts) {word : String}
    (read : t.token = .word word) : Grammar.isIdentifier word = true := by
  have genuine := Token.genuine_of_mem (lexed.subset mem) (by simp [read])
  rw [read] at genuine
  exact genuine.isIdentifier

theorem Lexed.eq_singleton (lexed : Lexed source ts) (ended : ts.peek = .eof) : ts.length ≤ 1 := by
  obtain ⟨last, split, -⟩ := Lexing.tokens_ofText source
  obtain ⟨before, whole⟩ := lexed
  match ts with
  | [] | [_] => simp
  | t :: u :: more =>
    have here : t.token = .eof := ended
    have parts : (before ++ t :: (u :: more).dropLast) ++ [(u :: more).getLast (by simp)] =
        (Lexing.ofText source.text).tokens.dropLast ++ [last] := by
      rw [← split, ← whole, List.append_assoc, List.cons_append, List.dropLast_concat_getLast]
    have inner : t ∈ (Lexing.ofText source.text).tokens.dropLast := by
      rw [← (List.append_inj' parts rfl).1]
      simp
    exact absurd here (Lexing.spelled_ofText inner).1

theorem mem_of_mem_nameParts {part : String} (mem : part ∈ ts.nameParts.1) :
    ∃ t ∈ ts, t.token = .word part := by
  fun_induction nameParts ts with
  | case1 word span own s next _ parts after read ih =>
    rw [read] at ih
    rcases List.mem_append.mp mem with here | later
    · refine ⟨_, List.mem_cons_self, ?_⟩
      simp only [own] at here
      split at here <;> simp_all
    · obtain ⟨t, among, same⟩ := ih later
      exact ⟨t, by simp [among], same⟩
  | case2 word span own | case3 word span rest own =>
    refine ⟨_, List.mem_cons_self, ?_⟩
    simp only [own] at mem
    split at mem <;> simp_all
  | case4 => cases mem

/-- A name is read from the tokens that it takes. -/
theorem exists_nameParts (ts : Tokens) : ∃ own, ts = own ++ ts.nameParts.2 ∧
    own.nameParts = (ts.nameParts.1, []) ∧ (ts.peek.isWord = true → own ≠ []) := by
  fun_induction nameParts ts with
  | case1 word span first s next isWord parts after read ih =>
    rw [read] at ih
    obtain ⟨own, rfl, same, some⟩ := ih
    have head : own.peek.isWord = true := by
      obtain ⟨t, own, rfl⟩ := List.exists_cons_of_ne_nil (some isWord)
      exact isWord
    refine ⟨⟨.word word, span⟩ :: ⟨.mark .colonColon, s⟩ :: own, rfl, ?_, by simp⟩
    rw [nameParts]
    simp only [head, if_true, same]
    rfl
  | case2 word span own s next => exact ⟨[⟨.word word, span⟩], rfl, by rw [nameParts]; simp, by simp⟩
  | case3 word span rest own => exact ⟨[⟨.word word, span⟩], rfl, by rw [nameParts]; simp, by simp⟩
  | case4 ts notWord =>
    refine ⟨[], rfl, rfl, fun isWord => ?_⟩
    cases ts with
    | nil => cases isWord
    | cons t rest =>
      obtain ⟨token, span⟩ := t
      cases token with
      | word word => exact absurd rfl (notWord word span rest)
      | _ => cases isWord

theorem isScope_nameParts (lexed : Lexed source ts) : IsScope (joinScope ts.nameParts.1) := by
  refine ⟨_, rfl, fun part mem => ?_⟩
  obtain ⟨t, among, same⟩ := mem_of_mem_nameParts mem
  exact lexed.isIdentifier among same

theorem findClose_ends («open» close : Mark) (inner : Nat) (ts : Tokens) :
    (findClose «open» close inner ts).peek = .eof ∨
      ∃ s after, findClose «open» close inner ts = ⟨.mark close, s⟩ :: after := by
  fun_induction findClose «open» close inner ts with
  | case1 => exact .inl rfl
  | case2 _ t ts ended => exact .inl ended
  | case3 _ _ _ _ _ ih | case5 _ _ _ _ _ _ ih | case6 _ _ _ _ _ _ ih => exact ih
  | case4 t ts _ _ closes =>
    obtain ⟨token, s⟩ := t
    obtain rfl : token = .mark close := closes
    exact .inr ⟨s, ts, rfl⟩

theorem peek_advance_eof (lexed : Lexed source ts) (ended : ts.peek = .eof) :
    ts.advance.peek = .eof := by
  have short := lexed.eq_singleton ended
  match ts, short with
  | [], _ | [_], _ => exact ended

end Tokens

namespace Cursor
open Tokens (Lexed)
variable {source : Source} {scope : Option String} {ts rest : Tokens} {a : Attribute} {c : Cursor}

theorem peek_eat_eof (ended : ts.peek = .eof) (m : Mark) : (ts.eat m).2.peek = .eof := by
  have notMark : ts.atMark m = false := by simp [Tokens.atMark, ended]
  simp [Tokens.eat, notMark, ended]

/-- An attribute that is read is written so, unless its arguments run to the end of the file. -/
theorem written_attribute? (lexed : Lexed source ts) (common : ∀ s ∈ scope, IsScope s)
    (read : attribute? source scope ts = some (a, rest)) :
    a.Written source ∨ rest.peek = .eof := by
  obtain ⟨own, split, same, -⟩ := Tokens.exists_nameParts ts
  have words : ∀ part ∈ ts.nameParts.1, isIdentifier part = true := fun part mem => by
    obtain ⟨t, among, spelled⟩ := Tokens.mem_of_mem_nameParts mem
    exact lexed.isIdentifier among spelled
  simp only [attribute?] at read
  split at read
  next => cases read
  next name outer reversed =>
    have parts : ts.nameParts.1 = outer.reverse ++ [name] := by
      rw [← List.reverse_reverse ts.nameParts.1, reversed, List.reverse_cons]
    rw [parts] at same words
    have here : own.here = ts.here := by
      cases own with
      | nil => simp [Tokens.nameParts] at same
      | cons t own => rw [split]; rfl
    obtain ⟨rfl, rfl⟩ := Prod.mk.inj (Option.some.inj read)
    have inScope : ∀ s ∈ (if outer.isEmpty then scope else some (joinScope outer.reverse)), IsScope s := by
      split
      · exact common
      · rintro s ⟨⟩
        exact ⟨_, rfl, fun part mem => words part (List.mem_append_left _ mem)⟩
    have ownScope : outer.reverse ≠ [] →
        (if outer.isEmpty then scope else some (joinScope outer.reverse)) =
          some (joinScope outer.reverse) := fun some => if_neg (by simpa using some)
    generalize (if outer.isEmpty then scope else some (joinScope outer.reverse)) = scope
      at inScope ownScope ⊢
    generalize ts.nameParts.2 = us at split ⊢
    by_cases opens : us.atMark .openParen = true
    · obtain ⟨s₁, vs, rfl⟩ : ∃ s₁ vs, us = ⟨.mark .openParen, s₁⟩ :: vs := by
        cases us with
        | nil => cases opens
        | cons u vs =>
          obtain ⟨token, s₁⟩ := u
          exact ⟨s₁, vs, by rw [show token = _ from beq_iff_eq.mp opens]⟩
      have behind : Tokens.Lexed source vs := by
        refine List.IsSuffix.trans ⟨own ++ [⟨.mark .openParen, s₁⟩], ?_⟩ lexed
        rw [split, List.append_assoc, List.singleton_append]
      -- without a parenthesis that closes the group the text goes on to the end of the file
      rcases Tokens.findClose_ends .openParen .closeParen 0 vs with ended | ⟨s₂, after, closes⟩
      · right
        refine peek_eat_eof ?_ _
        rw [arguments, if_pos opens]
        exact Tokens.peek_advance_eof ((Tokens.ahead_findClose _ _ _ _).suffix.trans behind) ended
      · have found : Tokens.toClose (⟨.mark .openParen, s₁⟩ :: vs) = ⟨.mark .closeParen, s₂⟩ :: after :=
          closes
        obtain ⟨inner, rfl, balanced⟩ := Tokens.exists_balanced_of_toClose .parens found
        refine .inl ⟨words name (by simp), inScope, fun text given => ?_⟩
        rw [arguments, if_pos opens, balanced.toClose .parens] at given
        obtain rfl := Option.some.inj given
        obtain ⟨before, whole⟩ := lexed
        exact ⟨⟨before, own, inner, after, s₁, s₂, by rw [← whole, split], here,
          ⟨outer.reverse, same, ownScope⟩, balanced⟩, rfl⟩
    · exact .inl ⟨words name (by simp), inScope, by simp [arguments, opens]⟩

theorem attributeItems_eof (start : Span) (scope : Option String) (ended : c.peek = .eof) :
    (attributeItems start scope c).2.peek = .eof := by
  fun_induction attributeItems start scope c with
  | case1 | case5 => exact ended
  | case2 c t ts here other | case3 c t ts here word other | case4 c t ts here word other =>
    have first : t.token = .eof := by simpa [peek, here, Tokens.peek, Tokens.peekAt] using ended
    simp [first] at other
  | case6 c t ts here _ _ _ inside | case7 c t ts here _ _ _ inside =>
    exact absurd (by simpa [peek, here, Tokens.peek, Tokens.peekAt] using ended) inside

theorem written_attributeItems (start : Span) (lexed : Lexed c.source c.rest)
    (common : ∀ s ∈ scope, IsScope s) :
    (∀ a ∈ (attributeItems start scope c).1, a.Written c.source) ∨
      (attributeItems start scope c).2.peek = .eof := by
  fun_induction attributeItems start scope c with
  | case1 | case4 | case5 | case6 | case7 => exact .inl (List.forall_mem_nil _)
  | case2 c t ts here comma ih =>
    exact ih ((Tokens.ahead_tail (by simp [comma])).suffix.trans (here ▸ lexed))
  | case3 c t ts here word token a rest read more after items ih =>
    obtain ⟨_, span⟩ := t
    cases token
    have behind : Lexed c.source rest := (ahead_attribute? read).suffix.trans (here ▸ lexed)
    rw [items] at ih
    rcases written_attribute? (here ▸ lexed) common read with own | ended
    · exact (ih behind).imp_left fun others => List.forall_mem_cons.mpr ⟨own, others⟩
    · right
      have final := attributeItems_eof start scope (c := c.goto rest) ended
      rwa [items] at final

theorem isScope_usingScope (lexed : Lexed source ts) : ∀ s ∈ (usingScope ts).1, IsScope s := by
  unfold usingScope
  split
  · rintro s ⟨⟩
    split
    · have behind := (Tokens.ahead_advance ts).trans (Tokens.ahead_advance _)
      exact Tokens.isScope_nameParts (behind.suffix.trans lexed)
    · exact Tokens.isScope_nameParts ((Tokens.ahead_advance ts).suffix.trans lexed)
  · exact nofun

theorem written_attributeList (lexed : Lexed c.source c.rest) :
    (∀ a ∈ c.attributeList.1, a.Written c.source) ∨ c.attributeList.2.peek = .eof := by
  have opened := ((Tokens.ahead_advance c.rest).trans (Tokens.ahead_advance _)).suffix.trans lexed
  exact written_attributeItems (c := c.goto (usingScope c.rest.advance.advance).2) c.here
    ((ahead_usingScope _).suffix.trans opened) (isScope_usingScope opened)

theorem written_attributeSpecifiers (lexed : Lexed c.source c.rest) :
    (∀ a ∈ c.attributeSpecifiers.1, a.Written c.source) ∨ c.attributeSpecifiers.2.peek = .eof := by
  fun_induction attributeSpecifiers c with
  | case1 c _ list more ih =>
    have moved := onward_attributeList c
    have same : list.2.source = c.source := moved.source
    rw [same] at ih
    rcases written_attributeList lexed with own | ended
    · refine (ih (moved.ahead.suffix.trans lexed)).imp_left fun others a mem => ?_
      exact (List.mem_append.mp mem).elim (own a) (others a)
    · right
      have none := attributeSpecifiers_eof ended
      simp only [more, list, none]
      exact ended
  | case2 c _ _ ih =>
    exact ih (((Tokens.ahead_advance c.rest).trans (Tokens.ahead_skipGroup _)).suffix.trans lexed)
  | case3 c => exact .inl (List.forall_mem_nil _)

end Cursor

/-- Every attribute that a header records stands in it. -/
theorem Header.attributes_written (source : Source) :
    (read source).root.Attributed (Attribute.Written source) := by
  refine attributed_read source fun c onward => ?_
  have same : c.source = source := onward.source
  have lexed : Tokens.Lexed c.source c.rest := same ▸ onward.ahead.suffix
  exact same ▸ Cursor.written_attributeSpecifiers lexed

end HeaderMeta
