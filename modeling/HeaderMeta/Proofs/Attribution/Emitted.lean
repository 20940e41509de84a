import HeaderMeta.Artifact
import HeaderMeta.Proofs.Attribution.Written
import HeaderMeta.Proofs.Relexing.Splicing
import HeaderMeta.Proofs.Resolution.Arguments

/-! Attributes in generated code.

The definition of an attribute's metadata is one line of new text around the argument text of the header.
Its tokens are those of the name, and between the braces those that the header has between the parentheses,
if and only if the argument text ends clean (`Lexeme.endsClean`).
-/

set_option autoImplicit false

namespace HeaderMeta

open Grammar (isIdentifier)
open Lexeme (tokens)

namespace Text
theorem trimChars_trimChars (cs : List Char) : trimChars (trimChars cs) = trimChars cs := by
  have first : ∀ c ∈ (trimChars cs).head?, isBlank c = false := by
    intro c head
    obtain ⟨trail, whole, -⟩ := exists_trimChars cs
    have stop := List.head?_dropWhile_not isBlank cs
    rw [← trimStartChars, whole, List.head?_append, Option.mem_def.mp head] at stop
    simpa using stop
  have whole : trimChars ([] ++ trimChars cs ++ []) = trimChars cs :=
    Grammar.trimChars_append (List.forall_mem_nil _) (List.forall_mem_nil _) first getLast?_trimChars
  rwa [List.nil_append, List.append_nil] at whole

end Text

section Words
variable {word name : String} {tail : List Char} {c : Char}

theorem Token.genuine_word (identifier : isIdentifier word = true) : (Token.word word).Genuine := by
  unfold isIdentifier at identifier
  split at identifier
  next => cases identifier
  next c cs spelled =>
    obtain ⟨start, part⟩ := Bool.and_eq_true_iff.mp identifier
    have taken : Lexeme.extent c (cs ++ [' ']) = (.word, cs.length) :=
      Lexeme.extent_word start part (by simp [Lexeme.isWordPart])
    refine ⟨nofun, c, cs ++ [' '], cs.length, taken, ?_, nofun⟩
    rw [List.take_left' rfl]
    exact spelled

theorem tokens_word (identifier : isIdentifier word = true) (stop : Lexeme.isWordPart c = false)
    (quote : c ≠ '"') : tokens (word.toList ++ c :: tail) = .word word :: tokens (c :: tail) :=
  (Token.genuine_word identifier).tokens_append (by simp [Token.lexeme, Lexeme.settles, stop, quote])

theorem Token.genuine_mark (m : Mark) : (Token.mark m).Genuine := by
  refine ⟨by simp, ?_⟩
  cases spelled : m.spelling.toList with
  | nil => cases m <;> simp [Mark.spelling] at spelled
  | cons c cs =>
    refine ⟨c, cs ++ [' '], cs.length, Lexeme.extent_mark (by simp) spelled, ?_, by simp [Token.lexeme]⟩
    rw [List.take_left' rfl]
    exact spelled

theorem tokens_mark {m : Mark} (settled : (Token.mark m).lexeme.settles tail = true) :
    tokens (m.spelling.toList ++ tail) = .mark m :: tokens tail :=
  (Token.genuine_mark m).tokens_append settled

theorem isIdentifier_append {suffix : String} (identifier : isIdentifier name = true)
    (part : suffix.toList.all Lexeme.isWordPart = true) : isIdentifier (name ++ suffix) = true := by
  unfold isIdentifier at identifier ⊢
  split at identifier
  next => cases identifier
  next c cs spelled =>
    obtain ⟨start, inner⟩ := Bool.and_eq_true_iff.mp identifier
    rw [String.toList_append, spelled, List.cons_append]
    simp [start, inner, part]

theorem isIdentifier_attributeVariable (identifier : isIdentifier name = true) (repeats : Nat) :
    isIdentifier (attributeVariable name repeats) = true := by
  unfold attributeVariable
  split
  · exact isIdentifier_append identifier (by decide)
  · obtain ⟨c, cs, spelled, first, others⟩ := Lexeme.toString_digits repeats
    have part {d : Char} (digit : d.isDigit = true) : Lexeme.isWordPart d = true := by
      simp [Lexeme.isWordPart, Char.isAlphanum, digit]
    refine isIdentifier_append (isIdentifier_append identifier (by decide)) ?_
    rw [spelled, List.all_cons, part first, Bool.true_and, List.all_eq_true]
    exact fun d mem => part (List.all_eq_true.mp others d mem)

theorem tokens_scope {parts : List String} (identifiers : ∀ part ∈ parts, isIdentifier part = true) :
    ∃ q : List Token,
      ∀ tail, tokens ((joinScope parts).toList ++ ("::".toList ++ tail)) = q ++ tokens tail := by
  have colons (tail : List Char) : tokens ("::".toList ++ tail) = .mark .colonColon :: tokens tail :=
    tokens_mark (m := .colonColon) rfl
  have named {part : String} (identifier : isIdentifier part = true) (tail : List Char) :
      tokens (part.toList ++ ("::".toList ++ tail)) =
        .word part :: .mark .colonColon :: tokens tail := by
    rw [← colons]
    exact tokens_word identifier (by decide) (by decide)
  induction parts with
  | nil => exact ⟨[.mark .colonColon], colons⟩
  | cons part parts ih =>
    obtain ⟨here, others⟩ := List.forall_mem_cons.mp identifiers
    cases parts with
    | nil => exact ⟨[.word part, .mark .colonColon], named here⟩
    | cons next parts =>
      obtain ⟨q, rest⟩ := ih others
      refine ⟨.word part :: .mark .colonColon :: q, fun tail => ?_⟩
      have split : joinScope (part :: next :: parts) = part ++ "::" ++ joinScope (next :: parts) := rfl
      rw [split, String.toList_append, String.toList_append, List.append_assoc, List.append_assoc,
        named here, rest]
      rfl

theorem tokens_qualifiedName {a : Attribute} (scope : ∀ s ∈ a.scope, IsScope s) :
    ∃ q : List Token, ∀ tail,
      tokens (a.qualifiedName.toList ++ tail) = q ++ tokens (a.name.toList ++ tail) := by
  unfold Attribute.qualifiedName
  cases own : a.scope with
  | none => exact ⟨[], fun tail => rfl⟩
  | some s =>
    obtain ⟨parts, rfl, identifiers⟩ := scope s own
    obtain ⟨q, read⟩ := tokens_scope identifiers
    refine ⟨q, fun tail => ?_⟩
    rw [← read, String.toList_append, String.toList_append]
    simp only [List.append_assoc]

end Words

/-- The line that defines the metadata of an attribute whose name occurred `repeats` times before. -/
def Attribute.definition (a : Attribute) (repeats : Nat) : String :=
  "static const " ++ a.qualifiedName ++ "_attribute " ++ attributeVariable a.name repeats ++ "\x7b" ++
    Text.trim (a.arguments.getD "") ++ "\x7d;"

def Attribute.definitionHead (a : Attribute) (scope : List Token) (repeats : Nat) : List Token :=
  [.word "static", .word "const"] ++ scope ++
    [.word (a.name ++ "_attribute"), .word (attributeVariable a.name repeats), .mark .openBrace]

namespace Attribute
variable {a : Attribute}

/-- Each attribute of a block has its line, numbered by those of its name before it. -/
theorem definition_mem_lines (list : String) (seen : List String) (front back : List Attribute) :
    .line (a.definition (seen.count a.name + (front.map (·.name)).count a.name)) ∈
      attributeLines list seen (front ++ a :: back) := by
  induction front generalizing seen with
  | nil => exact List.mem_cons_self
  | cons b front ih =>
    -- an attribute that is passed is counted in `seen` from then on
    have shifted : seen.count a.name + ((b :: front).map (·.name)).count a.name =
        (b.name :: seen).count a.name + (front.map (·.name)).count a.name := by
      simp only [List.map_cons, List.count_cons]
      omega
    rw [shifted]
    exact List.mem_cons_of_mem _ (List.mem_cons_of_mem _ (ih (b.name :: seen)))

theorem definition_mem_block (preamble : Code) (list : String) {attributes front back : List Attribute}
    (emitted : attributes.filter (·.isEmitted) = front ++ a :: back) :
    .line (a.definition ((front.map (·.name)).count a.name)) ∈
      attributeBlock preamble list attributes := by
  have line := definition_mem_lines (a := a) list [] front back
  rw [List.count_nil, Nat.zero_add, ← emitted] at line
  unfold attributeBlock
  split
  next none => simp [none] at emitted
  next => simp [Code.braces, line]

/-- The line of an attribute is read as its head, and then the text that the arguments are put in. -/
theorem tokens_definition (identifier : isIdentifier a.name = true) (scope : ∀ s ∈ a.scope, IsScope s) :
    ∃ q : List Token, tokens a.qualifiedName.toList = q ++ [.word a.name] ∧
      ∀ repeats, tokens (a.definition repeats).toList = a.definitionHead q repeats ++
        tokens (Text.trimChars (a.arguments.getD "").toList ++ ['}', ';']) := by
  obtain ⟨q, named⟩ := tokens_qualifiedName scope
  refine ⟨q, ?_, fun repeats => ?_⟩
  · have alone : tokens (a.name.toList ++ []) = .word a.name :: tokens [] :=
      (Token.genuine_word identifier).tokens_append (by simp [Token.lexeme, Lexeme.settles])
    have none : tokens [] = [] := by rw [tokens, Lexeme.cut, List.filterMap_nil]
    rw [none] at alone
    have whole := named []
    rw [List.append_nil] at whole
    exact whole.trans (congrArg (q ++ ·) alone)
  -- the line word for word, so that its tokens come off at the front one by one
  · have spelled : (a.definition repeats).toList =
        "static".toList ++ ' ' :: ("const".toList ++ ' ' :: (a.qualifiedName.toList ++
          ("_attribute".toList ++ ' ' :: ((attributeVariable a.name repeats).toList ++ '\x7b' ::
            (Text.trimChars (a.arguments.getD "").toList ++ ['}', ';']))))) := by
      have parts (s t u v w x y : String) : (s ++ t ++ u ++ v ++ w ++ x ++ y).toList = s.toList ++
          (t.toList ++ (u.toList ++ (v.toList ++ (w.toList ++ (x.toList ++ y.toList))))) := by
        simp only [String.toList_append, List.append_assoc]
      unfold definition Text.trim
      rw [parts, String.toList_ofList]
      simp
    have word {w : String} (identifier : isIdentifier w = true) (tail : List Char) :
        tokens (w.toList ++ ' ' :: tail) = .word w :: tokens tail := by
      rw [tokens_word identifier (by decide) (by decide), Lexeme.tokens_blank rfl]
    have object : isIdentifier (a.name ++ "_attribute") = true :=
      isIdentifier_append identifier (by decide)
    have brace (tail : List Char) : tokens ('\x7b' :: tail) = .mark .openBrace :: tokens tail :=
      tokens_mark (m := .openBrace) rfl
    rw [spelled, word (by decide), word (by decide), named, ← List.append_assoc a.name.toList,
      ← String.toList_append, word object,
      tokens_word (isIdentifier_attributeVariable identifier repeats) (by decide) (by decide), brace]
    simp [definitionHead]

end Attribute

namespace Header

/-- The arguments of an attribute that a header records are those of the parentheses behind its name. Each
block that emits the attribute has its line, which is read as the tokens of the name, of the variable and
between the braces those between the parentheses, if and only if the argument text ends clean. -/
theorem emits_attribute_arguments (source : Source) {d : TypeDecl} (type : d ∈ (read source).root.walk)
    {a : Attribute} (recorded : a ∈ d.attributes ∨ ∃ f ∈ d.fields, a ∈ f.attributes) {text : String}
    (given : a.arguments = some text) : ∃ (g : a.Group source) (scope : List Token),
      text = String.ofList (Text.trimChars g.raw) ∧
      (Lexing.ofText a.qualifiedName).tokens.map Placed.token = scope ++ [.word a.name, .eof] ∧
      ∀ (preamble : Code) (list : String) (attributes front back : List Attribute),
        attributes.filter (·.isEmitted) = front ++ a :: back →
        let line := a.definition ((front.map (·.name)).count a.name)
        .line line ∈ attributeBlock preamble list attributes ∧
        ((Lexing.ofText line).tokens.map Placed.token =
            a.definitionHead scope ((front.map (·.name)).count a.name) ++
              g.inner.map Placed.token ++ [.mark .closeBrace, .mark .semicolon, .eof] ↔
          Lexeme.endsClean (Lexeme.cut text.toList) = true) := by
  have written : a.Written source := by
    have all := (attributes_written source).walk d type
    rcases recorded with own | ⟨f, mem, own⟩
    · exact all.own a own
    · exact all.fields f mem a own
  obtain ⟨g, rfl⟩ := written.arguments text given
  obtain ⟨q, name, lines⟩ := Attribute.tokens_definition written.name written.scope
  have inner : tokens g.raw = g.inner.map Placed.token := by
    have lexed := g.lexed
    rw [← List.append_assoc] at lexed
    exact Lexing.tokens_between lexed
  refine ⟨g, q, rfl, ?_, fun preamble list attributes front back emitted => ⟨?_, ?_⟩⟩
  · rw [Lexeme.map_token_ofText, name, List.append_assoc]
    rfl
  · exact Attribute.definition_mem_block preamble list emitted
  -- what is emitted is trimmed a second time, to no effect
  · have trimmed : Text.trimChars (a.arguments.getD "").toList = Text.trimChars g.raw := by
      rw [given, Option.getD_some, String.toList_ofList, Text.trimChars_trimChars]
    rw [Lexeme.map_token_ofText, lines, trimmed, String.toList_ofList, ← Lexeme.tokens_braced_iff, inner]
    have ending : [Token.mark .closeBrace, .mark .semicolon, .eof] =
        [.mark .closeBrace, .mark .semicolon] ++ [.eof] := rfl
    rw [ending, ← List.append_assoc _ _ [Token.eof], List.append_cancel_right_eq, List.append_assoc,
      List.append_cancel_left_eq]

def attributesOf (text : String) : List Attribute :=
  (read ⟨⟨"box.hpp"⟩, text⟩).root.walk.flatMap TypeDecl.attributes

def firstAttribute (arguments : String) : Attribute :=
  ⟨none, "r", some arguments, ⟨9, 10, 1, 10⟩⟩

theorem emits_attribute_arguments_pair :
    let a := firstAttribute "0, 1"
    ∃ g : a.Group ⟨⟨"box.hpp"⟩, "struct [[r( 0, 1 )]] A {};"⟩,
      .line "static const r_attribute r_attr\x7b0, 1\x7d;" ∈ attributeBlock [] "list" [a] ∧
        (Lexing.ofText "static const r_attribute r_attr\x7b0, 1\x7d;").tokens.map Placed.token =
          a.definitionHead [] 0 ++ g.inner.map Placed.token ++
            [.mark .closeBrace, .mark .semicolon, .eof] := by
  intro a
  have found : attributesOf "struct [[r( 0, 1 )]] A {};" = [a] := by decide +kernel
  obtain ⟨d, type, own⟩ := List.mem_flatMap.mp (found ▸ List.mem_singleton_self a :
    a ∈ attributesOf "struct [[r( 0, 1 )]] A {};")
  obtain ⟨g, scope, -, name, blocks⟩ := emits_attribute_arguments _ type (.inl own) rfl
  have plain : scope = [] := by
    have alone : (Lexing.ofText a.qualifiedName).tokens.map Placed.token = [.word "r", .eof] := by
      decide +kernel
    rw [alone] at name
    exact List.self_eq_append_left.mp name
  subst plain
  have spelled : a.definition 0 = "static const r_attribute r_attr\x7b0, 1\x7d;" := by decide +kernel
  have emitted := blocks [] "list" [a] [] [] (by decide)
  rw [List.map_nil, List.count_nil, spelled] at emitted
  exact ⟨g, emitted.1, emitted.2.mpr (by decide +kernel)⟩

/-- A comment at the end of the arguments takes the brace and the semicolon of the line. -/
theorem comment_takes_brace :
    let a := firstAttribute "0, 1 // a"
    attributesOf "struct [[r(0, 1 // a\n)]] A {};" = [a] ∧
      .line "static const r_attribute r_attr\x7b0, 1 // a\x7d;" ∈ attributeBlock [] "list" [a] ∧
        (Lexing.ofText "struct [[r(0, 1 // a\n)]] A {};").tokens.map Placed.token =
          [.word "struct", .mark .openBracket, .mark .openBracket, .word "r", .mark .openParen,
            .number "0", .mark .comma, .number "1", .mark .closeParen, .mark .closeBracket,
            .mark .closeBracket, .word "A", .mark .openBrace, .mark .closeBrace, .mark .semicolon, .eof] ∧
        (Lexing.ofText "static const r_attribute r_attr\x7b0, 1 // a\x7d;").tokens.map Placed.token =
          a.definitionHead [] 0 ++ [.number "0", .mark .comma, .number "1", .eof] ∧
        (Lexing.ofText "static const r_attribute r_attr\x7b0, 1 // a\x7d;").tokens.map Placed.token ≠
          a.definitionHead [] 0 ++ [.number "0", .mark .comma, .number "1"] ++
            [.mark .closeBrace, .mark .semicolon, .eof] := by
  refine ⟨?_, ?_, ?_, ?_, ?_⟩ <;> decide +kernel

end Header

end HeaderMeta
