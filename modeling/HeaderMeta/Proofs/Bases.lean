import HeaderMeta.Proofs.Attribution
import HeaderMeta.Proofs.Nesting
import HeaderMeta.Proofs.Resolution.Arguments
import HeaderMeta.Proofs.Spelling
import HeaderMeta.Reflection.Member

/-! Bases with template arguments.

The reader of a base clause takes each base up to the comma or brace outside all parentheses and template
angles (`Base.Balanced`), and spells its tokens without spaces where it can. The spelling is read as the
same tokens again where none of them is a word that spelling leaves out, and none runs on into the text
that is put behind it (`Separate`).
-/

set_option autoImplicit false

namespace HeaderMeta

namespace Base
open Tokens (BalancedIn)

def isStop : Token → Bool
  | .mark .semicolon | .mark .openParen | .mark .closeParen | .mark .less | .mark .greater => true
  | _ => false

def isEnd : Token → Bool
  | .mark .comma | .mark .openBrace => true
  | _ => false

/-- Tokens of a base in which parentheses and template angles are balanced. Angles inside parentheses
do not count, and `deep` in angles a comma or brace ends nothing. -/
inductive Balanced : (deep : Bool) → Tokens → Prop where
  | nil {deep : Bool} : Balanced deep []
  | token {deep : Bool} {t : Placed} {ts : Tokens} (inside : t.token ≠ .eof)
      (plain : isStop t.token = false) (ends : isEnd t.token = true → deep = true)
      (more : Balanced deep ts) : Balanced deep (t :: ts)
  | parens {deep : Bool} {s₁ s₂ : Span} {inner ts : Tokens}
      (inside : BalancedIn .openParen .closeParen inner) (more : Balanced deep ts) :
      Balanced deep (⟨.mark .openParen, s₁⟩ :: (inner ++ ⟨.mark .closeParen, s₂⟩ :: ts))
  | angles {deep : Bool} {s₁ s₂ : Span} {inner ts : Tokens} (inside : Balanced true inner)
      (more : Balanced deep ts) :
      Balanced deep (⟨.mark .less, s₁⟩ :: (inner ++ ⟨.mark .greater, s₂⟩ :: ts))

section Reading
variable {deep : Bool} {own us tail : Tokens}

theorem Balanced.append (first : Balanced deep own) (second : Balanced deep us) :
    Balanced deep (own ++ us) := by
  induction first with
  | nil => exact second
  | token inside plain ends _ ih => exact .token inside plain ends (ih second)
  | parens inside _ ih => simpa using .parens inside (ih second)
  | angles inside _ _ ih => simpa using .angles inside (ih second)

/-- What is balanced is taken as a whole, whatever follows it. -/
theorem Balanced.spellingTokens (balanced : Balanced deep own) {angles : Nat}
    (opened : deep = true → 0 < angles) (some : tail ≠ []) :
    Base.spellingTokens angles (own ++ tail) =
      (Base.spellingTokens angles tail).map fun read => (own.map Placed.token ++ read.1, read.2) := by
  induction balanced generalizing angles tail with
  | nil => simp
  | @token deep t ts inside plain ends _ ih =>
    have rest := ih opened some
    rw [List.cons_append, Base.spellingTokens]
    split
    case h_6 | h_7 =>
      -- a comma or brace is taken in angles only
      have deeper : angles ≠ 0 := Nat.ne_of_gt (opened (ends (by simp [*, isEnd])))
      simp [*, Base.spellingTokens.keep, Function.comp_def]
    all_goals simp_all [isStop, Base.spellingTokens.keep, Function.comp_def]
  | @parens deep s₁ s₂ inner ts balanced _ ih =>
    have behind : ts ++ tail ≠ [] := by simp [some]
    have leapt := balanced.skipGroup .parens s₁ s₂ behind
    have rest := ih opened some
    rw [List.cons_append, List.append_assoc, List.cons_append, Base.spellingTokens]
    simp only [leapt, rest]
    have parts : (⟨.mark .openParen, s₁⟩ :: (inner ++ ⟨.mark .closeParen, s₂⟩ :: (ts ++ tail)) : Tokens) =
        (⟨.mark .openParen, s₁⟩ :: (inner ++ [⟨.mark .closeParen, s₂⟩])) ++ (ts ++ tail) := by simp
    rw [parts, List.take_left' (by simp; omega)]
    simp [Function.comp_def]
  | @angles deep s₁ s₂ inner ts _ _ ihInner ih =>
    rw [List.cons_append, List.append_assoc, List.cons_append, Base.spellingTokens,
      ihInner (fun _ => Nat.succ_pos angles) (by simp), Base.spellingTokens]
    simp [ih opened some, Base.spellingTokens.keep, Function.comp_def]

end Reading

def isQualifier : Token → Bool
  | .word word => word == "virtual" || (Visibility.ofWord? word).isSome
  | _ => false

/-- A base as a clause lists it: the words for its access and whether it is virtual, and its own
tokens. -/
structure Item where
  words : Tokens
  own : Tokens
  qualify : ∀ t ∈ words, isQualifier t.token = true
  starts : ∀ t ∈ own.head?, isQualifier t.token = false
  balanced : Balanced false own

namespace Item

def tokens (i : Item) : Tokens :=
  i.words ++ i.own

def bases (key : RecordKey) (i : Item) : List Base :=
  let spelling := spell (i.own.map Placed.token)
  let read := (qualifiers key.defaultVisibility false i.words).1
  if spelling = "" then [] else [{ spelling, access := read.1, isVirtual := read.2 }]

end Item

inductive Clause : List Item → Tokens → Prop where
  | last (i : Item) : Clause [i] i.tokens
  | comma {is : List Item} {ts : Tokens} (i : Item) (span : Span) (more : Clause is ts) :
      Clause (i :: is) (i.tokens ++ ⟨.mark .comma, span⟩ :: ts)

section Clauses
open Grammar (BaseEnd)
variable {key : RecordKey} {rest : Tokens}

theorem qualifiers_append {words ts : Tokens} (qualify : ∀ t ∈ words, isQualifier t.token = true)
    (starts : ∀ t ∈ ts.head?, isQualifier t.token = false) (access : Visibility) (isVirtual : Bool) :
    qualifiers access isVirtual (words ++ ts) = ((qualifiers access isVirtual words).1, ts) := by
  induction words generalizing access isVirtual with
  | nil =>
    cases ts with
    | nil => rfl
    | cons t ts =>
      have plain := starts t rfl
      obtain ⟨token, span⟩ := t
      cases token with
      | word word =>
        obtain ⟨notVirtual, none⟩ : word ≠ "virtual" ∧ Visibility.ofWord? word = none := by
          simpa [isQualifier] using plain
        simp [qualifiers, notVirtual, none]
      | _ => simp [qualifiers]
  | cons t words ih =>
    obtain ⟨here, others⟩ := List.forall_mem_cons.mp qualify
    obtain ⟨token, span⟩ := t
    cases token with
    | word word =>
      by_cases virtual_ : word = "virtual"
      · simp [qualifiers, virtual_, ih others]
      · obtain ⟨v, known⟩ := Option.isSome_iff_exists.mp (by simpa [isQualifier, virtual_] using here)
        simp [qualifiers, virtual_, known, ih others]
    | _ => cases here

theorem readOne_item (i : Item) (ends : BaseEnd rest) :
    readOne key (i.tokens ++ rest) = some (i.bases key, rest) := by
  have behind : rest ≠ [] := by
    obtain ⟨_, _, _, rfl, -⟩ := ends
    exact List.cons_ne_nil _ _
  have starts : ∀ t ∈ (i.own ++ rest).head?, isQualifier t.token = false := by
    cases empty : i.own with
    | nil =>
      obtain ⟨m, span, us, rfl, -⟩ := ends
      rintro t ⟨⟩
      rfl
    | cons t own => simpa [empty] using i.starts
  have stop : Base.spellingTokens 0 rest = some ([], rest) := by
    obtain ⟨m, span, us, rfl, rfl | rfl⟩ := ends <;> simp [Base.spellingTokens]
  have spelled : Base.spellingTokens 0 (i.own ++ rest) = (Base.spellingTokens 0 rest).map fun read =>
      (i.own.map Placed.token ++ read.1, read.2) := i.balanced.spellingTokens (by simp) behind
  rw [Item.tokens, List.append_assoc, readOne, qualifiers_append i.qualify starts]
  simp only [spelled, stop, Option.map_some, List.append_nil]
  rfl

theorem readAll_clause {is : List Item} {ts : Tokens} (clause : Clause is ts) (s : Span) :
    readAll key (ts ++ ⟨.mark .openBrace, s⟩ :: rest) =
      some (is.flatMap (Item.bases key), ⟨.mark .openBrace, s⟩ :: rest) := by
  induction clause with
  | last i =>
    rw [Grammar.readAll_last (readOne_item i ⟨_, _, _, rfl, .inr rfl⟩)]
    simp
  | comma i span _ ih =>
    rw [List.append_assoc, List.cons_append,
      Grammar.readAll_comma (readOne_item i ⟨_, _, _, rfl, .inl rfl⟩), ih]
    simp

end Clauses

structure Template where
  words : Tokens
  path : Tokens
  arguments : Tokens
  «open» : Span
  close : Span
  qualify : ∀ t ∈ words, isQualifier t.token = true
  isPath : Grammar.IsPath path
  balanced : Balanced true arguments

namespace Template
open Grammar (IsNameToken)

def angled (t : Template) : Tokens :=
  ⟨.mark .less, t.open⟩ :: (t.arguments ++ [⟨.mark .greater, t.close⟩])

def own (t : Template) : Tokens :=
  t.path ++ t.angled

def name (t : Template) : String :=
  spell (t.path.map Placed.token)

def suffix (t : Template) : String :=
  spell (t.angled.map Placed.token)

theorem balanced_own (t : Template) : Balanced false t.own := by
  have named : ∀ u ∈ t.path, IsNameToken u.token := t.isPath.named
  have path : Balanced false t.path := by
    generalize t.path = path at named
    induction path with
    | nil => exact .nil
    | cons u path ih =>
      obtain ⟨here, others⟩ := List.forall_mem_cons.mp named
      obtain ⟨token, span⟩ := u
      rcases here with rfl | ⟨n, rfl⟩ <;> exact .token nofun rfl nofun (ih others)
  exact path.append (.angles t.balanced .nil)

theorem isQualifier_name (n : Grammar.Name) : isQualifier (.word n.text) = false := by
  simp [isQualifier, n.ne (w := "virtual") (by decide), n.ofWord?_visibility]

def toItem (t : Template) : Item where
  words := t.words
  own := t.own
  qualify := t.qualify
  balanced := t.balanced_own
  starts := by
    intro u first
    obtain ⟨pre, last, s, whole⟩ := t.isPath.eq_append
    have among : u ∈ t.path := by
      cases path : t.path with
      | nil => simp [path] at whole
      | cons v path =>
        rw [own, path] at first
        obtain rfl := Option.some.inj first
        exact List.mem_cons_self
    obtain ⟨token, span⟩ := u
    rcases t.isPath.named _ among with rfl | ⟨n, rfl⟩
    · rfl
    · exact isQualifier_name n

section Spelling
variable (t : Template)

theorem named : ∀ token ∈ t.path.map Placed.token, IsNameToken token := by
  intro token mem
  obtain ⟨u, among, rfl⟩ := List.mem_map.mp mem
  exact t.isPath.named u among

theorem map_angled : t.angled.map Placed.token =
    Token.mark .less :: (t.arguments.map Placed.token ++ [Token.mark .greater]) := by
  simp [angled]

theorem filter_path : (t.path.map Placed.token).filter (! ·.isNoise) = t.path.map Placed.token :=
  List.filter_eq_self.mpr fun token mem => by simp [(t.named token mem).not_noise]

theorem spell_own : spell (t.own.map Placed.token) = t.name ++ t.suffix := by
  have angle : ∀ us, (Token.mark .less :: us).filter (! ·.isNoise) =
      .mark .less :: us.filter (! ·.isNoise) := fun _ => rfl
  rw [name, suffix, own, List.map_append, map_angled, spell, spell, spell, List.filter_append, angle,
    spellAfter_append rfl]

theorem separate_names {ts us : List Token} (named : ∀ t ∈ ts, IsNameToken t) :
    Separate (ts ++ .mark .less :: us) = Separate (.mark .less :: us) := by
  induction ts with
  | nil => rfl
  | cons t ts ih =>
    obtain ⟨here, others⟩ := List.forall_mem_cons.mp named
    rw [List.cons_append, Separate, ih others]
    suffices settled : t.lexeme.settles (spellAfter (some t) (ts ++ .mark .less :: us)).toList = true by
      rw [settled, Bool.true_and]
    rcases here with rfl | ⟨n, rfl⟩
    · rfl
    · -- behind a word stands a blank, a colon or the angle
      obtain ⟨c, behind, notPart, notQuote⟩ : ∃ c,
          (spellAfter (some (.word n.text)) (ts ++ .mark .less :: us)).toList.head? = some c ∧
            Lexeme.isWordPart c = false ∧ c ≠ '"' := by
        cases ts with
        | nil =>
          exact ⟨'<', by simp [spellAfter, Token.needsSpaceBefore, Token.isWordlike, Token.spelling,
            Mark.spelling], by decide, by decide⟩
        | cons u ts =>
          rcases (List.forall_mem_cons.mp others).1 with rfl | ⟨m, rfl⟩
          · exact ⟨':', by simp [spellAfter, Token.needsSpaceBefore, Token.isWordlike, Token.spelling,
              Mark.spelling], by decide, by decide⟩
          · exact ⟨' ', by simp [spellAfter, Token.needsSpaceBefore, Token.isWordlike, Token.spelling],
              by decide, by decide⟩
      simp [Token.lexeme, Lexeme.settles, behind, notPart, notQuote]

theorem separate_own : Separate (t.own.map Placed.token) = Separate (t.angled.map Placed.token) := by
  rw [own, List.map_append, map_angled, separate_names t.named]

theorem plain_own : (t.own.map Placed.token).all (! ·.isNoise) =
    (t.arguments.map Placed.token).all (! ·.isNoise) := by
  have path : (t.path.map Placed.token).all (! ·.isNoise) = true :=
    List.all_eq_true.mpr fun token mem => by simp [(t.named token mem).not_noise]
  rw [own, List.map_append, map_angled, List.all_append, path]
  simp [Token.isNoise]

end Spelling

section Names

variable (t : Template)

theorem name_eq : ∃ n : Grammar.ScopedName, t.name = n.text ∨ t.name = "::" ++ n.text := by
  obtain ⟨n, spelled | spelled⟩ := t.isPath
  · exact ⟨n, .inl (by rw [name, spelled, Grammar.spell_tokens])⟩
  · refine ⟨n, .inr ?_⟩
    have kept := t.filter_path
    rw [spelled] at kept
    have rest := Grammar.spellAfter_tokens n (some (.mark .colonColon)) fun _ => rfl
    rw [name, spelled, spell, kept, spellAfter, rest]
    rfl

theorem isBareName : IsBareName t.name := by
  obtain ⟨n, eq | eq⟩ := t.name_eq <;> rw [eq]
  · exact n.isBareName
  · exact n.isBareName_absolute

theorem isAngled : IsAngled t.suffix := by
  have parts : t.suffix = spellAfter none (.mark .less ::
      (t.arguments.map Placed.token).filter (! ·.isNoise)) ++ ">" := by
    rw [suffix, spell, map_angled]
    simp only [List.filter_cons, List.filter_append, List.filter_nil, Token.isNoise, Bool.not_false, if_true]
    rw [← List.cons_append, spellAfter_append rfl]
    rfl
  constructor
  · rw [parts]
    simp [spellAfter, Token.spelling, Mark.spelling]
  · rw [parts]
    simp

def base (key : RecordKey) (t : Template) : Base :=
  let read := (qualifiers key.defaultVisibility false t.words).1
  { spelling := spell (t.own.map Placed.token), access := read.1, isVirtual := read.2 }

theorem bases_toItem (key : RecordKey) : t.toItem.bases key = [t.base key] := by
  have filled : t.name ++ t.suffix ≠ "" := by simp [t.isBareName.some]
  rw [← t.spell_own] at filled
  rw [Item.bases, toItem]
  simp only [if_neg filled, base]

end Names

end Template

/-- The artifacts of a base are named by its display name, whether they are delegated to or not. -/
theorem name_link (verdicts : Verdicts) (b : Base) : (b.link verdicts).name = b.displayName := by
  unfold link
  split <;> rfl

theorem Clause.subset {is : List Item} {ts : Tokens} (clause : Clause is ts) :
    ∀ i ∈ is, ∀ t ∈ i.own, t ∈ ts := by
  induction clause with
  | last i =>
    intro j mem t own
    obtain rfl := List.mem_singleton.mp mem
    exact List.mem_append_right _ own
  | comma i span _ ih =>
    intro j mem t own
    rcases List.mem_cons.mp mem with rfl | later
    · exact List.mem_append_left _ (List.mem_append_right _ own)
    · exact List.mem_append_right _ (List.mem_cons_of_mem _ (ih j later t own))

theorem Balanced.inside {deep : Bool} {own : Tokens} (balanced : Balanced deep own) :
    ∀ t ∈ own, t.token ≠ .eof := by
  induction balanced with
  | nil => exact nofun
  | token inside _ _ _ ih => exact List.forall_mem_cons.mpr ⟨inside, ih⟩
  | parens inside _ ih =>
    have group := inside.inside
    simp_all [or_imp]
  | angles _ _ ihInner ih => simp_all [or_imp]

end Base

namespace Cursor
variable {c : Cursor} {key : RecordKey} {is : List Base.Item} {ts rest : Tokens} {s₁ s₂ : Span}
  {isTemplate : Bool}

/-- A definition has the bases that its clause lists. -/
theorem bases_of_record (closed : c.rest.Closed)
    (keyed : c.rest.word?.bind RecordKey.ofWord? = some key)
    (head : (c.advance.recordHead isTemplate).2.rest =
      ⟨.mark .colon, s₁⟩ :: (ts ++ ⟨.mark .openBrace, s₂⟩ :: rest))
    (clause : Base.Clause is ts) {room : Nat} {namespaces enclosing : List String}
    {outcome : RecordOutcome}
    (read : (c.record (typeBody room) namespaces enclosing isTemplate).1 = .ok outcome) :
    ∃ decl, outcome = .definition decl ∧ decl.bases = is.flatMap (Base.Item.bases key) := by
  have adds : BodyReader.Adds (fun _ => True) c (typeBody room) :=
    adds_typeBody (fun _ _ => .inl fun _ _ => trivial) closed room
  have onward := (onward_advance c).trans (onward_recordHead isTemplate c.advance)
  have bases : Base.readAll key (ts ++ ⟨.mark .openBrace, s₂⟩ :: rest) = _ :=
    Base.readAll_clause clause s₂
  have colon : (c.advance.recordHead isTemplate).2.peek = .mark .colon := by rw [peek, head]; rfl
  have behind : (c.advance.recordHead isTemplate).2.rest.advance =
      ts ++ ⟨.mark .openBrace, s₂⟩ :: rest := by
    rw [head, Tokens.advance_cons (by simp)]
  have ahead : (c.advance.recordHead isTemplate).2.rest.Ahead (⟨.mark .openBrace, s₂⟩ :: rest) := by
    refine (Tokens.ahead_advance _).trans ?_
    rw [behind]
    exact (ahead_readAll bases).1
  simp only [record, keyed, colon, behind, bases] at read
  obtain ⟨decl, rfl⟩ := definition_of_recordBody read
  refine ⟨decl, rfl, ?_⟩
  exact (extends_recordBody adds (onward.trans (onward_goto ahead)) (Prod.ext read rfl)).bases

/-- A base with template arguments is recorded. Its spelling is read as its tokens again exactly where
none of the arguments is a word that spelling leaves out, and their tokens are separate; and in generated
code the base has the name that it would have without its arguments, with the spelling of these behind. -/
theorem record_spells_arguments (lexed : c.rest <:+ (Lexing.ofText c.source.text).tokens)
    (keyed : c.rest.word?.bind RecordKey.ofWord? = some key)
    (head : (c.advance.recordHead isTemplate).2.rest =
      ⟨.mark .colon, s₁⟩ :: (ts ++ ⟨.mark .openBrace, s₂⟩ :: rest))
    (clause : Base.Clause is ts) (t : Base.Template) (listed : t.toItem ∈ is) :
    ∃ base : Base,
      (∀ {room : Nat} {namespaces enclosing : List String} {outcome : RecordOutcome},
        (c.record (typeBody room) namespaces enclosing isTemplate).1 = .ok outcome →
          ∃ decl, outcome = .definition decl ∧ base ∈ decl.bases) ∧
      ((Lexing.ofText base.spelling).tokens.map Placed.token = t.own.map Placed.token ++ [.eof] ↔
        (t.arguments.map Placed.token).all (! ·.isNoise) = true ∧
          Separate (t.angled.map Placed.token) = true) ∧
      ∀ (table : SymbolTable) (scope : List String) (verdicts : Verdicts),
        SymbolTable.isBuiltin t.name = false →
        (∀ entry inner target, table.lookup t.name scope ≠ some (entry, .synonym inner target)) →
          (Base.link verdicts { base with resolved := table.resolveBase base.spelling scope }).name =
            Base.displayName { base with
              spelling := t.name, resolved := table.resolveBase t.name scope } ++ t.suffix := by
  have ahead : c.rest.Ahead (c.advance.recordHead isTemplate).2.rest :=
    ((onward_advance c).trans (onward_recordHead isTemplate c.advance)).ahead
  have inside : ∀ u ∈ t.own, u ∈ c.rest := fun u own => by
    have among : u ∈ ts := clause.subset _ listed u own
    exact ahead.suffix.subset (head ▸ List.mem_cons_of_mem _ (List.mem_append_left _ among))
  have genuine : ∀ token ∈ t.own.map Placed.token, token.Genuine := by
    intro token mem
    obtain ⟨u, own, rfl⟩ := List.mem_map.mp mem
    exact Token.genuine_of_mem (lexed.subset (inside u own)) (t.balanced_own.inside u own)
  have closed : c.rest.Closed := by
    obtain ⟨last, split, atEnd, -⟩ := Lexing.tokens_ofText c.source
    obtain ⟨before, whole⟩ := lexed
    have some : c.rest ≠ [] := by
      intro none
      rw [none] at keyed
      cases keyed
    have ends := congrArg List.getLast? whole
    rw [split, List.getLast?_append_of_ne_nil _ some, List.getLast?_concat] at ends
    exact ⟨last, ends, atEnd⟩
  -- that it is recorded, how its spelling is read, and what it is called in generated code
  refine ⟨t.base key, ?_, ?_, ?_⟩
  · intro room namespaces enclosing outcome read
    obtain ⟨decl, rfl, bases⟩ := bases_of_record closed keyed head clause read
    refine ⟨decl, rfl, ?_⟩
    rw [bases]
    exact List.mem_flatMap.mpr ⟨t.toItem, listed, by simp [t.bases_toItem]⟩
  · rw [Base.Template.base, Lexeme.map_token_ofText, List.append_left_inj, tokens_spell_iff genuine,
      t.plain_own, t.separate_own]
  · intro table scope verdicts declared noAlias
    rw [Base.name_link, Base.Template.base, t.spell_own]
    exact Base.displayName_append table t.isBareName t.isAngled declared noAlias _ _

def pairBase : Base.Template where
  words := [⟨.word "public", ⟨11, 17, 1, 12⟩⟩]
  path := [⟨.word "pair", ⟨18, 22, 1, 19⟩⟩]
  arguments := [⟨.word "int", ⟨23, 26, 1, 24⟩⟩, ⟨.mark .comma, ⟨26, 27, 1, 27⟩⟩,
    ⟨.number "2", ⟨28, 29, 1, 29⟩⟩]
  «open» := ⟨22, 23, 1, 23⟩
  close := ⟨29, 30, 1, 30⟩
  qualify := by decide
  isPath := ⟨⟨[], "pair", by decide, by decide⟩, .inl rfl⟩
  balanced := .token nofun rfl nofun (.token nofun rfl (fun _ => rfl) (.token nofun rfl nofun .nil))

theorem record_spells_arguments_pair :
    let c := (Header.start ⟨⟨"box.hpp"⟩, "struct D : public pair<int, 2> {};"⟩).cursor
    ∃ decl base, (c.record (typeBody 1) [] [] false).1 = .ok (.definition decl) ∧ base ∈ decl.bases ∧
      (Lexing.ofText base.spelling).tokens.map Placed.token =
        [.word "pair", .mark .less, .word "int", .mark .comma, .number "2", .mark .greater, .eof] := by
  intro c
  have keyed : c.rest.word?.bind RecordKey.ofWord? = some .struct := by decide +kernel
  have head : (c.advance.recordHead false).2.rest =
      ⟨.mark .colon, ⟨9, 10, 1, 10⟩⟩ :: (pairBase.toItem.tokens ++ ⟨.mark .openBrace, ⟨31, 32, 1, 32⟩⟩ ::
        [⟨.mark .closeBrace, ⟨32, 33, 1, 33⟩⟩, ⟨.mark .semicolon, ⟨33, 34, 1, 34⟩⟩,
          ⟨.eof, ⟨34, 34, 1, 35⟩⟩]) := by
    decide +kernel
  obtain ⟨base, recorded, again, -⟩ := record_spells_arguments (c := c) List.suffix_rfl keyed
    head (.last pairBase.toItem) pairBase (List.mem_singleton_self _)
  have some : (c.record (typeBody 1) [] [] false).1.toOption.isSome = true := by decide +kernel
  cases read : (c.record (typeBody 1) [] [] false).1 with
  | error => simp [read, Except.toOption] at some
  | ok outcome =>
    obtain ⟨decl, rfl, among⟩ := recorded read
    exact ⟨decl, base, rfl, among, again.mpr ⟨by decide, by decide +kernel⟩⟩

end Cursor

namespace Header

def basesOf (text : String) : List (String × List String) :=
  (read ⟨⟨"box.hpp"⟩, text⟩).root.types.map fun type => (type.name, type.bases.map Base.spelling)

/-- A word that spelling leaves out is missing from the arguments too, two tokens are put together to
another one, and a type whose base has a semicolon in braces is lost. -/
theorem read_alters_base :
    basesOf "struct D : B<const int> { };" = [("D", ["B<int>"])] ∧
      basesOf "struct D : B<m & & n> { };" = [("D", ["B<m&&n>"])] ∧
      basesOf "struct D : B<[] { m(); }> { };" = [] ∧
      (Lexing.ofText "B<int>").tokens.map Placed.token ≠
        [.word "B", .mark .less, .word "const", .word "int", .mark .greater, .eof] := by
  refine ⟨?_, ?_, ?_, ?_⟩ <;> decide +kernel

end Header

end HeaderMeta
