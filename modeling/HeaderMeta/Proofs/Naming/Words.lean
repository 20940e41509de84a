import HeaderMeta.Proofs.Comments.Lexemes
import HeaderMeta.Proofs.Progress.Members

/-! Declared names are words.

The words of a header consist of letters, digits and underscores. Reading moves ahead in the tokens of
the header and takes names from them, so every type has a scope of such words (`TypeDecl.Spelled`),
whatever the text.
-/

set_option autoImplicit false

namespace HeaderMeta

def IsWord (name : String) : Prop :=
  ∀ c ∈ name.toList, Lexeme.isWordPart c = true

theorem isWord_empty : IsWord "" := nofun

namespace Lexeme

theorem punctuationExtent_ne_word (c : Char) (cs : List Char) :
    (punctuationExtent c cs).1 ≠ .word := by
  unfold punctuationExtent
  split <;> first | (simp; done) | (split <;> simp)

theorem extent_eq_word {c : Char} {cs : List Char} {n : Nat} (word : extent c cs = (.word, n)) :
    isWordStart c = true ∧ n = lengthWhile isWordPart cs := by
  cases cuts_of_extent word with
  | word _ start => exact ⟨start, rfl⟩
  | char own => cases charCuts_of_charExtent own
  | punctuation _ _ _ own => exact absurd (congrArg Prod.fst own) (punctuationExtent_ne_word _ _)

theorem isWord_of_mem_cut {cs : List Char} {x : Lexeme} (mem : x ∈ cut cs) (word : x.kind = .word) :
    IsWord (String.ofList x.text) := by
  fun_induction cut cs with
  | case1 => cases mem
  | case2 c cs kind n extent ih =>
    rcases List.mem_cons.mp mem with rfl | later
    · cases word
      obtain ⟨first, rfl⟩ := extent_eq_word extent
      intro d inside
      rw [String.toList_ofList] at inside
      rcases List.mem_cons.mp inside with rfl | later
      · exact isWordPart_of_isWordStart first
      · have taken := List.prefix_iff_eq_take.mp (List.takeWhile_prefix isWordPart (l := cs))
        rw [lengthWhile, ← taken] at later
        exact List.mem_takeWhile_imp later
    · exact ih later

end Lexeme

namespace Tokens
variable {ts us : Tokens}

def Spelled (ts : Tokens) : Prop :=
  ∀ t ∈ ts, ∀ word, t.token = .word word → IsWord word

theorem Spelled.subset (spelled : ts.Spelled) (inside : us ⊆ ts) : us.Spelled :=
  fun t mem => spelled t (inside mem)

theorem spelled_place (p : Position) (xs : List Lexeme)
    (words : ∀ x ∈ xs, x.kind = .word → IsWord (String.ofList x.text)) :
    Spelled (Lexing.place p xs).tokens := by
  induction xs generalizing p with
  | nil =>
    intro t mem word here
    cases List.mem_singleton.mp mem
    cases here
  | cons x xs ih =>
    intro t mem word here
    rcases List.mem_append.mp mem with first | later
    · obtain ⟨token, read, rfl⟩ := Option.map_eq_some_iff.mp (Option.mem_toList.mp first)
      dsimp only at here
      subst here
      have kind : x.kind = .word ∧ String.ofList x.text = word := by
        unfold Lexing.tokenOf at read
        split at read <;> simp_all
      exact kind.2 ▸ words x List.mem_cons_self kind.1
    · exact ih _ (fun x mem => words x (List.mem_cons_of_mem _ mem)) t later word here

theorem spelled_ofText (text : String) : Spelled (Lexing.ofText text).tokens :=
  spelled_place _ _ fun _ => Lexeme.isWord_of_mem_cut

theorem isWord_nameParts (spelled : ts.Spelled) : ∀ part ∈ (nameParts ts).1, IsWord part := by
  have own {word : String} {span : Span} {rest : Tokens} (spelled : Spelled (⟨.word word, span⟩ :: rest)) :
      ∀ part ∈ (if word = "inline" then [] else [word]), IsWord part := by
    intro part mem
    split at mem
    · cases mem
    · exact List.mem_singleton.mp mem ▸ spelled _ List.mem_cons_self word rfl
  fun_induction nameParts ts with
  | case1 word span first span' next _ parts after read ih =>
    rw [read] at ih
    intro part mem
    rcases List.mem_append.mp mem with mem | mem
    · exact own spelled part mem
    · exact ih (spelled.subset fun t inside => by simp [inside]) part mem
  | case2 | case3 => exact own spelled
  | case4 => simp

theorem isWord_qualifiedName (spelled : ts.Spelled) : ∀ part ∈ ts.qualifiedName.1, IsWord part := by
  unfold qualifiedName
  split
  · exact isWord_nameParts (spelled.subset (ahead_advance ts).suffix.subset)
  · exact isWord_nameParts spelled

theorem body_subset_takeFrom (depth : Nat) {statement : Statement}
    (read : takeFrom depth ts = .ok statement) : statement.body ⊆ ts := by
  have keep {t : Placed} {rest : Tokens} {inner : Except Tokens Statement} {statement : Statement}
      (ih : ∀ {statement : Statement}, inner = .ok statement → statement.body ⊆ rest)
      (read : takeFrom.keep t inner = .ok statement) : statement.body ⊆ t :: rest := by
    cases inner with
    | error => cases read
    | ok own =>
      cases read
      exact List.cons_subset_cons t (ih rfl)
  fun_induction takeFrom depth ts generalizing statement with
  | case1 | case2 | case5 => cases read
  | case3 =>
    cases read
    exact List.nil_subset _
  | case4 _ _ _ _ _ ih | case6 _ _ _ _ _ ih => exact keep ih read
  | case7 _ _ _ _ ih | case8 _ _ _ _ ih | case9 _ _ _ _ ih | case10 _ _ _ _ ih
  | case11 _ _ _ _ ih => exact keep ih read
  | case12 _ _ _ _ _ _ _ _ _ _ _ ih => exact keep ih read

theorem Spelled.body (spelled : ts.Spelled) {statement : Statement}
    (read : ts.takeStatement = .ok statement) : statement.body.Spelled :=
  spelled.subset (body_subset_takeFrom 0 read)

end Tokens

namespace Declarator
variable {ts rest : Tokens}

theorem subset_splitFrom (c : DeclaratorPart.Cut) (ts : Tokens) :
    ∀ part ∈ DeclaratorPart.splitFrom c ts, part.tokens ⊆ c.current ++ ts := by
  fun_induction DeclaratorPart.splitFrom c ts with
  | case1 => exact nofun
  | case2 c =>
    intro part mem
    cases List.mem_singleton.mp mem
    simp [DeclaratorPart.Cut.part]
  | case3 c t ts outer ih =>
    intro part mem
    rcases List.mem_cons.mp mem with rfl | later
    · simp [DeclaratorPart.Cut.part]
    · intro u inside
      have := ih part later inside
      simp_all [DeclaratorPart.Cut.restart]
  | case4 c t ts inner ih =>
    intro part mem u inside
    have kept := ih part mem inside
    have noted : (c.note t.token).current = c.current := by
      unfold DeclaratorPart.Cut.note
      split <;> (try split) <;> rfl
    simp only [DeclaratorPart.Cut.keep, noted, List.mem_append] at kept
    split at kept <;> simp_all <;> tauto

theorem subset_beforeBracket? {inner : Nat} (read : beforeBracket? inner ts = some rest) :
    rest ⊆ ts := by
  fun_induction beforeBracket? inner ts with
  | case1 => cases read
  | case2 _ _ _ _ ih | case4 _ _ _ _ _ ih | case5 _ _ _ _ _ ih =>
    exact List.subset_cons_of_subset _ (ih read)
  | case3 =>
    cases read
    exact List.subset_cons_self _ _

theorem subset_dropBounds {array array' : Bool} (read : dropBounds array ts = some (rest, array')) :
    rest ⊆ ts := by
  fun_induction dropBounds array ts with
  | case1 _ span ts before found ih =>
    exact List.subset_cons_of_subset _ (List.Subset.trans (ih read) (subset_beforeBracket? found))
  | case2 => cases read
  | case3 =>
    cases read
    exact List.Subset.refl _

theorem name_dropMarks (d : Declarator) (ts : Tokens) : (dropMarks d ts).2.name = d.name := by
  fun_induction dropMarks d ts <;> simp_all

theorem isWord_ofTokens? (spelled : ts.Spelled) {bitfield : Bool} {type : List Token}
    {d : Declarator} (read : ofTokens? ts bitfield = some (type, d)) : IsWord d.name := by
  obtain ⟨⟨rest, array⟩, bounds, named⟩ := Option.bind_eq_some_iff.mp read
  dsimp only at named
  split at named
  next name span type' =>
    cases named
    rw [name_dropMarks]
    have mem := subset_dropBounds bounds List.mem_cons_self
    exact spelled _ (List.mem_reverse.mp mem) name rfl
  next => cases named

theorem isWord_of_split {statement : Tokens} (spelled : statement.Spelled) :
    ∀ d ∈ (DeclaratorPart.split statement).filterMap fun p =>
      (ofTokens? p.tokens false).map (·.2), IsWord d.name := by
  intro d mem
  obtain ⟨part, inside, named⟩ := List.mem_filterMap.mp mem
  obtain ⟨⟨type, d'⟩, read, rfl⟩ := Option.map_eq_some_iff.mp named
  have parts := subset_splitFrom {} statement part inside
  exact isWord_ofTokens? (spelled.subset (by simpa using parts)) read

end Declarator

inductive TypeDecl.Spelled : TypeDecl → Prop where
  | intro {d : TypeDecl} (scope : ∀ part ∈ d.scope, IsWord part)
      (nested : ∀ inner ∈ d.nested, inner.Spelled) : d.Spelled

section Types
variable {d e : TypeDecl}

theorem TypeDecl.Spelled.scope (spelled : d.Spelled) : ∀ part ∈ d.scope, IsWord part := by
  cases spelled
  assumption

theorem TypeDecl.Spelled.nested (spelled : d.Spelled) : ∀ inner ∈ d.nested, inner.Spelled := by
  cases spelled
  assumption

theorem TypeDecl.Spelled.congr (spelled : d.Spelled) (scope : e.scope = d.scope)
    (nested : e.nested = d.nested) : e.Spelled :=
  ⟨scope ▸ spelled.scope, nested ▸ spelled.nested⟩

theorem TypeDecl.Spelled.parentScope (spelled : d.Spelled) :
    ∀ part ∈ d.namespaces ++ d.enclosing, IsWord part :=
  fun part mem => spelled.scope part (List.mem_append_left _ mem)

end Types

structure Cursor.Sound (c : Cursor) : Prop where
  closed : c.rest.Closed
  spelled : c.rest.Spelled

def BodyReader.Names (body : BodyReader) : Prop :=
  ∀ decl (c : Cursor), c.Sound → decl.Spelled → (body decl c).1.1.Spelled

namespace Cursor
variable {c d : Cursor} {room : Nat} {body : BodyReader} {namespaces enclosing : List String}

theorem Onward.sound (onward : c.Onward d) (sound : c.Sound) : d.Sound :=
  ⟨onward.ahead.closed sound.closed, sound.spelled.subset onward.ahead.suffix.subset⟩

theorem isWord_recordHead (sound : c.Sound) (isTemplate : Bool) :
    IsWord (c.recordHead isTemplate).1.name := by
  have before := (onward_attributeSpecifiers c).trans (onward_decorators _)
  have parts := Tokens.isWord_qualifiedName (before.sound sound).spelled
  unfold recordHead
  dsimp only
  cases last : (c.attributeSpecifiers.2.decorators.2.rest.qualifiedName.1).getLast? with
  | none => exact isWord_empty
  | some name => exact parts name (List.mem_of_getLast? last)

theorem spelled_recordBody (names : body.Names) (sound : c.Sound) {start : Span} {decl decl' : TypeDecl}
    (spelled : decl.Spelled) (read : recordBody body start decl c = (.ok (.definition decl'), d)) :
    decl'.Spelled := by
  have inside := names decl c.advance ((onward_advance c).sound sound) spelled
  unfold recordBody at read
  split at read
  next => cases read
  next own e read' =>
    rw [read'] at inside
    split at read
    · cases read
      exact inside
    · cases read
      exact inside

theorem spelled_record (names : body.Names) (sound : c.Sound)
    (scope : ∀ part ∈ namespaces ++ enclosing, IsWord part) {isTemplate : Bool} {decl : TypeDecl}
    (read : c.record body namespaces enclosing isTemplate = (.ok (.definition decl), d)) :
    decl.Spelled := by
  have entered := (onward_advance c).sound sound
  have head := (onward_recordHead isTemplate c.advance).sound entered
  have named (part : String) (mem : part ∈ namespaces ++ enclosing ++
      [(c.advance.recordHead isTemplate).1.name]) : IsWord part := by
    rcases List.mem_append.mp mem with mem | mem
    · exact scope part mem
    · exact List.mem_singleton.mp mem ▸ isWord_recordHead entered isTemplate
  unfold record at read
  split at read
  next => cases read
  next key atKey =>
    dsimp only at read
    split at read
    next => split at read <;> cases read
    next =>
      refine spelled_recordBody names head ?_ read
      exact ⟨named, nofun⟩
    next =>
      split at read
      next bases rest readBases =>
        have after := (onward_advance _).ahead.trans (ahead_readAll readBases).1
        refine spelled_recordBody names ((onward_goto after).sound head) ?_ read
        exact ⟨named, nofun⟩
      next => cases read
    next => cases read

theorem spelled_recordAliases {scope : List String} {decl : TypeDecl} {statement : Tokens}
    (spelled : decl.Spelled) (words : statement.Spelled) :
    ∀ type ∈ (recordAliases scope decl statement).types, type.Spelled := by
  unfold recordAliases
  dsimp only
  split
  next => exact nofun
  next name named =>
    intro type mem
    cases List.mem_singleton.mp mem
    refine ⟨fun part mem => ?_, spelled.nested⟩
    rcases List.mem_append.mp mem with mem | mem
    · exact spelled.parentScope part mem
    · obtain rfl := List.mem_singleton.mp mem
      split at named
      · obtain ⟨d, found, rfl⟩ := Option.map_eq_some_iff.mp named
        exact Declarator.isWord_of_split words d (List.mem_of_find?_eq_some found)
      · cases named
        exact spelled.scope _ (by simp [TypeDecl.scope])

theorem spelled_typedef (steady : body.Steady room) (names : body.Names) (sound : c.Sound)
    (scope : ∀ part ∈ namespaces ++ enclosing, IsWord part) {outcome : TypedefOutcome}
    (read : c.typedef body namespaces enclosing = (.ok outcome, d)) :
    ∀ type ∈ outcome.types, type.Spelled := by
  have entered := (onward_advance c).sound sound
  have taken := taken_record steady entered.closed namespaces enclosing false
  unfold typedef at read
  dsimp only at read
  split at read
  next => cases read
  next decl e defined =>
    rw [defined] at taken
    have spelled := spelled_record names entered scope defined
    split at read
    next =>
      cases read
      exact nofun
    next statement ends =>
      cases read
      exact spelled_recordAliases spelled ((taken.toOnward.sound entered).spelled.body ends)
  next =>
    cases read
    unfold plainTypedef
    split
    · exact nofun
    · split <;> exact nofun

end Cursor

end HeaderMeta
