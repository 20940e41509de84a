import HeaderMeta.Proofs.Grammar.Records

/-! Members whose type has template arguments and whose name has an initialiser.

Three readers go over such a member, each with its own count of brackets and angles: one looks for a
parameter list, one for the semicolon, one for outer commas. `Balanced` says which tokens leave all
three counts where they were. In an initialiser no reader counts angles, so there a comma between
template arguments separates declarators.
-/

set_option autoImplicit false

namespace HeaderMeta

def DeclaratorPart.Cut.taking (c : Cut) (own : Tokens) (last : Bool) : Cut :=
  { c with current := own.reverse ++ c.current, afterWord := last }

namespace Grammar

open DeclaratorPart (Cut splitFrom)

section Balanced

inductive IsGroup : Mark → Mark → Prop where
  | parens : IsGroup .openParen .closeParen
  | brackets : IsGroup .openBracket .closeBracket
  | braces : IsGroup .openBrace .closeBrace

/-- A token outside the pairs: no bracket, no end of anything. Among template arguments an angle is
never plain and a comma always is; in an initialiser it is the other way around, a comma being
plain only where it is `enclosed`. -/
def isPlain (template enclosed : Bool) : Token → Bool
  | .eof => false
  | .word w => !template || w != "operator"
  | .mark .semicolon => enclosed
  | .mark .comma => template || enclosed
  | .mark .less | .mark .greater => !template
  | .mark .openParen | .mark .openBracket | .mark .openBrace => false
  | .mark .closeParen | .mark .closeBracket | .mark .closeBrace => false
  | _ => true

/-- Tokens in which groups and template angles are balanced. `enclosed` tells whether a group is open
around them, and `afterWord` whether a word stands before them: an angle opens template arguments
there and only there. -/
inductive Balanced (template : Bool) : (enclosed afterWord : Bool) → Tokens → Prop where
  | nil {enclosed afterWord : Bool} : Balanced template enclosed afterWord []
  | token {enclosed afterWord : Bool} {t : Placed} {ts : Tokens}
      (plain : isPlain template enclosed t.token = true)
      (more : Balanced template enclosed t.token.isWord ts) :
      Balanced template enclosed afterWord (t :: ts)
  | group {enclosed afterWord : Bool} {«open» close : Mark} {s₁ s₂ : Span} {inner ts : Tokens}
      (pair : IsGroup «open» close) (inside : Balanced template true false inner)
      (more : Balanced template enclosed false ts) :
      Balanced template enclosed afterWord
        (⟨.mark «open», s₁⟩ :: (inner ++ ⟨.mark close, s₂⟩ :: ts))
  | angles {enclosed : Bool} {s₁ s₂ : Span} {inner ts : Tokens} (among : template = true)
      (inside : Balanced template enclosed false inner)
      (more : Balanced template enclosed false ts) :
      Balanced template enclosed true (⟨.mark .less, s₁⟩ :: (inner ++ ⟨.mark .greater, s₂⟩ :: ts))
  | less {enclosed : Bool} {s : Span} {ts : Tokens} (among : template = true)
      (more : Balanced template enclosed false ts) :
      Balanced template enclosed false (⟨.mark .less, s⟩ :: ts)

variable {template enclosed afterWord : Bool} {own : Tokens}

/-- No semicolon ends a statement within balanced tokens. -/
theorem Balanced.takeFrom (balanced : Balanced template enclosed afterWord own) (depth : Nat)
    (inside : enclosed = true → 0 < depth) (tail : Tokens) :
    Tokens.takeFrom depth (own ++ tail) =
      (Tokens.takeFrom depth tail).map fun s => { s with body := own ++ s.body } := by
  induction balanced generalizing depth tail with
  | nil => cases found : Tokens.takeFrom depth tail <;> simp [Except.map, found]
  | @token enclosed afterWord t ts plain more ih =>
    have kept : Tokens.takeFrom depth (t :: (ts ++ tail)) =
        Tokens.takeFrom.keep t (Tokens.takeFrom depth (ts ++ tail)) := by
      rw [Tokens.takeFrom]
      split <;> simp_all [isPlain]
      omega
    rw [List.cons_append, kept, ih depth inside]
    cases Tokens.takeFrom depth tail <;> rfl
  | @group enclosed afterWord op close s₁ s₂ inner ts pair insideGroup more ihInner ih =>
    have opened := ihInner (depth + 1) (fun _ => Nat.succ_pos depth)
      (⟨.mark close, s₂⟩ :: (ts ++ tail))
    cases pair <;>
    · simp only [List.cons_append, List.append_assoc, Tokens.takeFrom, opened, Nat.add_sub_cancel,
        Nat.succ_ne_zero, if_false, ih depth inside]
      cases Tokens.takeFrom depth tail <;> simp [Except.map, Tokens.takeFrom.keep]
  | @angles enclosed s₁ s₂ inner ts among insideAngles more ihInner ih =>
    simp only [List.cons_append, List.append_assoc, Tokens.takeFrom, ihInner depth inside, ih depth inside]
    cases Tokens.takeFrom depth tail <;> simp [Except.map, Tokens.takeFrom.keep]
  | less among more ih =>
    simp only [List.cons_append, Tokens.takeFrom, ih depth inside]
    cases Tokens.takeFrom depth tail <;> rfl

theorem Balanced.declaresFunctionFrom (balanced : Balanced true enclosed afterWord own)
    {angles : Nat} (among : 0 < angles) (tail : Tokens)
    (none : ∀ last, Tokens.declaresFunctionFrom angles last tail = false) :
    Tokens.declaresFunctionFrom angles afterWord (own ++ tail) = false := by
  induction balanced generalizing angles tail with
  | nil => exact none _
  | @token enclosed afterWord t ts plain more ih =>
    have next := ih among tail none
    obtain ⟨token, span⟩ := t
    rw [List.cons_append, Tokens.declaresFunctionFrom]
    split <;> simp_all [isPlain, Token.isWord, Token.word?]
  | @group enclosed afterWord op close s₁ s₂ inner ts pair insideGroup more ihInner ih =>
    have behind := ih among tail none
    have opened := ihInner among (⟨.mark close, s₂⟩ :: (ts ++ tail)) fun last => by
      cases pair <;> simp [Tokens.declaresFunctionFrom, behind]
    cases pair <;> simp [Tokens.declaresFunctionFrom, opened, Nat.ne_of_gt among]
  | @angles enclosed s₁ s₂ inner ts _ insideAngles more ihInner ih =>
    have behind := ih among tail none
    have opened := ihInner (Nat.succ_pos angles) (⟨.mark .greater, s₂⟩ :: (ts ++ tail))
      fun last => by simpa [Tokens.declaresFunctionFrom] using behind
    simpa [Tokens.declaresFunctionFrom] using opened
  | less _ more ih => simpa [Tokens.declaresFunctionFrom] using ih among tail none

theorem splitFrom_step {c : Cut} {t : Placed} (stays : t.token = .mark .comma → c.isOuter = false)
    (ts : Tokens) : splitFrom c (t :: ts) = splitFrom ((c.note t.token).keep t) ts := by
  rw [splitFrom]
  split <;> simp_all

theorem splitFrom_inside {c : Cut} (inside : 0 < c.depth ∨ 0 < c.angles) (t : Placed) (ts : Tokens) :
    splitFrom c (t :: ts) = splitFrom ((c.note t.token).keep t) ts := by
  apply splitFrom_step
  intro
  simp only [Cut.isOuter, Bool.and_eq_false_iff, decide_eq_false_iff_not]
  omega

theorem note_among {c : Cut} {t : Token} (plain : isPlain true enclosed t = true)
    (among : 0 < c.angles) : c.note t = c := by
  have notOuter : c.isOuter = false := by simp [Cut.isOuter, Nat.ne_of_gt among]
  unfold Cut.note
  split <;> simp_all [isPlain]

theorem note_tail {c : Cut} {t : Token} (plain : isPlain false enclosed t = true)
    (dropped : c.inTail = true) : c.note t = c := by
  obtain ⟨current, bitfield, inTail, depth, angles, afterWord⟩ := c
  subst dropped
  unfold Cut.note
  split <;> simp_all [isPlain]

/-- Template arguments stay in the part that they stand in. -/
theorem Balanced.splitFrom_among (balanced : Balanced true enclosed afterWord own) {c : Cut}
    (among : 0 < c.angles) (noTail : c.inTail = false) (word : c.afterWord = afterWord) :
    ∃ last, ∀ tail, splitFrom c (own ++ tail) = splitFrom (c.taking own last) tail := by
  induction balanced generalizing c with
  | nil => exact ⟨c.afterWord, fun tail => rfl⟩
  | @token enclosed afterWord t ts plain more ih =>
    obtain ⟨last, cut⟩ := ih (c := c.taking [t] t.token.isWord) among noTail rfl
    refine ⟨last, fun tail => ?_⟩
    rw [List.cons_append, splitFrom_inside (.inr among), note_among plain among]
    simpa [Cut.keep, Cut.taking, noTail] using cut tail
  | @group enclosed afterWord op close s₁ s₂ inner ts pair insideGroup more ihInner ih =>
    -- inside the group the depth is one more, and behind it the part goes on as before
    obtain ⟨_, cutInner⟩ := ihInner
      (c := { c.taking [⟨.mark op, s₁⟩] false with depth := c.depth + 1 }) among noTail rfl
    obtain ⟨last, cut⟩ := ih
      (c := c.taking (⟨.mark op, s₁⟩ :: (inner ++ [⟨.mark close, s₂⟩])) false) among noTail rfl
    refine ⟨last, fun tail => ?_⟩
    have opened : (c.note (.mark op)).keep ⟨.mark op, s₁⟩ =
        { c.taking [⟨.mark op, s₁⟩] false with depth := c.depth + 1 } := by
      cases pair <;> simp [Cut.note, Cut.keep, Cut.taking, Cut.isOuter, noTail, Nat.ne_of_gt among,
        Token.isWord, Token.word?]
    rw [List.cons_append, List.append_assoc, splitFrom_inside (.inr among), opened, cutInner,
      List.cons_append, splitFrom_inside]
    · cases pair <;>
        simpa [Cut.note, Cut.keep, Cut.taking, noTail, Token.isWord, Token.word?] using cut tail
    · exact .inr among
  | @angles enclosed s₁ s₂ inner ts _ insideAngles more ihInner ih =>
    obtain ⟨_, cutInner⟩ := ihInner
      (c := { c.taking [⟨.mark .less, s₁⟩] false with angles := c.angles + 1 }) (Nat.succ_pos _)
      noTail rfl
    obtain ⟨last, cut⟩ := ih
      (c := c.taking (⟨.mark .less, s₁⟩ :: (inner ++ [⟨.mark .greater, s₂⟩])) false) among noTail rfl
    refine ⟨last, fun tail => ?_⟩
    have opened : (c.note (.mark .less)).keep ⟨.mark .less, s₁⟩ =
        { c.taking [⟨.mark .less, s₁⟩] false with angles := c.angles + 1 } := by
      simp [Cut.note, Cut.keep, Cut.taking, noTail, word, Token.isWord, Token.word?]
    rw [List.cons_append, List.append_assoc, splitFrom_inside (.inr among), opened, cutInner,
      List.cons_append, splitFrom_inside]
    · simpa [Cut.note, Cut.keep, Cut.taking, noTail, Token.isWord, Token.word?] using cut tail
    · exact .inr (Nat.succ_pos _)
  | @less enclosed s ts _ more ih =>
    obtain ⟨last, cut⟩ := ih (c := c.taking [⟨.mark .less, s⟩] false) among noTail rfl
    refine ⟨last, fun tail => ?_⟩
    rw [List.cons_append, splitFrom_inside (.inr among)]
    simpa [Cut.note, Cut.keep, Cut.taking, noTail, word, Token.isWord, Token.word?] using cut tail

/-- Nothing of an initialiser is kept, and no comma of it is an outer one. -/
theorem Balanced.splitFrom_tail (balanced : Balanced false enclosed afterWord own) {c : Cut}
    (noAngles : c.angles = 0) (dropped : c.inTail = true) (inside : enclosed = true → 0 < c.depth) :
    ∃ last, ∀ tail, splitFrom c (own ++ tail) = splitFrom { c with afterWord := last } tail := by
  induction balanced generalizing c with
  | nil => exact ⟨c.afterWord, fun tail => rfl⟩
  | @token enclosed afterWord t ts plain more ih =>
    obtain ⟨last, cut⟩ := ih (c := { c with afterWord := t.token.isWord }) noAngles dropped inside
    refine ⟨last, fun tail => ?_⟩
    rw [List.cons_append, splitFrom_step, note_tail plain dropped]
    · simpa [Cut.keep, dropped] using cut tail
    · intro comma
      have : 0 < c.depth := inside (by simpa [isPlain, comma] using plain)
      simp [Cut.isOuter, Nat.ne_of_gt this]
  | @group enclosed afterWord op close s₁ s₂ inner ts pair insideGroup more ihInner ih =>
    obtain ⟨_, cutInner⟩ := ihInner (c := { c with afterWord := false, depth := c.depth + 1 }) noAngles
      dropped fun _ => Nat.succ_pos _
    obtain ⟨last, cut⟩ := ih (c := { c with afterWord := false }) noAngles dropped inside
    refine ⟨last, fun tail => ?_⟩
    have opened : (c.note (.mark op)).keep ⟨.mark op, s₁⟩ =
        { c with afterWord := false, depth := c.depth + 1 } := by
      cases pair <;> simp [Cut.note, Cut.keep, dropped, Token.isWord, Token.word?]
    rw [List.cons_append, List.append_assoc, splitFrom_step, opened, cutInner, List.cons_append,
      splitFrom_inside]
    · cases pair <;> simpa [Cut.note, Cut.keep, dropped, Token.isWord, Token.word?] using cut tail
    · exact .inl (Nat.succ_pos _)
    · cases pair <;> simp
  | angles among => cases among
  | less among => cases among

end Balanced

section Forms

def IsPath (own : Tokens) : Prop :=
  ∃ n : ScopedName, own.map Placed.token = n.tokens ∨
    own.map Placed.token = .mark .colonColon :: n.tokens

inductive IsFieldType : Tokens → Prop where
  | path {own : Tokens} (path : IsPath own) : IsFieldType own
  | template {own arguments : Tokens} {s₁ s₂ : Span} (path : IsPath own)
      (balanced : Balanced true false false arguments) :
      IsFieldType (own ++ ⟨.mark .less, s₁⟩ :: (arguments ++ [⟨.mark .greater, s₂⟩]))

inductive IsFieldTail : Tokens → Prop where
  | none : IsFieldTail []
  | value {s : Span} {init : Tokens} (balanced : Balanced false false false init) :
      IsFieldTail (⟨.mark .equal, s⟩ :: init)
  | braces {s₁ s₂ : Span} {init : Tokens} (balanced : Balanced false true false init) :
      IsFieldTail (⟨.mark .openBrace, s₁⟩ :: (init ++ [⟨.mark .closeBrace, s₂⟩]))

variable {own type tail : Tokens}

theorem IsPath.named (path : IsPath own) : ∀ t ∈ own, IsNameToken t.token := by
  obtain ⟨n, spelled | spelled⟩ := path
  · exact n.forall_isNameToken spelled
  · intro t mem
    have among : t.token ∈ own.map Placed.token := List.mem_map_of_mem mem
    rw [spelled, List.mem_cons] at among
    exact among.elim .inl n.isNameToken

theorem IsPath.eq_append (path : IsPath own) :
    ∃ (pre : Tokens) (last : Name) (s : Span), own = pre ++ [⟨.word last.text, s⟩] := by
  obtain ⟨n, spelled⟩ := path
  obtain ⟨start, ends⟩ : ∃ start, own.map Placed.token = start ++ [.word n.last.text] := by
    rcases spelled with spelled | spelled
    · exact ⟨_, spelled⟩
    · exact ⟨.mark .colonColon :: _, spelled⟩
  obtain ⟨pre, last, rfl, -, lastSpelled⟩ := List.map_eq_append_iff.mp ends
  obtain ⟨⟨token, s⟩, rfl, rfl⟩ := List.map_eq_singleton_iff.mp lastSpelled
  exact ⟨pre, n.last, s, rfl⟩

section Types

theorem declaresFunctionFrom_names {own tail : Tokens} (named : ∀ t ∈ own, IsNameToken t.token)
    (none : ∀ last, Tokens.declaresFunctionFrom 0 last tail = false) (afterWord : Bool) :
    Tokens.declaresFunctionFrom 0 afterWord (own ++ tail) = false := by
  induction own generalizing afterWord with
  | nil => exact none afterWord
  | cons t own ih =>
    obtain ⟨first, others⟩ := List.forall_mem_cons.mp named
    obtain ⟨token, span⟩ := t
    rcases first with rfl | ⟨n, rfl⟩
    · simp [Tokens.declaresFunctionFrom, ih others]
    · simp [Tokens.declaresFunctionFrom, ih others, n.ne (w := "operator") (by decide)]

/-- A field's type is passed by all who look for the end of it. -/
theorem IsFieldType.passed (typed : IsFieldType type) : Passed type := by
  cases typed with
  | path path => exact .names path.named
  | @template own arguments s₁ s₂ path balanced =>
    intro tail
    have behind := balanced.takeFrom 0 (by simp) (⟨.mark .greater, s₂⟩ :: tail)
    rw [List.append_assoc, Passed.names path.named]
    simp only [List.cons_append, List.append_assoc, Tokens.takeFrom, List.nil_append, behind]
    cases Tokens.takeFrom 0 tail <;> simp [Except.map, Tokens.takeFrom.keep]

theorem IsFieldType.declaresFunction (typed : IsFieldType type) (name : Name) (span : Span)
    (none : Tokens.declaresFunctionFrom 0 true tail = false) :
    Tokens.declaresFunction (type ++ ⟨.word name.text, span⟩ :: tail) = false := by
  have atName (last : Bool) :
      Tokens.declaresFunctionFrom 0 last (⟨.word name.text, span⟩ :: tail) = false := by
    simp [Tokens.declaresFunctionFrom, none, name.ne (w := "operator") (by decide)]
  cases typed with
  | path path => exact declaresFunctionFrom_names path.named atName false
  | @template own arguments s₁ s₂ path balanced =>
    obtain ⟨pre, last, s, rfl⟩ := path.eq_append
    have named := (List.forall_mem_append.mp path.named).1
    have behind := balanced.declaresFunctionFrom Nat.one_pos
      (⟨.mark .greater, s₂⟩ :: ⟨.word name.text, span⟩ :: tail)
      fun _ => by simpa [Tokens.declaresFunctionFrom] using atName false
    rw [Tokens.declaresFunction, List.append_assoc, List.append_assoc]
    apply declaresFunctionFrom_names named
    intro
    simpa [Tokens.declaresFunctionFrom, last.ne (w := "operator") (by decide)] using behind

theorem IsFieldType.splitFrom (typed : IsFieldType type) :
    ∃ last, ∀ tail, splitFrom {} (type ++ tail) = splitFrom (Cut.taking {} type last) tail := by
  cases typed with
  | path path =>
    obtain ⟨last, cut⟩ := splitFrom_names path.named [] false
    exact ⟨last, cut⟩
  | @template own arguments s₁ s₂ path balanced =>
    obtain ⟨pre, name, s, rfl⟩ := path.eq_append
    obtain ⟨before, cutPath⟩ := splitFrom_names (List.forall_mem_append.mp path.named).1 [] false
    let inside : Cut :=
      { Cut.taking {} (pre ++ [⟨.word name.text, s⟩, ⟨.mark .less, s₁⟩]) false with angles := 1 }
    obtain ⟨last, cutArguments⟩ := balanced.splitFrom_among (c := inside) Nat.one_pos rfl rfl
    have opened (us : Tokens) : splitFrom { current := pre.reverse ++ [], afterWord := before }
        (⟨.word name.text, s⟩ :: ⟨.mark .less, s₁⟩ :: us) = splitFrom inside us := by
      simp [splitFrom, Cut.note, Cut.keep, Cut.taking, Token.isWord, Token.word?, inside]
    refine ⟨false, fun tail => ?_⟩
    simp only [List.append_assoc, List.cons_append, List.nil_append, cutPath, opened, cutArguments]
    simp [splitFrom, Cut.note, Cut.keep, Cut.taking, Token.isWord, Token.word?, inside]

theorem IsFieldType.dropMarks (typed : IsFieldType type) (d : Declarator) :
    Declarator.dropMarks d type.reverse = (type.reverse, d) := by
  cases typed with
  | path path =>
    obtain ⟨pre, last, s, rfl⟩ := path.eq_append
    exact dropMarks_typeEnd (.inr ⟨pre, last, s, rfl⟩) d
  | template path balanced => simp [Declarator.dropMarks, Token.isQualifier]

theorem IsFieldType.head (typed : IsFieldType type) :
    ∃ t more, type = t :: more ∧ IsNameToken t.token ∧
      ∀ (u : Placed) tail, u.token ≠ .mark .openParen →
        Tokens.peek (more ++ u :: tail) ≠ .mark .openParen := by
  have ofPath {own : Tokens} (path : IsPath own) :
      ∃ t more, own = t :: more ∧ IsNameToken t.token ∧ ∀ t ∈ more, IsNameToken t.token := by
    have named := path.named
    cases own with
    | nil =>
      obtain ⟨pre, last, s, empty⟩ := path.eq_append
      simp at empty
    | cons t more => exact ⟨t, more, rfl, List.forall_mem_cons.mp named⟩
  have next {more : Tokens} (named : ∀ t ∈ more, IsNameToken t.token) (u : Placed) (tail : Tokens)
      (noParen : u.token ≠ .mark .openParen) : Tokens.peek (more ++ u :: tail) ≠ .mark .openParen := by
    cases more with
    | nil => exact noParen
    | cons t more => exact (named t List.mem_cons_self).isMild.1
  cases typed with
  | path path =>
    obtain ⟨t, more, rfl, first, others⟩ := ofPath path
    exact ⟨t, more, rfl, first, next others⟩
  | template path balanced =>
    obtain ⟨t, more, rfl, first, others⟩ := ofPath path
    refine ⟨t, more ++ _, rfl, first, fun u tail _ => ?_⟩
    rw [List.append_assoc]
    exact next others _ _ (by simp)

theorem spell_ne_empty {t : Token} (named : IsNameToken t) (ts : List Token) : spell (t :: ts) ≠ "" := by
  have visible : t.spelling ≠ "" := by
    rcases named with rfl | ⟨n, rfl⟩
    · decide
    · exact n.text_ne_empty
  simp [spell, named.not_noise, spellAfter, String.append_eq_empty_iff, visible]

end Types

section Tails

theorem IsFieldTail.passed (ended : IsFieldTail tail) : Passed tail := by
  cases ended with
  | none => exact Passed.names (by simp)
  | value balanced =>
    intro more
    simp only [List.cons_append, Tokens.takeFrom, balanced.takeFrom 0 (by simp) more]
    cases Tokens.takeFrom 0 more <;> rfl
  | @braces s₁ s₂ init balanced =>
    intro more
    have behind := balanced.takeFrom 1 (fun _ => Nat.one_pos)
      (⟨.mark .closeBrace, s₂⟩ :: more)
    simp only [List.cons_append, List.append_assoc, List.nil_append, Tokens.takeFrom, behind]
    cases Tokens.takeFrom 0 more <;> simp [Except.map, Tokens.takeFrom.keep]

theorem IsFieldTail.declaresFunctionFrom (ended : IsFieldTail tail) (s : Span) (rest : Tokens) :
    Tokens.declaresFunctionFrom 0 true (tail ++ ⟨.mark .semicolon, s⟩ :: rest) = false := by
  cases ended <;> simp [Tokens.declaresFunctionFrom]

theorem IsFieldTail.splitFrom (ended : IsFieldTail tail) {c : Cut} (outer : c.isOuter = true)
    (some : c.current ≠ []) : splitFrom c tail = [c.part] := by
  obtain ⟨depth, angles⟩ : c.depth = 0 ∧ c.angles = 0 := by simpa [Cut.isOuter] using outer
  cases ended with
  | none => simp [DeclaratorPart.splitFrom, some]
  | @value s init balanced =>
    obtain ⟨last, cut⟩ := balanced.splitFrom_tail (c := { c with inTail := true, afterWord := false })
      angles rfl (by simp)
    have dropped := cut []
    simpa [DeclaratorPart.splitFrom, Cut.note, Cut.keep, outer, some, Token.isWord, Token.word?,
      Cut.part] using dropped
  | @braces s₁ s₂ init balanced =>
    obtain ⟨last, cut⟩ := balanced.splitFrom_tail
      (c := { c with inTail := true, afterWord := false, depth := c.depth + 1 })
      angles rfl (fun _ => Nat.succ_pos _)
    have dropped := cut [⟨.mark .closeBrace, s₂⟩]
    simpa [DeclaratorPart.splitFrom, Cut.note, Cut.keep, outer, some, Token.isWord, Token.word?,
      Cut.part] using dropped

end Tails

/-- A member of this form falls into a single part, its type and its name. -/
theorem split_field (typed : IsFieldType type) (ended : IsFieldTail tail) (name : Name) (span : Span) :
    DeclaratorPart.split (type ++ ⟨.word name.text, span⟩ :: tail) =
      [⟨type ++ [⟨.word name.text, span⟩], false⟩] := by
  obtain ⟨last, cut⟩ := typed.splitFrom
  have named : splitFrom (Cut.taking {} type last) (⟨.word name.text, span⟩ :: tail) =
      splitFrom (Cut.taking {} (type ++ [⟨.word name.text, span⟩]) true) tail := by
    simp [splitFrom, Cut.note, Cut.keep, Cut.taking, Token.isWord, Token.word?]
  rw [DeclaratorPart.split, cut, named, ended.splitFrom rfl (by simp [Cut.taking])]
  simp [Cut.part, Cut.taking]

theorem ofPart?_field (typed : IsFieldType type) (name : Name) (span : Span) :
    Declarator.ofPart? ⟨type ++ [⟨.word name.text, span⟩], false⟩ =
      some (type.map Placed.token, { name := name.text, span }) := by
  simp [Declarator.ofPart?, Declarator.ofTokens?, Declarator.dropBounds, typed.dropMarks]

section Rounds
variable {s : MemberState}

theorem member_field (typed : IsFieldType type) (ended : IsFieldTail tail) {name : Name}
    {span stop : Span} {rest : Tokens}
    (tokens : s.cursor.rest =
      type ++ ⟨.word name.text, span⟩ :: (tail ++ ⟨.mark .semicolon, stop⟩ :: rest)) :
    s.member = (s.goto rest).addField
      { name := name.text, type := { spelling := spell (type.map Placed.token), kind := .unresolved }
        visibility := s.access, attributes := [], span } := by
  obtain ⟨t, more, rfl, first, -⟩ := typed.head
  have noFunction := typed.declaresFunction name span (ended.declaresFunctionFrom stop rest)
  have named : Passed [⟨.word name.text, span⟩] := .names (by simpa using .inr ⟨name, rfl⟩)
  have taken := ((typed.passed.append named).append ended.passed).takeStatement stop rest
  have cut := split_field typed ended name span
  have read := ofPart?_field typed name span
  have spelled : spell (t.token :: more.map Placed.token) ≠ "" := spell_ne_empty first _
  obtain ⟨token, place⟩ := t
  -- the first token of the type is a word or `::`, so no other kind of member begins here
  have specifiers : s.cursor.attributeSpecifiers = ([], s.cursor) := by
    rcases first with rfl | ⟨n, rfl⟩
    · exact attributeSpecifiers_none (by simp [tokens, Tokens.atAttributes])
        (by simp [tokens, Cursor.atSpecifier, Tokens.word?, Token.word?])
    · exact attributeSpecifiers_none (by simp [tokens, Tokens.atAttributes])
        (by rw [tokens]; exact n.not_atSpecifier place _)
  have notStart : Option.any MemberState.nonFieldStarts.contains token.word? = false := by
    rcases first with rfl | ⟨n, rfl⟩
    · rfl
    · exact n.not_nonFieldStart
  have notTilde : token ≠ .mark .tilde := by
    rcases first with rfl | ⟨n, rfl⟩ <;> simp
  simp only [List.append_assoc, List.cons_append, List.nil_append] at noFunction taken cut read tokens
  simp only [MemberState.member, specifiers, tokens]
  simp [notStart, notTilde, noFunction, taken, cut, Tokens.word?, MemberState.addParts, read, spelled,
    MemberState.goto, MemberState.addField, Declarator.kind]

/-- A member of this form adds its field and nothing else. -/
theorem round_declares_field (typed : IsFieldType type) (ended : IsFieldTail tail) (name : Name)
    (span stop : Span) (rest : Tokens) (s : MemberState) (body : BodyReader)
    (tokens : s.cursor.rest =
      type ++ ⟨.word name.text, span⟩ :: (tail ++ ⟨.mark .semicolon, stop⟩ :: rest)) :
    s.round body = .again ((s.goto rest).addField
      { name := name.text, type := { spelling := spell (type.map Placed.token), kind := .unresolved }
        visibility := s.access, attributes := [], span }) := by
  have started : s.round body = .again s.member := by
    obtain ⟨⟨token, place⟩, more, rfl, first, noParen⟩ := typed.head
    rcases first with colons | ⟨n, word⟩
    · obtain rfl : token = .mark .colonColon := colons
      simp [MemberState.round, Cursor.peek, tokens]
    · obtain rfl : token = .word n.text := word
      exact round_name tokens (noParen _ _ (by simp)) body
  rw [started, member_field typed ended tokens]

/-- `map<int, list<int>> m = f(1, a < b);` in a private part: the type, and what follows the name. -/
def mapType : Tokens :=
  [.word "map", .mark .less, .word "int", .mark .comma, .word "list", .mark .less, .word "int",
    .mark .greater, .mark .greater].map (⟨·, {}⟩)

def callTail : Tokens :=
  [.mark .equal, .word "f", .mark .openParen, .number "1", .mark .comma, .word "a", .mark .less,
    .word "b", .mark .closeParen].map (⟨·, {}⟩)

theorem isFieldType_mapType : IsFieldType mapType := by
  have path : IsPath [⟨.word "map", {}⟩] := ⟨⟨[], "map", by decide, by decide⟩, .inl rfl⟩
  have inner : Balanced true false false [⟨.word "int", {}⟩] := .token rfl .nil
  have listed : Balanced true false true
      (⟨.mark .less, {}⟩ :: ([⟨.word "int", {}⟩] ++ [⟨.mark .greater, {}⟩])) := .angles rfl inner .nil
  have arguments : Balanced true false false
      ([.word "int", .mark .comma, .word "list", .mark .less, .word "int", .mark .greater].map
        (⟨·, {}⟩)) := .token rfl (.token rfl (.token rfl listed))
  exact .template path arguments

theorem isFieldTail_callTail : IsFieldTail callTail := by
  have arguments : Balanced false true false
      ([.number "1", .mark .comma, .word "a", .mark .less, .word "b"].map (⟨·, {}⟩)) :=
    .token rfl (.token rfl (.token rfl (.token rfl (.token rfl .nil))))
  exact .value (.token rfl (.group .parens arguments .nil))

theorem round_declares_field_map :
    let record : TypeDecl := { name := "A", key := .struct, path := ⟨"a.hpp"⟩ }
    let rest : Tokens := [⟨.mark .closeBrace, {}⟩, ⟨.eof, {}⟩]
    let s : MemberState :=
      ⟨record, .priv, ⟨⟨⟨"a.hpp"⟩, ""⟩,
        mapType ++ ⟨.word "m", {}⟩ :: (callTail ++ ⟨.mark .semicolon, {}⟩ :: rest), []⟩⟩
    IsFieldType mapType ∧ IsFieldTail callTail ∧
      s.round (typeBody 0) = .again ((s.goto rest).addField
        { name := "m", type := { spelling := "map<int,list<int>>" }, visibility := .priv }) := by
  intro record rest s
  have read := round_declares_field isFieldType_mapType isFieldTail_callTail
    ⟨"m", by decide, by decide⟩ {} {} rest s (typeBody 0) rfl
  have spelled : spell (mapType.map Placed.token) = "map<int,list<int>>" := by decide
  rw [spelled] at read
  exact ⟨isFieldType_mapType, isFieldTail_callTail, read⟩

end Rounds

end Forms

end Grammar

namespace Header

def tracedMember : Source :=
  ⟨⟨"traits.hpp"⟩, "struct A { bool x = is_same<int, U>::value; };"⟩

/-- The comma between template arguments of an initialiser starts another field: the member declares
`x` alone, and the reader finds `value` as well. -/
theorem read_invents_field :
    (read tracedMember).root.types.map (fun type => type.fields.map (·.name)) = [["x", "value"]] := by
  decide +kernel

end Header

end HeaderMeta
