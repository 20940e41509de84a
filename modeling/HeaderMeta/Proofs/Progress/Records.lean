import HeaderMeta.Header.Members
import HeaderMeta.Proofs.Progress.Tokens

/-! Reading the parts of a record only moves ahead.

A definition, a typedef and every round of a member list either move on by a token or stop at a limit
that is due. A record key that introduces something else takes the reader back to the key itself, and
the member that starts there is read instead.
-/

set_option autoImplicit false

namespace HeaderMeta

namespace Tokens

def opens (ts : Tokens) : Nat :=
  ts.countP fun t => t.token = .mark .openBrace

theorem Ahead.opens_le {ts us : Tokens} (ahead : Ahead ts us) : us.opens ≤ ts.opens :=
  ahead.suffix.sublist.countP_le

theorem Closed.opens_advance {ts : Tokens} (closed : ts.Closed)
    (atBrace : ts.peek = .mark .openBrace) : ts.advance.opens + 1 = ts.opens := by
  match ts with
  | [] => simp [peek, peekAt] at atBrace
  | [t] => exact absurd rfl (closed.tail (by simp_all)).ne_nil
  | t :: u :: us =>
    have brace : t.token = .mark .openBrace := atBrace
    simp [advance, opens, List.countP_cons, brace]

theorem inside_of_word {ts : Tokens} {word : String} (here : ts.peek = .word word) : ts.Inside := by
  constructor <;> simp [here]

theorem inside_of_mark {ts : Tokens} {m : Mark} (here : ts.peek = .mark m)
    (other : m ≠ .closeBrace) : ts.Inside := by
  constructor <;> simp [here, other]

theorem inside_of_key {ts : Tokens} {key : RecordKey}
    (atKey : ts.word?.bind RecordKey.ofWord? = some key) : ts.Inside := by
  obtain ⟨word, here, -⟩ := Option.bind_eq_some_iff.mp atKey
  unfold word? at here
  cases next : ts.peek with
  | word text => exact inside_of_word next
  | _ => simp [next, Token.word?] at here

end Tokens

def loopNames : List String :=
  ["file", "declarations", "member list"]

def bodyNames : List String :=
  ["namespace", "linkage block", "type body"]

/-- Why reading `ts` may end at `us`: a loop ran out of rounds, which takes as many tokens, or `room`
bodies were opened on the way and the next one is one too many. No loop stands still. -/
def Limit.Due (room : Nat) (ts us : Tokens) : Limit → Prop
  | .iterations loop limit =>
    loop ∈ loopNames ∧ limit = maxIterations ∧ limit < ts.length
  | .stalled _ => False
  | .depth body =>
    body ∈ bodyNames ∧ room + us.opens ≤ ts.opens

theorem Limit.Due.earlier {room more : Nat} {ts us vs : Tokens} {limit : Limit}
    (due : limit.Due room us vs) (ahead : ts.Ahead us) (opened : us.opens + more ≤ ts.opens) :
    limit.Due (room + more) ts vs := by
  cases limit with
  | iterations loop limit =>
    obtain ⟨loop, same, many⟩ := due
    exact ⟨loop, same, Nat.lt_of_lt_of_le many ahead.length_le⟩
  | stalled loop => exact due.elim
  | depth body => exact ⟨due.1, by have := due.2; omega⟩

theorem Limit.Due.of_ahead {room : Nat} {ts us vs : Tokens} {limit : Limit}
    (due : limit.Due room us vs) (ahead : ts.Ahead us) : limit.Due room ts vs := by
  have moved : limit.Due (room + 0) ts vs := due.earlier ahead ahead.opens_le
  exact moved

namespace Cursor
variable {c d e : Cursor}

structure Onward (c d : Cursor) : Prop where
  source : d.source = c.source
  ahead : c.rest.Ahead d.rest

theorem Onward.refl (c : Cursor) : Onward c c :=
  ⟨rfl, .refl _⟩

theorem Onward.trans (first : Onward c d) (second : Onward d e) : Onward c e :=
  ⟨second.source.trans first.source, first.ahead.trans second.ahead⟩

theorem Onward.onlyIf (moved : Onward c d) (p : Prop) [Decidable p] :
    Onward c (if p then d else c) := by
  split
  · exact moved
  · exact .refl c

theorem onward_goto {ts : Tokens} (ahead : c.rest.Ahead ts) : c.Onward (c.goto ts) :=
  ⟨rfl, ahead⟩

theorem onward_advance (c : Cursor) : c.Onward c.advance :=
  onward_goto (Tokens.ahead_advance c.rest)

theorem onward_skipDeclaration (c : Cursor) : c.Onward c.skipDeclaration :=
  onward_goto (Tokens.ahead_skipDeclaration c.rest)

theorem onward_eat (c : Cursor) (m : Mark) : c.Onward (c.eat m).2 :=
  onward_goto (Tokens.ahead_eat c.rest m)

theorem onward_report (c : Cursor) (severity : Severity) (message : String) (span : Span) :
    c.Onward (c.report severity message span) :=
  ⟨rfl, .refl _⟩

theorem onward_finishDeclaration (c : Cursor) : c.Onward c.finishDeclaration := by
  unfold finishDeclaration
  have eaten := onward_eat c .semicolon
  split
  next after read =>
    rw [read] at eaten
    exact eaten
  next after read =>
    rw [read] at eaten
    exact eaten.trans (onward_skipDeclaration after)

structure Gains (c d : Cursor) : Prop extends Onward c d where
  shorter : d.rest.length < c.rest.length

structure Stays (c d : Cursor) : Prop where
  source : d.source = c.source
  rest : d.rest = c.rest

theorem Gains.onward (first : Gains c d) (second : Onward d e) : Gains c e :=
  ⟨first.toOnward.trans second, Nat.lt_of_le_of_lt second.ahead.length_le first.shorter⟩

theorem Onward.gains (first : Onward c d) (second : Gains d e) : Gains c e :=
  ⟨first.trans second.toOnward, Nat.lt_of_lt_of_le second.shorter first.ahead.length_le⟩

theorem Gains.goto {ts : Tokens} (gained : Gains c d) (ahead : d.rest.Ahead ts) :
    Gains c (c.goto ts) :=
  ⟨onward_goto (gained.ahead.trans ahead), Nat.lt_of_le_of_lt ahead.length_le gained.shorter⟩

theorem Stays.onward (same : Stays c d) : Onward c d :=
  ⟨same.source, same.rest ▸ .refl _⟩

/-- A reader that has moved ahead has gained or stands where it stood. -/
theorem Onward.gains_or_stays (moved : Onward c d) : Gains c d ∨ Stays c d := by
  rcases Nat.lt_or_ge d.rest.length c.rest.length with shorter | long
  · exact .inl ⟨moved, shorter⟩
  · exact .inr ⟨moved.source, moved.ahead.suffix.eq_of_length_le long⟩

theorem gains_advance (closed : c.rest.Closed) (inside : c.rest.peek ≠ .eof) : c.Gains c.advance :=
  ⟨onward_advance c, closed.length_advance_lt inside⟩

theorem gains_skipDeclaration (inside : c.rest.Inside) : c.Gains c.skipDeclaration :=
  ⟨onward_skipDeclaration c, Tokens.length_skipDeclaration_lt inside⟩

theorem gains_finishDeclaration (closed : c.rest.Closed) (inside : c.rest.Inside) :
    c.Gains c.finishDeclaration := by
  unfold finishDeclaration eat Tokens.eat
  by_cases here : c.rest.atMark .semicolon = true
  · simp only [if_pos here]
    exact gains_advance closed inside.1
  · simp only [if_neg here]
    exact gains_skipDeclaration inside

section Attributes

theorem ahead_arguments (source : Source) (ts : Tokens) : ts.Ahead (arguments source ts).2 := by
  unfold arguments
  split
  · exact Tokens.ahead_skipGroup ts
  · exact .refl ts

theorem ahead_attribute? {source : Source} {scope : Option String} {ts rest : Tokens}
    {a : Attribute} (read : attribute? source scope ts = some (a, rest)) : ts.Ahead rest := by
  simp only [attribute?] at read
  split at read
  · cases read
  · cases read
    exact ((Tokens.ahead_nameParts ts).trans (ahead_arguments source _)).trans
      (Tokens.ahead_eat _ .ellipsis)

theorem onward_abandonAttributes (c : Cursor) : c.Onward c.abandonAttributes.2 :=
  onward_goto (Tokens.ahead_skipAttributes c.rest)

theorem onward_attributeItems (start : Span) (scope : Option String) (c : Cursor) :
    c.Onward (attributeItems start scope c).2 := by
  fun_induction attributeItems start scope c with
  | case1 c => exact .refl c
  | case2 c t ts here comma ih =>
    exact (onward_goto (here ▸ Tokens.ahead_tail (by simp [comma]))).trans ih
  | case3 c t ts here word token a rest read more after items ih =>
    obtain ⟨_, span⟩ := t
    cases token
    have first : c.Onward (c.goto rest) := onward_goto (here ▸ ahead_attribute? read)
    rw [items] at ih
    exact first.trans ih
  | case4 c t ts here word token none =>
    have named : c.Onward (c.goto (Tokens.nameParts (t :: ts)).2) :=
      onward_goto (here ▸ Tokens.ahead_nameParts (t :: ts))
    exact named.trans (onward_abandonAttributes _)
  | case5 c t ts here eof => exact onward_report c _ _ _
  | case6 c => exact (onward_advance c).trans (onward_advance _)
  | case7 c => exact (onward_report c _ _ _).trans (onward_abandonAttributes _)

theorem ahead_usingScope (ts : Tokens) : ts.Ahead (usingScope ts).2 := by
  unfold usingScope
  split
  · exact ((Tokens.ahead_advance ts).trans (Tokens.ahead_qualifiedName _)).trans
      (Tokens.ahead_eat _ .colon)
  · exact .refl ts

theorem onward_attributeList (c : Cursor) : c.Onward c.attributeList.2 := by
  have opened := (onward_advance c).trans (onward_advance _)
  have entered := opened.trans (onward_goto (ahead_usingScope c.advance.advance.rest))
  exact entered.trans (onward_attributeItems _ _ _)

theorem onward_attributeSpecifiers (c : Cursor) : c.Onward c.attributeSpecifiers.2 := by
  fun_induction attributeSpecifiers c with
  | case1 c _ list more ih => exact (onward_attributeList c).trans ih
  | case2 c _ _ ih =>
    exact (onward_goto ((Tokens.ahead_advance c.rest).trans (Tokens.ahead_skipGroup _))).trans ih
  | case3 c => exact .refl c

end Attributes

section Heads

theorem ahead_skipMacro (ts : Tokens) : ts.Ahead (skipMacro ts) := by
  unfold skipMacro
  split
  · exact (Tokens.ahead_advance ts).trans (Tokens.ahead_skipGroup _)
  · exact Tokens.ahead_advance ts

theorem onward_decorators (c : Cursor) : c.Onward c.decorators.2 := by
  fun_induction decorators c with
  | case1 c _ own more ih =>
    exact ((onward_goto (ahead_skipMacro c.rest)).trans (onward_attributeSpecifiers _)).trans ih
  | case2 c => exact .refl c

theorem onward_recordHead (isTemplate : Bool) (c : Cursor) :
    c.Onward (c.recordHead isTemplate).2 := by
  have attributes := (onward_attributeSpecifiers c).trans (onward_decorators _)
  refine attributes.trans (onward_goto ?_)
  refine ((Tokens.ahead_qualifiedName _).trans ?_).trans
    ((Tokens.ahead_advance _).onlyIf _)
  exact (Tokens.ahead_skipAngles _).onlyIf _

end Heads

section Bases

theorem ahead_qualifiers (access : Visibility) (isVirtual : Bool) (ts : Tokens) :
    ts.Ahead (Base.qualifiers access isVirtual ts).2 := by
  fun_induction Base.qualifiers access isVirtual ts with
  | case1 | case4 | case5 => exact .refl _
  | case2 access isVirtual t ts token ih => exact ih.cons (by simp [token])
  | case3 access isVirtual t ts word token _ _ _ ih => exact ih.cons (by simp [token])

theorem keep_eq_some {t : Token} {read : Option (List Token × Tokens)} {spelled : List Token}
    {rest : Tokens} (kept : Base.spellingTokens.keep t read = some (spelled, rest)) :
    ∃ more, read = some (more, rest) := by
  obtain ⟨⟨more, last⟩, read, same⟩ := Option.map_eq_some_iff.mp kept
  cases same
  exact ⟨more, read⟩

theorem ahead_spellingTokens {angles : Nat} {ts rest : Tokens} {spelled : List Token}
    (read : Base.spellingTokens angles ts = some (spelled, rest)) : ts.Ahead rest := by
  fun_induction Base.spellingTokens angles ts generalizing spelled rest with
  | case1 | case2 | case3 => cases read
  | case4 angles t ts token after =>
    obtain ⟨_, span⟩ := t
    cases token
    rename_i ih
    obtain ⟨⟨more, last⟩, inner, same⟩ := Option.map_eq_some_iff.mp read
    cases same
    exact (Tokens.ahead_skipGroup _).trans (ih inner)
  | case5 angles t ts token ih | case6 angles t ts token ih | case8 angles t ts token _ ih
  | case10 angles t ts token _ ih =>
    obtain ⟨more, inner⟩ := keep_eq_some read
    exact (ih inner).cons (by simp [token])
  | case7 | case9 =>
    cases read
    exact .refl _
  | case11 angles t ts inside _ _ _ _ _ _ ih =>
    obtain ⟨more, inner⟩ := keep_eq_some read
    exact (ih inner).cons inside

theorem ahead_readOne {key : RecordKey} {ts rest : Tokens} {bases : List Base}
    (read : Base.readOne key ts = some (bases, rest)) : ts.Ahead rest := by
  obtain ⟨⟨spelled, last⟩, inner, same⟩ := Option.map_eq_some_iff.mp read
  cases same
  exact (ahead_qualifiers _ _ ts).trans (ahead_spellingTokens inner)

theorem ahead_readAll {key : RecordKey} {ts rest : Tokens} {bases : List Base}
    (read : Base.readAll key ts = some (bases, rest)) :
    ts.Ahead rest ∧ rest.peek = .mark .openBrace := by
  fun_induction Base.readAll key ts generalizing bases rest with
  | case1 | case4 => cases read
  | case2 ts own span next first ih =>
    obtain ⟨⟨more, last⟩, others, same⟩ := Option.map_eq_some_iff.mp read
    cases same
    obtain ⟨ahead, brace⟩ := ih others
    exact ⟨(ahead_readOne first).trans (ahead.cons (by simp)), brace⟩
  | case3 ts own last _ first brace =>
    cases read
    exact ⟨ahead_readOne first, by simpa [Tokens.atMark] using brace⟩

end Bases

end Cursor

def BodyReader.Steady (room : Nat) (body : BodyReader) : Prop :=
  ∀ decl (c : Cursor), c.rest.Closed → c.Onward (body decl c).1.2 ∧
    ∀ limit ∈ (body decl c).2, limit.Due room c.rest (body decl c).1.2.rest

namespace Cursor
variable {c d : Cursor} {room : Nat} {body : BodyReader}

section Records

def Taken (room : Nat) (c : Cursor) : Except Limit RecordOutcome × Cursor → Prop
  | (.error limit, d) => c.Onward d ∧ limit.Due (room + 1) c.rest d.rest
  | (.ok .notDefinition, d) => c.Stays d
  | (.ok _, d) => c.Gains d

theorem taken_recordBody (steady : body.Steady room) (closed : c.rest.Closed) (onward : c.Onward d)
    (brace : d.rest.peek = .mark .openBrace) (start : Span) (decl : TypeDecl) :
    Taken room c (recordBody body start decl d) := by
  have closedBefore : d.rest.Closed := onward.ahead.closed closed
  have entered : d.Gains d.advance := gains_advance closedBefore (by simp [brace])
  obtain ⟨moved, due⟩ := steady decl d.advance (entered.ahead.closed closedBefore)
  unfold recordBody
  split
  next decl' e limit read =>
    simp only [read] at moved due
    refine ⟨(onward.trans entered.toOnward).trans moved, ?_⟩
    have opened := closedBefore.opens_advance brace
    have fewer := onward.ahead.opens_le
    exact (due limit rfl).earlier (onward.ahead.trans entered.ahead) (by simp [advance] at *; omega)
  next decl' e read =>
    simp only [read] at moved
    have inside : c.Gains e := (onward.gains entered).onward moved
    have closing := onward_eat e .closeBrace
    split
    next f eaten =>
      rw [eaten] at closing
      exact inside.onward closing
    next f eaten =>
      rw [eaten] at closing
      exact inside.onward (closing.trans (onward_report f _ _ _))

theorem taken_record (steady : body.Steady room) (closed : c.rest.Closed)
    (namespaces enclosing : List String) (isTemplate : Bool) :
    Taken room c (c.record body namespaces enclosing isTemplate) := by
  unfold record
  split
  next => exact ⟨rfl, rfl⟩
  next key atKey =>
    have inside := (Tokens.inside_of_key atKey).1
    have gained : c.Gains (c.advance.recordHead isTemplate).2 :=
      (gains_advance closed inside).onward (onward_recordHead isTemplate _)
    have back : c.Stays ((c.advance.recordHead isTemplate).2.goto c.rest) := ⟨gained.source, rfl⟩
    dsimp only
    split
    next =>
      split
      · exact back
      · exact gained.onward (onward_advance _)
    next brace => exact taken_recordBody steady closed gained.toOnward brace _ _
    next =>
      split
      next bases rest read =>
        obtain ⟨ahead, brace⟩ := ahead_readAll read
        have based := (onward_advance _).ahead.trans ahead
        exact taken_recordBody steady closed (gained.toOnward.trans (onward_goto based)) brace _ _
      next => exact back
    next => exact back

end Records

section Typedefs

theorem onward_plainTypedef (scope : List String) (c : Cursor) :
    c.Onward (plainTypedef scope c).2 := by
  unfold plainTypedef
  split
  next rest read => exact onward_goto (Tokens.ahead_statementEnd read)
  next statement read => split <;> exact onward_goto (Tokens.ahead_statement read)

/-- Where the reader stands after a declaration that takes a token at least, unless a limit that is
due stops it. -/
def Passed (room : Nat) (c : Cursor) : Except Limit TypedefOutcome × Cursor → Prop
  | (.error limit, d) => c.Onward d ∧ limit.Due room c.rest d.rest
  | (.ok _, d) => c.Gains d

theorem passed_typedef (steady : body.Steady room) (closed : c.rest.Closed)
    (inside : c.rest.peek ≠ .eof) (namespaces enclosing : List String) :
    Passed (room + 1) c (c.typedef body namespaces enclosing) := by
  have start := gains_advance closed inside
  have taken := taken_record steady (start.ahead.closed closed) namespaces enclosing false
  unfold typedef
  dsimp only
  split
  next limit d read =>
    rw [read] at taken
    exact ⟨start.toOnward.trans taken.1, taken.2.of_ahead start.ahead⟩
  next decl d read =>
    rw [read] at taken
    have defined : c.Gains d := start.onward taken.toOnward
    split
    next rest last => exact defined.onward (onward_goto (Tokens.ahead_statementEnd last))
    next statement last => exact defined.onward (onward_goto (Tokens.ahead_statement last))
  next outcome d other read =>
    have source : d.source = c.advance.source := by
      rw [read] at taken
      cases outcome with
      | definition decl => exact (other decl rfl).elim
      | forward => exact taken.source
      | notDefinition => exact taken.source
    have back : c.advance.Onward (d.goto c.advance.rest) := ⟨source, .refl _⟩
    exact start.onward (back.trans (onward_plainTypedef _ _))

end Typedefs

section Small

def Enumerated (c : Cursor) : Option EnumDecl × Cursor → Prop
  | (some _, d) => c.Gains d
  | (none, d) => c.Stays d

theorem enumerated_enumeration (closed : c.rest.Closed) (inside : c.rest.peek ≠ .eof)
    (namespaces enclosing : List String) :
    Enumerated c (c.enumeration namespaces enclosing) := by
  have entered := (onward_advance c.advance).onlyIf
    ((c.advance.peek == .word "class" || c.advance.peek == .word "struct") = true)
  unfold enumeration
  dsimp only
  generalize (if (c.advance.peek == .word "class" || c.advance.peek == .word "struct") = true then
    c.advance.advance else c.advance) = headed at entered ⊢
  have gained : c.Gains headed.attributeSpecifiers.2 :=
    ((gains_advance closed inside).onward entered).onward (onward_attributeSpecifiers headed)
  generalize headed.attributeSpecifiers.2 = d at gained ⊢
  have named := Tokens.ahead_qualifiedName d.rest
  generalize d.rest.qualifiedName = name at named ⊢
  have typed := named.trans ((Tokens.ahead_skipUnderlying name.2).onlyIf (name.2.atMark .colon = true))
  generalize (if name.2.atMark .colon = true then name.2.skipUnderlying else name.2) = rest at typed ⊢
  split
  · exact gained.onward (onward_goto (typed.trans (Tokens.ahead_skipGroup rest)))
  · split
    · exact gained.onward (onward_goto typed)
    · exact ⟨gained.source, rfl⟩

theorem gains_usingAlias (closed : c.rest.Closed) (inside : c.rest.Inside) (scope : List String) :
    c.Gains (c.usingAlias scope).2 := by
  unfold usingAlias
  split
  next name _ _ =>
    have entered : c.Gains c.advance.advance.advance :=
      (gains_advance closed inside.1).onward ((onward_advance _).trans (onward_advance _))
    dsimp only
    split
    next rest read => exact entered.goto (Tokens.ahead_statementEnd read)
    next statement read => split <;> exact entered.goto (Tokens.ahead_statement read)
  next => exact gains_skipDeclaration inside

end Small

end Cursor

end HeaderMeta
