import HeaderMeta.Header.Cursor

/-! Attribute lists `[[...]]`, and the specifiers that may stand among them. -/

set_option autoImplicit false

namespace HeaderMeta

namespace Cursor

def arguments (source : Source) (ts : Tokens) : Option String × Tokens :=
  if ts.atMark .openParen then
    let text := source.slice ts.here.stop ts.toClose.here.start
    (some (String.ofList (Text.trimChars text)), ts.skipGroup)
  else (none, ts)

/-- Read one attribute at a word. `scope` applies to an unqualified name. There is none when the name
is the bare word `inline`. -/
def attribute? (source : Source) (scope : Option String) (ts : Tokens) :
    Option (Attribute × Tokens) :=
  let span := ts.here
  let (parts, rest) := Tokens.nameParts ts
  match parts.reverse with
  | [] => none
  | name :: outer =>
    let (args, rest) := arguments source rest
    let scope := if outer.isEmpty then scope else some (joinScope outer.reverse)
    some (⟨scope, name, args, span⟩, (Tokens.eat rest .ellipsis).2)

theorem length_arguments_le (source : Source) (ts : Tokens) :
    (arguments source ts).2.length ≤ ts.length := by
  unfold arguments
  split
  · exact Tokens.length_skipGroup_le ts
  · exact Nat.le_refl _

theorem length_attribute?_lt {source : Source} {scope : Option String} {word : String} {span : Span}
    {ts rest : Tokens} {a : Attribute}
    (h : attribute? source scope (⟨.word word, span⟩ :: ts) = some (a, rest)) :
    rest.length < ts.length + 1 := by
  have lt := Tokens.length_nameParts_lt word span ts
  simp only [attribute?] at h
  split at h
  · simp at h
  · simp only [Option.some.injEq, Prod.mk.injEq] at h
    rw [← h.2]
    have le := length_arguments_le source (Tokens.nameParts (⟨.word word, span⟩ :: ts)).2
    have := Tokens.length_eat_le (arguments source (Tokens.nameParts (⟨.word word, span⟩ :: ts)).2).2
      .ellipsis
    omega

def abandonAttributes (c : Cursor) : List Attribute × Cursor :=
  ([], c.goto c.rest.skipAttributes)

/-- Read attributes up to `]]`. `start` is the place of the list, `scope` its common scope. -/
def attributeItems (start : Span) (scope : Option String) (c : Cursor) : List Attribute × Cursor :=
  match _h : c.rest with
  | [] => ([], c)
  | t :: ts =>
    match _ht : t.token with
    | .mark .comma => attributeItems start scope (c.goto ts)
    | .word word =>
      match _ha : attribute? c.source scope (⟨.word word, t.span⟩ :: ts) with
      | some (a, rest) =>
        let (more, c) := attributeItems start scope (c.goto rest)
        (a :: more, c)
      | none => (c.goto (Tokens.nameParts (t :: ts)).2).abandonAttributes
    | .eof => ([], c.fail "Unterminated attribute list" start)
    | _ =>
      if c.rest.atAttributesEnd then ([], c.advance.advance)
      else (c.warn "Malformed attribute list" c.here).abandonAttributes
termination_by c.rest.length
decreasing_by
  · simp [_h]
  · have := length_attribute?_lt _ha
    simp [_h]
    omega

/-- The scope given once for a list: `[[using scope: ...]]`. -/
def usingScope (ts : Tokens) : Option String × Tokens :=
  if ts.atWord "using" then
    let (parts, rest) := Tokens.qualifiedName ts.advance
    (some (joinScope parts), (Tokens.eat rest .colon).2)
  else (none, ts)

def attributeList (c : Cursor) : List Attribute × Cursor :=
  let (scope, rest) := usingScope c.rest.advance.advance
  attributeItems c.here scope (c.goto rest)

theorem length_attributeItems_le (start : Span) (scope : Option String) (c : Cursor) :
    (attributeItems start scope c).2.rest.length ≤ c.rest.length := by
  fun_induction attributeItems start scope c with
  | case1 => simp
  | case2 c t ts h _ ih => simp [h] at ih ⊢; omega
  | case3 c t ts h word _ a rest ha more c' _ ih =>
    have := length_attribute?_lt ha
    simp_all
    omega
  | case4 c t ts h word ht ha =>
    have := Tokens.length_skipAttributes_le (Tokens.nameParts (t :: ts)).2
    have := Tokens.length_nameParts_le (t :: ts)
    simp only [abandonAttributes, rest_goto, h]
    omega
  | case5 => simp [fail]
  | case6 c t ts h _ _ _ _ =>
    have := Tokens.length_advance_le c.rest
    have := Tokens.length_advance_le c.rest.advance
    simp only [advance, rest_goto]
    omega
  | case7 c t ts h _ _ _ _ =>
    have := Tokens.length_skipAttributes_le c.rest
    simpa [abandonAttributes, warn] using this

theorem length_usingScope_le (ts : Tokens) : (usingScope ts).2.length ≤ ts.length := by
  unfold usingScope
  split
  · have := Tokens.length_advance_le ts
    have := Tokens.length_qualifiedName_le ts.advance
    have := Tokens.length_eat_le (Tokens.qualifiedName ts.advance).2 .colon
    simp only
    omega
  · exact Nat.le_refl _

theorem length_attributeList_lt {c : Cursor} (h : c.rest.atAttributes = true) :
    (attributeList c).2.rest.length < c.rest.length := by
  have first := Tokens.length_advance_lt_of_atAttributes h
  have second := Tokens.length_advance_le c.rest.advance
  have third := length_usingScope_le c.rest.advance.advance
  have := length_attributeItems_le c.here (usingScope c.rest.advance.advance).1
    (c.goto (usingScope c.rest.advance.advance).2)
  simp only [rest_goto] at this
  simp only [attributeList]
  omega

/-- Words whose parenthesised argument may stand among attribute lists. -/
def specifierWords : List String :=
  ["alignas", "__declspec", "__attribute__"]

def atSpecifier (ts : Tokens) : Bool :=
  ts.word?.any specifierWords.contains && ts.peekAt 1 == .mark .openParen

theorem length_specifier_lt {ts : Tokens} (h : atSpecifier ts = true) :
    ts.advance.skipGroup.length < ts.length := by
  have := @Tokens.length_advance_lt_of_peekAt ts .openParen (by
    simp only [atSpecifier, Bool.and_eq_true, beq_iff_eq] at h
    exact h.2)
  have := Tokens.length_skipGroup_le ts.advance
  omega

def attributeSpecifiers (c : Cursor) : List Attribute × Cursor :=
  if _h : c.rest.atAttributes then
    let list := attributeList c
    let more := attributeSpecifiers list.2
    (list.1 ++ more.1, more.2)
  else if _h : atSpecifier c.rest then attributeSpecifiers (c.goto c.rest.advance.skipGroup)
  else ([], c)
termination_by c.rest.length
decreasing_by
  · exact length_attributeList_lt _h
  · exact length_specifier_lt _h

theorem length_attributeSpecifiers_le (c : Cursor) :
    (attributeSpecifiers c).2.rest.length ≤ c.rest.length := by
  fun_induction attributeSpecifiers c with
  | case1 c h list more ih =>
    have := length_attributeList_lt h
    exact Nat.le_trans ih (Nat.le_of_lt this)
  | case2 c _ h ih =>
    have := length_specifier_lt h
    simp at ih
    omega
  | case3 => exact Nat.le_refl _

end Cursor

end HeaderMeta
