import HeaderMeta.Header.Declarator

/-! Base clauses of records. -/

set_option autoImplicit false

namespace HeaderMeta

namespace Base

def qualifiers (access : Visibility) (isVirtual : Bool) :
    Tokens → (Visibility × Bool) × Tokens
  | [] => ((access, isVirtual), [])
  | t :: ts =>
    match t.token with
    | .word word =>
      if word = "virtual" then qualifiers access true ts
      else
        match Visibility.ofWord? word with
        | some access => qualifiers access isVirtual ts
        | none => ((access, isVirtual), t :: ts)
    | _ => ((access, isVirtual), t :: ts)

theorem length_qualifiers_le (access : Visibility) (isVirtual : Bool) (ts : Tokens) :
    (qualifiers access isVirtual ts).2.length ≤ ts.length := by
  fun_induction qualifiers access isVirtual ts <;> simp_all <;> omega

/-- The tokens of a base up to the brace or comma outside all angles, and the tokens from there on.
A semicolon or the end of the file means that no body follows. -/
def spellingTokens (angles : Nat) (ts : Tokens) : Option (List Token × Tokens) :=
  match ts with
  | [] => none
  | t :: rest =>
    match t.token with
    | .eof | .mark .semicolon => none
    | .mark .openParen =>
      let after := Tokens.skipGroup (⟨.mark .openParen, t.span⟩ :: rest)
      let group := (t :: rest).take (rest.length + 1 - after.length)
      (spellingTokens angles after).map fun (more, last) =>
        (group.map Placed.token ++ more, last)
    | .mark .less => keep t.token (spellingTokens (angles + 1) rest)
    | .mark .greater => keep t.token (spellingTokens (angles - 1) rest)
    | .mark .openBrace | .mark .comma =>
      if angles = 0 then some ([], t :: rest) else keep t.token (spellingTokens angles rest)
    | token => keep token (spellingTokens angles rest)
termination_by ts.length
decreasing_by
  all_goals first
    | exact Tokens.length_skipGroup_lt rfl
    | simp
where
  keep (t : Token) (read : Option (List Token × Tokens)) : Option (List Token × Tokens) :=
    read.map fun (more, last) => (t :: more, last)

theorem length_spellingTokens_le {angles : Nat} {ts rest : Tokens} {spelled : List Token}
    (h : spellingTokens angles ts = some (spelled, rest)) : rest.length ≤ ts.length := by
  fun_induction spellingTokens angles ts generalizing spelled rest with
  | case1 => simp at h
  | case2 => simp at h
  | case3 => simp at h
  | case4 angles t rest' =>
    have := @Tokens.length_skipGroup_lt .openParen .closeParen t.span rest' rfl
    simp only [Option.map_eq_some_iff] at h
    obtain ⟨⟨more, last⟩, e, he⟩ := h
    cases he
    rename_i ih
    exact Nat.le_of_lt (Nat.lt_of_le_of_lt (ih e) this)
  | _ =>
    first
    | (simp only [spellingTokens.keep, Option.map_eq_some_iff] at h
       obtain ⟨⟨more, last⟩, e, he⟩ := h
       cases he
       rename_i ih
       have := ih e
       simp only [List.length_cons]
       omega)
    | (cases h; exact Nat.le_refl _)

def readOne (key : RecordKey) (ts : Tokens) : Option (List Base × Tokens) :=
  let ((access, isVirtual), start) := qualifiers key.defaultVisibility false ts
  (spellingTokens 0 start).map fun (tokens, rest) =>
    (if spell tokens = "" then [] else [{ spelling := spell tokens, access, isVirtual }], rest)

theorem length_readOne_le {key : RecordKey} {ts rest : Tokens} {bases : List Base}
    (h : readOne key ts = some (bases, rest)) : rest.length ≤ ts.length := by
  simp only [readOne, Option.map_eq_some_iff] at h
  obtain ⟨⟨tokens, last⟩, e, he⟩ := h
  cases he
  exact Nat.le_trans (length_spellingTokens_le e) (length_qualifiers_le _ _ ts)

/-- Read the bases of a record, in order, and the tokens from the opening brace on. There is no
answer when no body follows. -/
def readAll (key : RecordKey) (ts : Tokens) : Option (List Base × Tokens) :=
  match _h : readOne key ts with
  | none => none
  | some (own, ⟨.mark .comma, _⟩ :: next) =>
    (readAll key next).map fun (more, last) => (own ++ more, last)
  | some (own, rest) => if Tokens.atMark rest .openBrace then some (own, rest) else none
termination_by ts.length
decreasing_by
  have := length_readOne_le _h
  simp at this
  omega

end Base

end HeaderMeta
