import HeaderMeta.Proofs.Grammar.Parts

/-! Moving over tokens only moves ahead.

What a function on tokens leaves is a later part of what it was given, and the end of the file stays
its last token (`Ahead`). Where the next token is neither that end nor a brace that closes the scope
around, skipping a declaration or taking a statement moves on by at least one token.
-/

set_option autoImplicit false

namespace HeaderMeta

namespace Tokens

def Closed (ts : Tokens) : Prop :=
  ∃ t, ts.getLast? = some t ∧ t.token = .eof

/-- `us` is what is left of `ts` after some tokens. -/
structure Ahead (ts us : Tokens) : Prop where
  suffix : us <:+ ts
  closed : ts.Closed → us.Closed

section Ahead
variable {t : Placed} {ts us vs : Tokens} {m : Mark}

theorem Ahead.refl (ts : Tokens) : Ahead ts ts :=
  ⟨List.suffix_rfl, id⟩

theorem Ahead.trans (first : Ahead ts us) (second : Ahead us vs) : Ahead ts vs :=
  ⟨second.suffix.trans first.suffix, second.closed ∘ first.closed⟩

theorem Ahead.length_le (ahead : Ahead ts us) : us.length ≤ ts.length :=
  ahead.suffix.length_le

theorem Ahead.length_lt_cons (ahead : Ahead ts us) : us.length < (t :: ts).length :=
  Nat.lt_succ_of_le ahead.length_le

theorem Closed.ne_nil (closed : Closed ts) : ts ≠ [] := by
  rintro rfl
  obtain ⟨t, last, -⟩ := closed
  simp at last

theorem Closed.tail (closed : Closed (t :: ts)) (inside : t.token ≠ .eof) : Closed ts := by
  obtain ⟨last, here, eof⟩ := closed
  cases ts with
  | nil =>
    cases here
    exact absurd eof inside
  | cons u us => exact ⟨last, by simpa using here, eof⟩

theorem ahead_tail (inside : t.token ≠ .eof) : Ahead (t :: ts) ts :=
  ⟨List.suffix_cons t ts, fun closed => closed.tail inside⟩

theorem Ahead.cons (ahead : Ahead ts us) (inside : t.token ≠ .eof) : Ahead (t :: ts) us :=
  (ahead_tail inside).trans ahead

theorem Ahead.onlyIf (ahead : Ahead ts us) (p : Prop) [Decidable p] :
    Ahead ts (if p then us else ts) := by
  split
  · exact ahead
  · exact .refl ts

/-- Inside a closed list a token that does not end the file has a successor. -/
theorem Closed.length_advance_lt (closed : ts.Closed) (inside : ts.peek ≠ .eof) :
    ts.advance.length < ts.length := by
  match ts with
  | [] => exact absurd rfl inside
  | [t] => exact absurd rfl (closed.tail inside).ne_nil
  | _ :: _ :: _ => simp [advance]

theorem ahead_advance (ts : Tokens) : Ahead ts ts.advance := by
  match ts with
  | [] => exact .refl _
  | [_] => exact .refl _
  | t :: u :: us =>
    refine ⟨List.suffix_cons t _, fun ⟨last, here, eof⟩ => ⟨last, ?_, eof⟩⟩
    simpa [advance] using here

theorem ahead_eat (ts : Tokens) (m : Mark) : Ahead ts (ts.eat m).2 := by
  unfold eat
  split
  · exact ahead_advance ts
  · exact .refl ts

end Ahead

section Skipping

theorem ahead_findClose («open» close : Mark) (inner : Nat) (ts : Tokens) :
    Ahead ts (findClose «open» close inner ts) := by
  fun_induction findClose «open» close inner ts with
  | case1 => exact .refl _
  | case2 => exact .refl _
  | case3 inner t ts inside _ ih => exact ih.cons inside
  | case4 => exact .refl _
  | case5 t ts inside _ _ inner ih => exact ih.cons inside
  | case6 inner t ts inside _ _ ih => exact ih.cons inside

theorem ahead_skipGroup (ts : Tokens) : Ahead ts ts.skipGroup := by
  unfold skipGroup
  split
  next m span rest =>
    split
    next close _ =>
      exact ((ahead_findClose m close 0 rest).trans (ahead_advance _)).cons (by simp)
    next => exact .refl _
  next => exact .refl _

theorem ahead_closeAngles (angles : Nat) (ts : Tokens) : Ahead ts (closeAngles angles ts) := by
  fun_induction closeAngles angles ts with
  | case1 | case2 | case3 | case4 => exact .refl _
  | case5 angles t rest token ih =>
    obtain ⟨_, span⟩ := t
    cases token
    exact (ahead_skipGroup _).trans ih
  | case6 angles t rest token ih => exact ih.cons (by simp [token])
  | case7 t rest token | case8 t rest token => exact ahead_tail (by simp [token])
  | case9 t rest token angles ih => exact ih.cons (by simp [token])
  | case10 angles t rest inside _ _ _ _ _ ih => exact ih.cons inside

theorem ahead_skipAngles (ts : Tokens) : Ahead ts ts.skipAngles := by
  unfold skipAngles
  split
  · exact ahead_closeAngles 0 ts
  · exact .refl ts

theorem ahead_skipFrom (depth : Nat) (ts : Tokens) : Ahead ts (skipFrom depth ts) := by
  fun_induction skipFrom depth ts with
  | case1 | case2 | case3 => exact .refl _
  | case4 depth t rest token _ ih | case6 depth t rest token _ ih => exact ih.cons (by simp [token])
  | case5 t rest token => exact ahead_tail (by simp [token])
  | case7 depth t rest token after _ ih =>
    obtain ⟨_, span⟩ := t
    cases token
    exact (ahead_skipGroup _).trans ih
  | case8 depth t rest token after _ =>
    obtain ⟨_, span⟩ := t
    cases token
    exact (ahead_skipGroup _).trans (ahead_eat _ _)
  | case9 depth t rest token ih | case10 depth t rest token ih => exact ih.cons (by simp [token])
  | case11 depth t rest token _ | case13 depth t rest token _ => exact ahead_tail (by simp [token])
  | case12 depth t rest token _ ih | case14 depth t rest token _ ih =>
    exact ih.cons (by simp [token])
  | case15 depth t rest inside _ _ _ _ _ _ _ ih => exact ih.cons inside

theorem ahead_skipDeclaration (ts : Tokens) : Ahead ts ts.skipDeclaration :=
  ahead_skipFrom 0 ts

theorem ahead_skipAttributes (ts : Tokens) : Ahead ts ts.skipAttributes := by
  fun_induction skipAttributes ts with
  | case1 | case2 => exact .refl _
  | case3 t ts inside _ => exact (ahead_advance ts).cons inside
  | case4 t ts inside _ ih => exact ih.cons inside

theorem ahead_skipUnderlying (ts : Tokens) : Ahead ts ts.skipUnderlying := by
  fun_induction skipUnderlying ts with
  | case1 | case2 | case3 | case4 | case5 => exact .refl _
  | case6 t ts _ _ _ inside ih => exact ih.cons inside

end Skipping

section Taking

theorem ahead_nameParts (ts : Tokens) : Ahead ts (nameParts ts).2 := by
  fun_induction nameParts ts with
  | case1 word span own span' next _ parts after read ih =>
    rw [read] at ih
    exact (ih.cons (by simp)).cons (by simp)
  | case2 | case3 => exact ahead_tail (by simp)
  | case4 => exact .refl _

theorem ahead_qualifiedName (ts : Tokens) : Ahead ts ts.qualifiedName.2 := by
  unfold qualifiedName
  split
  · exact (ahead_advance ts).trans (ahead_nameParts _)
  · exact ahead_nameParts ts

def afterStatement : Except Tokens Statement → Tokens
  | .ok statement => statement.rest
  | .error rest => rest

@[simp] theorem afterStatement_keep (t : Placed) (read : Except Tokens Statement) :
    afterStatement (takeFrom.keep t read) = afterStatement read := by
  cases read <;> rfl

theorem ahead_takeFrom (depth : Nat) (ts : Tokens) :
    Ahead ts (afterStatement (takeFrom depth ts)) := by
  fun_induction takeFrom depth ts with
  | case1 | case2 | case5 => exact .refl _
  | case3 t ts token => exact ahead_tail (by simp [token])
  | case4 depth t ts token _ ih | case6 depth t ts token _ ih =>
    rw [afterStatement_keep]
    exact ih.cons (by simp [token])
  | case7 depth t ts token ih | case8 depth t ts token ih | case9 depth t ts token ih
  | case10 depth t ts token ih | case11 depth t ts token ih =>
    rw [afterStatement_keep]
    exact ih.cons (by simp [token])
  | case12 depth t ts inside _ _ _ _ _ _ _ ih =>
    rw [afterStatement_keep]
    exact ih.cons inside

theorem ahead_takeStatement (ts : Tokens) : Ahead ts (afterStatement ts.takeStatement) :=
  ahead_takeFrom 0 ts

theorem ahead_statement {ts : Tokens} {statement : Statement}
    (read : ts.takeStatement = .ok statement) : Ahead ts statement.rest := by
  have taken := ahead_takeStatement ts
  rwa [read] at taken

theorem ahead_statementEnd {ts rest : Tokens} (read : ts.takeStatement = .error rest) :
    Ahead ts rest := by
  have taken := ahead_takeStatement ts
  rwa [read] at taken

end Taking

section Progress
variable {ts : Tokens}

def Inside (ts : Tokens) : Prop :=
  ts.peek ≠ .eof ∧ ts.peek ≠ .mark .closeBrace

theorem length_skipDeclaration_lt (inside : ts.Inside) : ts.skipDeclaration.length < ts.length := by
  obtain ⟨notEnd, notBrace⟩ := inside
  unfold skipDeclaration
  fun_cases skipFrom 0 ts with
  | case1 => exact absurd rfl notEnd
  | case2 t rest token => exact absurd token notEnd
  | case3 t rest token => exact absurd token notBrace
  | case4 t rest token => exact absurd token notBrace
  | case5 | case11 | case13 => exact (Ahead.refl _).length_lt_cons
  | case6 t rest | case9 t rest | case10 t rest | case12 t rest | case14 t rest | case15 t rest =>
    exact (ahead_skipFrom _ rest).length_lt_cons
  | case7 t rest token after _ =>
    exact Nat.lt_of_le_of_lt (ahead_skipFrom 0 after).length_le (length_skipGroup_lt rfl)
  | case8 t rest token after _ =>
    exact Nat.lt_of_le_of_lt (length_eat_le after .semicolon) (length_skipGroup_lt rfl)

theorem length_afterStatement_lt (inside : ts.Inside) :
    (afterStatement ts.takeStatement).length < ts.length := by
  obtain ⟨notEnd, notBrace⟩ := inside
  unfold takeStatement
  fun_cases takeFrom 0 ts with
  | case1 => exact absurd rfl notEnd
  | case2 depth t rest token => exact absurd token notEnd
  | case3 t rest token => exact (Ahead.refl _).length_lt_cons
  | case5 t rest token => exact absurd token notBrace
  | case6 depth t rest token => exact absurd token notBrace
  | case4 depth t rest | case7 depth t rest | case8 depth t rest | case9 depth t rest
  | case10 depth t rest | case11 depth t rest | case12 depth t rest =>
    rw [afterStatement_keep]
    exact (ahead_takeFrom _ rest).length_lt_cons

end Progress

end Tokens

end HeaderMeta
