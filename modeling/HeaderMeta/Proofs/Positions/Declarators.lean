import HeaderMeta.Proofs.Positions.Tokens

/-! Declarators and alias targets taken apart from their last token on, by index.

`stop` is the number of tokens that are still looked at. Counters are taken down and tokens are looked
up as in `Proofs.Positions.Tokens`: `none` where that cannot be done, or where a loop would need more
than its rounds, which is never.
-/

set_option autoImplicit false

namespace HeaderMeta

namespace Tokens

def prefix? (ts : Tokens) (stop : Nat) : Option Tokens :=
  if stop ≤ ts.length then some (ts.take stop) else none

/-- The index of the bracket that opens the bound ending before `stop`, `depth` bounds being open. -/
def opening? (ts : Tokens) : (left depth stop : Nat) → Option (Option Nat)
  | 0, _, _ => none
  | left + 1, depth, stop =>
    if stop = 0 then some none
    else do
      let index ← stop.ppred
      let t ← ts[index]?
      if t.token = .mark .closeBracket then opening? ts left (depth + 1) index
      else if t.token = .mark .openBracket then do
        let depth ← depth.ppred
        if depth = 0 then some (some index) else opening? ts left depth index
      else opening? ts left depth index

def stripFrom? (ts : Tokens) : (left : Nat) → TypeKind → (stop : Nat) → Option (Nat × TypeKind)
  | 0, _, _ => none
  | left + 1, kind, stop =>
    if stop = 0 then some (0, kind)
    else do
      let last ← stop.ppred
      let t ← ts[last]?
      match t.token with
      | .mark .star => stripFrom? ts left .pointer last
      | .mark .amp | .mark .ampAmp =>
        stripFrom? ts left (if kind = .unresolved then .reference else kind) last
      | .mark .closeBracket => do
        let start ← ts.opening? (stop + 1) 0 stop
        stripFrom? ts left .array (start.getD 0)
      | token => if token.isQualifier then stripFrom? ts left kind last else some (stop, kind)

def stripIndirection? (ts : Tokens) : Option (List Token × TypeKind) := do
  let (stop, kind) ← ts.stripFrom? (ts.length + 1) .unresolved ts.length
  let kept ← ts.prefix? stop
  some (kept.map Placed.token, kind)

def dropBounds? (ts : Tokens) :
    (left : Nat) → (array : Bool) → (stop : Nat) → Option (Option (Nat × Bool))
  | 0, _, _ => none
  | left + 1, array, stop =>
    if stop = 0 then some (some (0, array))
    else do
      let last ← stop.ppred
      let t ← ts[last]?
      if t.token = .mark .closeBracket then do
        match ← ts.opening? (stop + 1) 0 stop with
        | none => some none
        | some start => dropBounds? ts left true start
      else some (some (stop, array))

def dropMarks? (ts : Tokens) : (left : Nat) → Declarator → (stop : Nat) → Option (Nat × Declarator)
  | 0, _, _ => none
  | left + 1, d, stop =>
    if stop = 0 then some (0, d)
    else do
      let last ← stop.ppred
      let t ← ts[last]?
      match t.token with
      | .mark .star => dropMarks? ts left { d with pointer := true } last
      | .mark .amp | .mark .ampAmp => dropMarks? ts left { d with reference := true } last
      | token => if token.isQualifier then dropMarks? ts left d last else some (stop, d)

def declarator? (ts : Tokens) (bitfield : Bool) : Option (Option (List Token × Declarator)) := do
  match ← ts.dropBounds? (ts.length + 1) false ts.length with
  | none => some none
  | some (stop, array) =>
    match stop.ppred.bind (ts[·]?) with
    | some ⟨.word name, span⟩ => do
      let before ← stop.ppred
      let (kept, d) ← ts.dropMarks? (before + 1) { name, span, array, bitfield } before
      let type ← ts.prefix? kept
      some (some (type.map Placed.token, d))
    | _ => some none

section Prefixes
variable {ts : Tokens} {left stop : Nat}

/-- What `stop` tokens look like from the last one on. -/
def reversed (ts : Tokens) (stop : Nat) : Tokens :=
  (ts.take stop).reverse

theorem reversed_zero (ts : Tokens) : ts.reversed 0 = [] := rfl

theorem reversed_length (ts : Tokens) : ts.reversed ts.length = ts.reverse := by
  rw [reversed, List.take_length]

theorem exists_reversed_succ (within : stop + 1 ≤ ts.length) :
    ∃ t, ts[stop]? = some t ∧ ts.reversed (stop + 1) = t :: ts.reversed stop :=
  ⟨ts[stop], List.getElem?_eq_getElem within, by
    rw [reversed, reversed, List.take_add_one, List.getElem?_eq_getElem within]
    simp⟩

theorem prefix?_eq (within : stop ≤ ts.length) :
    ts.prefix? stop = some (ts.reversed stop).reverse := by
  rw [prefix?, if_pos within, reversed, List.reverse_reverse]

theorem exists_opening (inner : Nat) (within : stop ≤ ts.length) (enough : stop < left) :
    ∃ found, ts.opening? left (inner + 1) stop = some found ∧
      beforeBracket? inner (ts.reversed stop) = found.map ts.reversed ∧ ∀ i ∈ found, i < stop := by
  induction stop generalizing inner left with
  | zero =>
    obtain ⟨left, rfl, -⟩ := exists_round enough
    exact ⟨none, by rw [opening?]; rfl, rfl, nofun⟩
  | succ stop ih =>
    obtain ⟨left, rfl, more⟩ := exists_round enough
    obtain ⟨t, here, same⟩ := exists_reversed_succ within
    have earlier : stop ≤ ts.length := Nat.le_of_succ_le within
    rw [opening?, same]
    unfold beforeBracket?
    simp only [Nat.succ_ne_zero, if_false, Nat.ppred, here, Option.bind_eq_bind, Option.bind_some]
    -- read backwards a closing bracket opens an inner pair
    by_cases closes : t.token = .mark .closeBracket
    · obtain ⟨found, run, read, before⟩ := ih (inner + 1) earlier more
      refine ⟨found, ?_, ?_, fun i mem => Nat.lt_succ_of_lt (before i mem)⟩
      · rw [if_pos closes, run]
      · rw [if_pos closes, read]
    by_cases opens : t.token = .mark .openBracket
    · simp only [if_neg closes, if_pos opens]
      cases inner with
      | zero => exact ⟨some stop, rfl, rfl, by simp⟩
      | succ inner =>
        obtain ⟨found, run, read, before⟩ := ih inner earlier more
        exact ⟨found, by simpa using run, read, fun i mem => Nat.lt_succ_of_lt (before i mem)⟩
    · obtain ⟨found, run, read, before⟩ := ih inner earlier more
      refine ⟨found, ?_, ?_, fun i mem => Nat.lt_succ_of_lt (before i mem)⟩
      · rw [if_neg closes, if_neg opens, run]
      · rw [if_neg closes, if_neg opens, read]

theorem exists_opening_bracket (within : stop + 1 ≤ ts.length) {t : Placed} (here : ts[stop]? = some t)
    (closes : t.token = .mark .closeBracket) :
    ∃ found, ts.opening? (stop + 2) 0 (stop + 1) = some found ∧
      beforeBracket? 0 (ts.reversed stop) = found.map ts.reversed ∧ ∀ i ∈ found, i < stop := by
  obtain ⟨found, run, read, before⟩ :=
    exists_opening 0 (Nat.le_of_succ_le within) (Nat.lt_succ_self stop)
  refine ⟨found, ?_, read, before⟩
  rw [opening?]
  simp [here, closes, run]

theorem stripReversed_bracket (kind : TypeKind) (span : Span) (rest : Tokens) :
    stripReversed kind (⟨.mark .closeBracket, span⟩ :: rest) =
      match beforeBracket? 0 rest with
      | some before => stripReversed .array before
      | none => ([], .array) := by
  conv => lhs; unfold stripReversed
  simp only []
  split <;> simp_all

theorem dropBounds_bracket (array : Bool) (span : Span) (rest : Tokens) :
    Declarator.dropBounds array (⟨.mark .closeBracket, span⟩ :: rest) =
      match beforeBracket? 0 rest with
      | some before => Declarator.dropBounds true before
      | none => none := by
  conv => lhs; unfold Declarator.dropBounds
  split <;> simp_all

theorem stripReversed_other {t : Placed} (noStar : t.token ≠ .mark .star) (noAmp : t.token ≠ .mark .amp)
    (noAmps : t.token ≠ .mark .ampAmp) (noBracket : t.token ≠ .mark .closeBracket) (kind : TypeKind)
    (rest : Tokens) :
    stripReversed kind (t :: rest) =
      if t.token.isQualifier then stripReversed kind rest else (t :: rest, kind) := by
  rw [stripReversed]
  split <;> simp_all

theorem dropMarks_other {t : Placed} (noStar : t.token ≠ .mark .star) (noAmp : t.token ≠ .mark .amp)
    (noAmps : t.token ≠ .mark .ampAmp) (d : Declarator) (rest : Tokens) :
    Declarator.dropMarks d (t :: rest) =
      if t.token.isQualifier then Declarator.dropMarks d rest else (t :: rest, d) := by
  rw [Declarator.dropMarks]
  split <;> simp_all

theorem exists_stripFrom (kind : TypeKind) (within : stop ≤ ts.length) (enough : stop < left) :
    ∃ kept final, ts.stripFrom? left kind stop = some (kept, final) ∧ kept ≤ ts.length ∧
      stripReversed kind (ts.reversed stop) = (ts.reversed kept, final) := by
  induction stop using Nat.strongRecOn generalizing kind left with
  | ind stop ih =>
    obtain ⟨left, rfl, more⟩ := exists_round enough
    cases stop with
    | zero =>
      refine ⟨0, kind, by rw [stripFrom?]; rfl, Nat.zero_le _, ?_⟩
      rw [reversed_zero, stripReversed]
    | succ stop =>
      obtain ⟨⟨token, span⟩, here, same⟩ := exists_reversed_succ within
      have earlier : stop ≤ ts.length := Nat.le_of_succ_le within
      -- all but the last step move the stop to the front
      have step (kind : TypeKind) :=
        ih stop (Nat.lt_succ_self stop) kind earlier more
      rw [stripFrom?, same]
      simp only [Nat.succ_ne_zero, if_false, Nat.ppred, here, Option.bind_eq_bind, Option.bind_some]
      split
      · rw [stripReversed]
        exact step .pointer
      · rw [stripReversed]
        exact step _
      · rw [stripReversed]
        exact step _
      · obtain ⟨found, run, read, before⟩ := exists_opening_bracket within here rfl
        rw [run, stripReversed_bracket, read]
        cases found with
        | none =>
          obtain ⟨left, rfl, -⟩ := exists_round ((Nat.succ_pos stop).trans_le more)
          refine ⟨0, .array, ?_, Nat.zero_le _, rfl⟩
          rw [Option.bind_some, Option.getD_none, stripFrom?, if_pos rfl]
        | some start =>
          have lt := Nat.lt_succ_of_lt (before start rfl)
          exact ih start lt .array (by omega) (lt.trans_le more)
      · rename_i noStar noAmp noAmps noBracket
        rw [stripReversed_other noStar noAmp noAmps noBracket]
        split
        · exact step kind
        · exact ⟨stop + 1, kind, rfl, within, by rw [same]⟩

end Prefixes

theorem stripIndirection?_eq (ts : Tokens) : ts.stripIndirection? = some (stripIndirection ts) := by
  obtain ⟨kept, final, run, fits, read⟩ :=
    exists_stripFrom .unresolved (Nat.le_refl ts.length) (Nat.lt_succ_self ts.length)
  rw [reversed_length] at read
  simp [stripIndirection?, run, prefix?_eq fits, stripIndirection, read]

theorem exists_dropBounds {ts : Tokens} {left stop : Nat} (array : Bool) (within : stop ≤ ts.length)
    (enough : stop < left) :
    ∃ found, ts.dropBounds? left array stop = some found ∧
      Declarator.dropBounds array (ts.reversed stop) = found.map (Prod.map ts.reversed id) ∧
      ∀ rest ∈ found, rest.1 ≤ ts.length := by
  induction stop using Nat.strongRecOn generalizing array left with
  | ind stop ih =>
    obtain ⟨left, rfl, more⟩ := exists_round enough
    cases stop with
    | zero =>
      refine ⟨some (0, array), by rw [dropBounds?]; rfl, ?_, ?_⟩
      · rw [reversed_zero, Declarator.dropBounds]
        · rfl
        · simp
      · simp
    | succ stop =>
      obtain ⟨⟨token, span⟩, here, same⟩ := exists_reversed_succ within
      rw [dropBounds?, same]
      simp only [Nat.succ_ne_zero, if_false, Nat.ppred, here, Option.bind_eq_bind, Option.bind_some]
      -- bounds are dropped from the end while a bracket closes there
      by_cases closes : token = .mark .closeBracket
      · subst closes
        obtain ⟨found, run, read, before⟩ := exists_opening_bracket within here rfl
        rw [if_pos rfl, run, dropBounds_bracket, read]
        cases found with
        | none => exact ⟨none, rfl, rfl, by simp⟩
        | some start =>
          have lt := Nat.lt_succ_of_lt (before start rfl)
          exact ih start lt true (by omega) (lt.trans_le more)
      · refine ⟨some (stop + 1, array), if_neg closes, ?_, ?_⟩
        · rw [Declarator.dropBounds, Option.map_some, Prod.map_apply, same, id_eq]
          rintro _ _ ⟨⟩
          exact closes rfl
        · simpa using within

theorem exists_dropMarks {ts : Tokens} {stop : Nat} (d : Declarator) (within : stop ≤ ts.length) :
    ∃ kept final, ts.dropMarks? (stop + 1) d stop = some (kept, final) ∧ kept ≤ ts.length ∧
      Declarator.dropMarks d (ts.reversed stop) = (ts.reversed kept, final) := by
  induction stop generalizing d with
  | zero => exact ⟨0, d, by rw [dropMarks?]; rfl, Nat.zero_le _, rfl⟩
  | succ stop ih =>
    obtain ⟨⟨token, span⟩, here, same⟩ := exists_reversed_succ within
    have step (d : Declarator) := ih d (Nat.le_of_succ_le within)
    rw [dropMarks?, same]
    simp only [Nat.succ_ne_zero, if_false, Nat.ppred, here, Option.bind_eq_bind, Option.bind_some]
    split
    · exact step _
    · exact step _
    · exact step _
    · rename_i noStar noAmp noAmps
      rw [dropMarks_other noStar noAmp noAmps]
      split
      · exact step d
      · exact ⟨stop + 1, d, rfl, within, by rw [same]⟩

theorem declarator?_eq (ts : Tokens) (bitfield : Bool) :
    ts.declarator? bitfield = some (Declarator.ofTokens? ts bitfield) := by
  obtain ⟨found, run, read, fits⟩ :=
    exists_dropBounds false (Nat.le_refl ts.length) (Nat.lt_succ_self ts.length)
  rw [reversed_length] at read
  rw [declarator?, run, Declarator.ofTokens?, read]
  cases found with
  | none => rfl
  | some found =>
    obtain ⟨stop, array⟩ := found
    cases stop with
    | zero => rfl
    | succ stop =>
      have within := fits _ rfl
      obtain ⟨⟨token, span⟩, here, same⟩ := exists_reversed_succ within
      cases token with
      | word name =>
        obtain ⟨kept, d, dropped, shorter, type⟩ :=
          exists_dropMarks { name, span, array, bitfield } (Nat.le_of_succ_le within)
        simp [same, here, dropped, prefix?_eq shorter, type]
      | _ => simp [same, here]

end Tokens

end HeaderMeta
