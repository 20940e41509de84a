import HeaderMeta.Pattern
import Mathlib.Data.List.Basic

/-! What the search for a pattern finds.

A pattern still to be matched stands for the stretches that it takes from here on, given the character
before. Moving it over a character leaves the patterns for what may follow (`matches_cons_iff`), so a
search over the whole text decides whether the pattern takes some stretch of it (`search_iff`).
-/

set_option autoImplicit false

namespace HeaderMeta

namespace Pattern
variable {p q : Pattern} {c : Char} {cs ds : List Char} {before after : Option Char}

section Cases

theorem matches_set_iff {s : CharSet} :
    Matches (.set s) before cs after ↔ ∃ c, s.has c = true ∧ cs = [c] := by
  constructor
  · rintro ⟨⟩
    exact ⟨_, by assumption, rfl⟩
  · rintro ⟨c, has, rfl⟩
    exact .set has

theorem matches_empty_iff : Matches .empty before cs after ↔ cs = [] := by
  constructor
  · rintro ⟨⟩
    rfl
  · rintro rfl
    exact .empty

theorem matches_boundary_iff :
    Matches .boundary before cs after ↔ cs = [] ∧ wordAt before ≠ wordAt after := by
  constructor
  · rintro ⟨⟩
    exact ⟨rfl, by assumption⟩
  · rintro ⟨rfl, apart⟩
    exact .boundary apart

theorem matches_seq_iff :
    Matches (.seq p q) before cs after ↔ ∃ front back, cs = front ++ back ∧
      Matches p before front (back.head?.or after) ∧ Matches q (front.getLast?.or before) back after := by
  constructor
  · rintro ⟨⟩
    exact ⟨_, _, rfl, by assumption, by assumption⟩
  · rintro ⟨front, back, rfl, first, second⟩
    exact .seq first second

theorem matches_alt_iff :
    Matches (.alt p q) before cs after ↔ Matches p before cs after ∨ Matches q before cs after := by
  constructor
  · intro taken
    cases taken with
    | left first => exact .inl first
    | right second => exact .inr second
  · rintro (first | second)
    · exact .left first
    · exact .right second

theorem matches_star_cons (taken : Matches (.star p) before (c :: cs) after) :
    ∃ front back, cs = front ++ back ∧ Matches p before (c :: front) (back.head?.or after) ∧
      Matches (.star p) ((c :: front).getLast?.or before) back after := by
  generalize whole : Pattern.star p = s at taken
  generalize text : c :: cs = ds at taken
  induction taken with
  | stop => cases text
  | @more _ own rest before after first others _ ih =>
    cases whole
    cases own with
    | nil => exact ih rfl text
    | cons d own =>
      obtain ⟨rfl, rfl⟩ := List.cons.inj text
      exact ⟨own, rest, rfl, first, others⟩
  | _ => cases whole

end Cases

section Steps

/-- Nothing is split into nothing only. -/
theorem matches_seq_nil_iff :
    Matches (.seq p q) before [] after ↔ Matches p before [] after ∧ Matches q before [] after := by
  rw [matches_seq_iff]
  constructor
  · rintro ⟨front, back, split, first, second⟩
    obtain ⟨rfl, rfl⟩ := List.append_eq_nil_iff.mp split.symm
    exact ⟨first, second⟩
  · rintro ⟨first, second⟩
    exact ⟨[], [], rfl, first, second⟩

theorem nullable_iff :
    p.nullable (wordAt before) (wordAt after) = true ↔ Matches p before [] after := by
  induction p with
  | empty => simp [nullable, matches_empty_iff]
  | set s => simp [nullable, matches_set_iff]
  | boundary => simp [nullable, matches_boundary_iff]
  | seq p q ihp ihq => simp [nullable, matches_seq_nil_iff, ihp, ihq]
  | alt p q ihp ihq => simp [nullable, matches_alt_iff, ihp, ihq]
  | star p => exact iff_of_true rfl .stop

theorem nullable_iff_here :
    p.nullable (wordAt before) (Text.isWordChar c) = true ↔ Matches p before [] (some c) :=
  (nullable_iff : p.nullable (wordAt before) (wordAt (some c)) = true ↔ _)

theorem matches_andThen_iff :
    Matches (p.andThen q) before cs after ↔ Matches (.seq p q) before cs after := by
  cases p with
  | empty =>
    rw [andThen, matches_seq_iff]
    constructor
    · intro second
      exact ⟨[], cs, rfl, .empty, second⟩
    · rintro ⟨front, back, rfl, first, second⟩
      obtain rfl := matches_empty_iff.mp first
      exact second
  | _ => exact Iff.rfl

theorem matches_seq_map {ps : List Pattern} :
    (∃ r ∈ ps.map (·.andThen q), Matches r before cs after) ↔ ∃ front back, cs = front ++ back ∧
      (∃ r ∈ ps, Matches r before front (back.head?.or after)) ∧
        Matches q (front.getLast?.or before) back after := by
  simp only [List.mem_map, exists_exists_and_eq_and, matches_andThen_iff, matches_seq_iff]
  constructor
  · rintro ⟨r, mem, front, back, split, first, second⟩
    exact ⟨front, back, split, ⟨r, mem, first⟩, second⟩
  · rintro ⟨front, back, split, ⟨r, mem, first⟩, second⟩
    exact ⟨r, mem, front, back, split, first, second⟩

theorem getLast?_cons_or (front : List Char) :
    (c :: front).getLast?.or before = front.getLast?.or (some c) := by
  rw [List.getLast?_cons]
  cases front.getLast? <;> rfl

/-- A pattern moved over a character takes what the pattern takes behind it. -/
theorem matches_cons_iff :
    Matches p before (c :: cs) after ↔
      ∃ r ∈ p.step (wordAt before) c, Matches r (some c) cs after := by
  induction p generalizing before cs after with
  | empty => simp [step, matches_empty_iff]
  | set s =>
    rw [matches_set_iff, step]
    split
    next has =>
      simp only [List.mem_singleton, exists_eq_left, matches_empty_iff, List.cons.injEq]
      constructor
      · rintro ⟨d, -, -, none⟩
        exact none
      · intro none
        exact ⟨c, has, rfl, none⟩
    next hasNot =>
      simp only [List.not_mem_nil, false_and, exists_false, iff_false]
      rintro ⟨d, has, split⟩
      exact hasNot ((List.cons.inj split).1 ▸ has)
  | boundary => simp [step, matches_boundary_iff]
  | seq p q ihp ihq =>
    simp only [step, List.mem_append, or_and_right, exists_or, matches_seq_map, ← ihp,
      List.mem_ite_nil_right, nullable_iff_here]
    rw [matches_seq_iff]
    constructor
    -- the first part takes the character, or it takes nothing and the second part does
    · rintro ⟨front, back, split, first, second⟩
      cases front with
      | nil =>
        obtain rfl : c :: cs = back := split
        obtain ⟨r, mem, rest⟩ := ihq.mp second
        exact .inr ⟨r, ⟨first, mem⟩, rest⟩
      | cons d front =>
        obtain ⟨rfl, rfl⟩ := List.cons.inj split
        rw [getLast?_cons_or] at second
        exact .inl ⟨front, back, rfl, first, second⟩
    · rintro (⟨front, back, rfl, first, second⟩ | ⟨r, ⟨first, mem⟩, rest⟩)
      · exact ⟨c :: front, back, rfl, first, by rwa [getLast?_cons_or]⟩
      · exact ⟨[], c :: cs, rfl, first, ihq.mpr ⟨r, mem, rest⟩⟩
  | alt p q ihp ihq =>
    simp only [step, List.mem_append, or_and_right, exists_or, matches_alt_iff, ihp, ihq]
  | star p ih =>
    simp only [step, matches_seq_map, ← ih]
    constructor
    · intro taken
      obtain ⟨front, back, rfl, first, others⟩ := matches_star_cons taken
      exact ⟨front, back, rfl, first, by rwa [getLast?_cons_or] at others⟩
    · rintro ⟨front, back, rfl, first, others⟩
      exact .more first (by rwa [getLast?_cons_or])

end Steps

section Searches

theorem mem_distinct {ps : List Pattern} : p ∈ distinct ps ↔ p ∈ ps := by
  induction ps with
  | nil => rfl
  | cons q ps ih =>
    rw [distinct]
    split
    next again =>
      rw [List.mem_cons, ih]
      refine ⟨.inr, fun mem => mem.elim (fun same => ?_) id⟩
      exact ih.mp (same ▸ List.contains_iff_mem.mp again)
    next => rw [List.mem_cons, List.mem_cons, ih]

def Starts (p : Pattern) (before : Option Char) (cs : List Char) : Prop :=
  ∃ own back, cs = own ++ back ∧ Matches p before own back.head?

theorem starts_nil_iff : p.Starts before [] ↔ Matches p before [] none := by
  constructor
  · rintro ⟨own, back, split, taken⟩
    obtain ⟨rfl, rfl⟩ := List.append_eq_nil_iff.mp split.symm
    exact taken
  · intro taken
    exact ⟨[], [], rfl, taken⟩

/-- A stretch at the front is empty, or it goes on behind the first character. -/
theorem starts_cons_iff : p.Starts before (c :: cs) ↔
    Matches p before [] (some c) ∨ ∃ r ∈ p.step (wordAt before) c, r.Starts (some c) cs := by
  constructor
  · rintro ⟨own, back, split, taken⟩
    cases own with
    | nil =>
      obtain rfl : c :: cs = back := split
      exact .inl taken
    | cons d own =>
      obtain ⟨rfl, rfl⟩ := List.cons.inj split
      obtain ⟨r, mem, rest⟩ := matches_cons_iff.mp taken
      exact .inr ⟨r, mem, own, back, rfl, rest⟩
  · rintro (taken | ⟨r, mem, own, back, rfl, rest⟩)
    · exact ⟨[], c :: cs, rfl, taken⟩
    · exact ⟨c :: own, back, rfl, matches_cons_iff.mpr ⟨r, mem, rest⟩⟩

theorem exists_starts_cons_iff {ps : List Pattern} : (∃ r ∈ ps, r.Starts before (c :: cs)) ↔
    (∃ r ∈ ps, Matches r before [] (some c)) ∨
      ∃ r ∈ ps.flatMap (step (wordAt before) c), r.Starts (some c) cs := by
  simp only [starts_cons_iff, List.mem_flatMap]
  constructor
  · rintro ⟨r, mem, taken | ⟨s, moved, starts⟩⟩
    · exact .inl ⟨r, mem, taken⟩
    · exact .inr ⟨s, ⟨r, mem, moved⟩, starts⟩
  · rintro (⟨r, mem, taken⟩ | ⟨s, ⟨r, mem, moved⟩, starts⟩)
    · exact ⟨r, mem, .inl taken⟩
    · exact ⟨r, mem, .inr ⟨s, moved, starts⟩⟩

def Occurs (p : Pattern) (before : Option Char) (cs : List Char) : Prop :=
  ∃ front rest, cs = front ++ rest ∧ p.Starts (front.getLast?.or before) rest

theorem occurs_nil_iff : p.Occurs before [] ↔ p.Starts before [] := by
  constructor
  · rintro ⟨front, rest, split, starts⟩
    obtain ⟨rfl, rfl⟩ := List.append_eq_nil_iff.mp split.symm
    exact starts
  · intro starts
    exact ⟨[], [], rfl, starts⟩

theorem occurs_cons_iff :
    p.Occurs before (c :: cs) ↔ p.Starts before (c :: cs) ∨ p.Occurs (some c) cs := by
  constructor
  · rintro ⟨front, rest, split, starts⟩
    cases front with
    | nil =>
      obtain rfl : c :: cs = rest := split
      exact .inl starts
    | cons d front =>
      obtain ⟨rfl, rfl⟩ := List.cons.inj split
      exact .inr ⟨front, rest, rfl, by rwa [getLast?_cons_or] at starts⟩
  · rintro (starts | ⟨front, rest, rfl, starts⟩)
    · exact ⟨[], c :: cs, rfl, starts⟩
    · exact ⟨c :: front, rest, rfl, by rwa [getLast?_cons_or]⟩

/-- A search finds a stretch at the front for one of the patterns under way, or a stretch anywhere for
the pattern that is searched for. -/
theorem searchFrom_iff {live : List Pattern} :
    searchFrom p (wordAt before) live cs = true ↔
      (∃ r ∈ live, r.Starts before cs) ∨ p.Occurs before cs := by
  induction cs generalizing before live with
  | nil =>
    have here (r : Pattern) : r.nullable (wordAt before) false = true ↔ r.Starts before [] :=
      (nullable_iff : r.nullable (wordAt before) (wordAt none) = true ↔ _).trans starts_nil_iff.symm
    simp only [searchFrom, List.any_eq_true, here]
    rw [occurs_nil_iff, List.exists_mem_cons_iff, or_comm]
  | cons c cs ih =>
    have next : searchFrom p (Text.isWordChar c) (distinct ((p :: live).flatMap (step (wordAt before) c)))
        cs = true ↔ _ := @ih (some c) _
    have first : (∃ r ∈ p :: live, r.Starts before (c :: cs)) ↔ _ := List.exists_mem_cons_iff _ _ _
    rw [occurs_cons_iff, ← or_assoc, or_comm (b := p.Starts _ _), ← first, exists_starts_cons_iff,
      searchFrom, Bool.or_eq_true, next]
    simp only [List.any_eq_true, nullable_iff_here, mem_distinct, or_assoc]

/-- A search tells whether the pattern takes a stretch of the text. -/
theorem search_iff : p.search cs = true ↔ ∃ front own back, cs = front ++ (own ++ back) ∧
    Matches p front.getLast? own back.head? := by
  have found : searchFrom p (wordAt none) [] cs = true ↔ _ := searchFrom_iff
  rw [show p.search cs = searchFrom p (wordAt none) [] cs from rfl, found]
  constructor
  · rintro (⟨r, mem, -⟩ | ⟨front, rest, rfl, own, back, rfl, taken⟩)
    · cases mem
    · exact ⟨front, own, back, rfl, by rwa [Option.or_none] at taken⟩
  · rintro ⟨front, own, back, rfl, taken⟩
    exact .inr ⟨front, own ++ back, rfl, own, back, rfl, by rwa [Option.or_none]⟩

end Searches

end Pattern

end HeaderMeta
