import HeaderMeta.Glob
import Mathlib.Data.List.Basic
import Mathlib.Data.List.TakeWhile

/-! What exclusion globs match.

A part of a glob takes a run of characters, and a glob takes what its parts take one after another
(`GlobPart.Runs`). After some parts the marks stand where a run of just these parts can end
(`Glob.Marks`); every further part keeps that so, and so a glob occurs in a text when it takes some
stretch of it. Read as text, left to right, a glob takes the same (`Glob.Takes`).
-/

set_option autoImplicit false

namespace HeaderMeta

namespace GlobPart
variable {foldCase : Bool} {part : GlobPart} {parts : List GlobPart} {run stretch : List Char}

def Takes (foldCase : Bool) : GlobPart → List Char → Prop
  | anyRun, run => '\n' ∉ run
  | segmentRun, run => '/' ∉ run
  | one, run => ∃ c, run = [c] ∧ c ≠ '/'
  | literal c, run => ∃ d, run = [d] ∧ (if foldCase then Text.sameFolded c d else c == d) = true

inductive Runs (foldCase : Bool) : List GlobPart → List Char → Prop where
  | nil : Runs foldCase [] []
  | cons {part : GlobPart} {parts : List GlobPart} {run stretch : List Char} :
      part.Takes foldCase run → Runs foldCase parts stretch →
        Runs foldCase (part :: parts) (run ++ stretch)

theorem runs_nil_iff : Runs foldCase [] stretch ↔ stretch = [] :=
  ⟨fun runs => by cases runs; rfl, fun none => none ▸ .nil⟩

theorem runs_cons_iff : Runs foldCase (part :: parts) stretch ↔
    ∃ run rest, stretch = run ++ rest ∧ part.Takes foldCase run ∧ Runs foldCase parts rest := by
  constructor
  · intro runs
    cases runs with
    | cons takes rest => exact ⟨_, _, rfl, takes, rest⟩
  · rintro ⟨run, rest, rfl, takes, runs⟩
    exact .cons takes runs

theorem runs_concat_iff : Runs foldCase (parts ++ [part]) stretch ↔
    ∃ front run, stretch = front ++ run ∧ Runs foldCase parts front ∧ part.Takes foldCase run := by
  induction parts generalizing stretch with
  | nil =>
    rw [List.nil_append, runs_cons_iff]
    simp [runs_nil_iff]
  | cons first parts ih =>
    rw [List.cons_append, runs_cons_iff]
    simp only [ih, runs_cons_iff]
    constructor
    · rintro ⟨run, rest, rfl, takes, front, last, rfl, runs, ends⟩
      exact ⟨run ++ front, last, (List.append_assoc ..).symm, ⟨run, front, rfl, takes, runs⟩, ends⟩
    · rintro ⟨front, last, rfl, ⟨run, rest, rfl, takes, runs⟩, ends⟩
      exact ⟨run, rest ++ last, List.append_assoc .., takes, rest, last, rfl, runs, ends⟩

end GlobPart

namespace Glob

open GlobPart (Runs)

section Sweeps
variable {p : Char → Bool} {foldCase : Bool} {text a b : List Char} {marks : List Bool}

theorem length_sweepOne (full : marks.length = text.length + 1) :
    (sweepOne p text marks).length = text.length := by
  induction text generalizing marks with
  | nil => cases marks <;> simp [sweepOne]
  | cons c cs ih =>
    cases marks with
    | nil => cases full
    | cons m ms => simp [sweepOne, ih (Nat.succ.inj full)]

theorem length_sweepRun {carry : Bool} (full : marks.length = text.length + 1) :
    (sweepRun p carry text marks).length = text.length + 1 := by
  induction text generalizing marks carry with
  | nil =>
    cases marks with
    | nil => cases full
    | cons m ms => simp [sweepRun]
  | cons c cs ih =>
    cases marks with
    | nil => cases full
    | cons m ms => simp [sweepRun, ih (Nat.succ.inj full)]

theorem length_sweep (full : marks.length = text.length + 1) (part : GlobPart) :
    (sweep foldCase text marks part).length = text.length + 1 := by
  cases part <;> simp [sweep, length_sweepRun full, length_sweepOne full]

theorem sweepOne_iff {c : Char} (full : marks.length = (a ++ c :: b).length + 1) :
    (sweepOne p (a ++ c :: b) marks)[a.length]? = some true ↔
      marks[a.length]? = some true ∧ p c = true := by
  induction a generalizing marks with
  | nil =>
    cases marks with
    | nil => cases full
    | cons m ms => simp [sweepOne]
  | cons x a ih =>
    cases marks with
    | nil => cases full
    | cons m ms => simpa [sweepOne] using ih (Nat.succ.inj full)

theorem sweepRun_iff {carry : Bool} (full : marks.length = (a ++ b).length + 1) :
    (sweepRun p carry (a ++ b) marks)[a.length]? = some true ↔
      (carry = true ∧ ∀ c ∈ a, p c = true) ∨
        ∃ before run, a = before ++ run ∧ marks[before.length]? = some true ∧
          ∀ c ∈ run, p c = true := by
  induction a generalizing marks carry with
  | nil =>
    cases marks with
    | nil => cases full
    | cons m ms => cases b <;> cases m <;> cases carry <;> simp [sweepRun]
  | cons x a ih =>
    cases marks with
    | nil => cases full
    | cons m ms =>
      -- over `x` goes the mark in front of it or the one from the left
      have rest : (sweepRun p ((m || carry) && p x) (a ++ b) ms)[a.length]? = some true ↔ _ :=
        ih (Nat.succ.inj full)
      rw [List.cons_append, sweepRun, List.length_cons, List.getElem?_cons_succ, rest]
      constructor
      · rintro (⟨here, all⟩ | ⟨before, run, rfl, marked, all⟩)
        · obtain ⟨some, first⟩ := (Bool.and_eq_true _ _).mp here
          have whole : ∀ c ∈ x :: a, p c = true := List.forall_mem_cons.mpr ⟨first, all⟩
          rcases (Bool.or_eq_true _ _).mp some with rfl | rfl
          · exact .inr ⟨[], x :: a, rfl, rfl, whole⟩
          · exact .inl ⟨rfl, whole⟩
        · exact .inr ⟨x :: before, run, rfl, marked, all⟩
      · rintro (⟨rfl, all⟩ | ⟨before, run, split, marked, all⟩)
        · obtain ⟨first, others⟩ := List.forall_mem_cons.mp all
          exact .inl ⟨by simp [first], others⟩
        · cases before with
          | nil =>
            obtain rfl : x :: a = run := split
            obtain ⟨first, others⟩ := List.forall_mem_cons.mp all
            obtain rfl : m = true := by simpa using marked
            exact .inl ⟨by simp [first], others⟩
          | cons y before =>
            obtain ⟨rfl, rfl⟩ := List.cons.inj split
            exact .inr ⟨before, run, rfl, marked, all⟩

theorem cons_sweepOne_iff (full : marks.length = (a ++ b).length + 1) :
    (false :: sweepOne p (a ++ b) marks)[a.length]? = some true ↔
      ∃ before run, a = before ++ run ∧ marks[before.length]? = some true ∧
        ∃ c, run = [c] ∧ p c = true := by
  rcases List.eq_nil_or_concat a with rfl | ⟨before, c, rfl⟩
  · simp
  · have own := sweepOne_iff (p := p) (a := before) (b := b) (c := c) (by simpa using full)
    -- the mark in front moved everything by one, so it is the one at `before` that counts
    simp only [List.concat_eq_append, List.append_assoc, List.singleton_append, List.length_append,
      List.length_singleton, List.getElem?_cons_succ] at own ⊢
    rw [own]
    constructor
    · rintro ⟨marked, taken⟩
      exact ⟨before, [c], rfl, marked, c, rfl, taken⟩
    · rintro ⟨before', run, split, marked, d, rfl, taken⟩
      obtain ⟨rfl, same⟩ := List.append_inj' split rfl
      cases same
      exact ⟨marked, taken⟩

theorem sweepRun_ne_iff (full : marks.length = (a ++ b).length + 1) (c : Char) :
    (sweepRun (· != c) false (a ++ b) marks)[a.length]? = some true ↔
      ∃ before run, a = before ++ run ∧ marks[before.length]? = some true ∧ c ∉ run := by
  have absent (run : List Char) : (∀ d ∈ run, (d != c) = true) ↔ c ∉ run := by
    simp only [bne_iff_ne]
    exact ⟨fun other mem => other c mem rfl, fun absent d mem same => absent (same ▸ mem)⟩
  rw [sweepRun_iff full]
  simp only [absent, Bool.false_eq_true, false_and, false_or]

/-- One part moves a mark over what it takes. -/
theorem sweep_iff (full : marks.length = (a ++ b).length + 1) (part : GlobPart) :
    (sweep foldCase (a ++ b) marks part)[a.length]? = some true ↔
      ∃ before run, a = before ++ run ∧ marks[before.length]? = some true ∧
        part.Takes foldCase run := by
  cases part with
  | anyRun => exact sweepRun_ne_iff full '\n'
  | segmentRun => exact sweepRun_ne_iff full '/'
  | one =>
    have own := cons_sweepOne_iff (p := (· != '/')) full
    simp only [bne_iff_ne] at own
    exact own
  | literal c => exact cons_sweepOne_iff full

/-- Marks that stand where a run of some parts can end. -/
structure Marks (foldCase : Bool) (text : List Char) (parts : List GlobPart) (marks : List Bool) :
    Prop where
  full : marks.length = text.length + 1
  ends : ∀ a b, text = a ++ b → (marks[a.length]? = some true ↔
    ∃ before stretch, a = before ++ stretch ∧ Runs foldCase parts stretch)

theorem marks_nil (foldCase : Bool) (text : List Char) :
    Marks foldCase text [] (List.replicate (text.length + 1) true) := by
  refine ⟨List.length_replicate, ?_⟩
  rintro a b rfl
  simp only [GlobPart.runs_nil_iff, List.getElem?_replicate, List.length_append]
  simp [show a.length < a.length + b.length + 1 by omega]

theorem Marks.sweep {parts : List GlobPart} (sound : Marks foldCase text parts marks)
    (part : GlobPart) :
    Marks foldCase text (parts ++ [part]) (Glob.sweep foldCase text marks part) := by
  refine ⟨length_sweep sound.full part, ?_⟩
  rintro a b rfl
  rw [sweep_iff sound.full part]
  simp only [GlobPart.runs_concat_iff]
  constructor
  · rintro ⟨front, run, rfl, marked, takes⟩
    obtain ⟨before, stretch, rfl, runs⟩ := (sound.ends front (run ++ b) (by simp)).mp marked
    exact ⟨before, stretch ++ run, by simp, stretch, run, rfl, runs, takes⟩
  · rintro ⟨before, stretch, rfl, front, run, rfl, runs, takes⟩
    have marked := (sound.ends (before ++ front) (run ++ b) (by simp)).mpr
      ⟨before, front, rfl, runs⟩
    exact ⟨before ++ front, run, by simp, marked, takes⟩

theorem marks_foldl (parts : List GlobPart) {done : List GlobPart}
    (sound : Marks foldCase text done marks) :
    Marks foldCase text (done ++ parts) (parts.foldl (Glob.sweep foldCase text) marks) := by
  induction parts generalizing done marks with
  | nil => simpa using sound
  | cons part parts ih => simpa using ih (sound.sweep part)

/-- Parts occur in a text when they take some stretch of it. -/
theorem occurs_iff (foldCase : Bool) (parts : List GlobPart) (text : List Char) :
    occurs foldCase parts text = true ↔ ∃ stretch, stretch <:+: text ∧ Runs foldCase parts stretch := by
  have sound : Marks foldCase text parts _ := marks_foldl parts (marks_nil foldCase text)
  rw [occurs, List.contains_iff_mem]
  constructor
  · intro mem
    obtain ⟨j, marked⟩ := List.mem_iff_getElem?.mp mem
    obtain ⟨below, -⟩ := List.getElem?_eq_some_iff.mp marked
    have place : (text.take j).length = j := by
      rw [List.length_take]
      have := sound.full
      omega
    obtain ⟨before, stretch, split, runs⟩ :=
      (sound.ends (text.take j) (text.drop j) (List.take_append_drop j text).symm).mp
        (place.symm ▸ marked)
    exact ⟨stretch, ⟨before, text.drop j, by rw [← split, List.take_append_drop]⟩, runs⟩
  · rintro ⟨stretch, ⟨before, after, rfl⟩, runs⟩
    have marked := (sound.ends (before ++ stretch) after rfl).mpr ⟨before, stretch, rfl, runs⟩
    exact List.mem_iff_getElem?.mpr ⟨_, marked⟩

end Sweeps

section Reading
variable {glob stretch run : List Char} {c : Char}

/-- The stretches a glob takes, case apart from case. Two stars stand for a run within a line, a star
that is left for a run within a segment, a question mark for one character of a segment, and any other
character for itself. -/
inductive Takes : List Char → List Char → Prop where
  | done : Takes [] []
  | anyRun {glob stretch run : List Char} : '\n' ∉ run → Takes glob stretch →
      Takes ('*' :: '*' :: glob) (run ++ stretch)
  | segmentRun {glob stretch run : List Char} : glob.head? ≠ some '*' → '/' ∉ run →
      Takes glob stretch → Takes ('*' :: glob) (run ++ stretch)
  | one {glob stretch : List Char} {c : Char} : c ≠ '/' → Takes glob stretch →
      Takes ('?' :: glob) (c :: stretch)
  | literal {glob stretch : List Char} {c : Char} : c ≠ '*' → c ≠ '?' → Takes glob stretch →
      Takes (c :: glob) (c :: stretch)

/-- A glob takes what its parts take. -/
theorem runs_parts_iff : Runs false (parts glob) stretch ↔ Takes glob stretch := by
  fun_induction parts glob generalizing stretch with
  | case1 =>
    rw [GlobPart.runs_nil_iff]
    exact ⟨fun none => none ▸ .done, fun takes => by cases takes; rfl⟩
  | case2 glob ih =>
    rw [GlobPart.runs_cons_iff]
    constructor
    · rintro ⟨run, rest, rfl, line, runs⟩
      exact .anyRun line (ih.mp runs)
    · intro takes
      cases takes with
      | anyRun line rest => exact ⟨_, _, rfl, line, ih.mpr rest⟩
      | segmentRun single => exact absurd rfl single
      | literal star => exact absurd rfl star
  | case3 glob single ih =>
    -- a second star would have made this a pair
    have single : glob.head? ≠ some '*' := by
      cases glob with
      | nil => nofun
      | cons c cs =>
        rintro ⟨rfl⟩
        exact single cs rfl
    rw [GlobPart.runs_cons_iff]
    constructor
    · rintro ⟨run, rest, rfl, segment, runs⟩
      exact .segmentRun single segment (ih.mp runs)
    · intro takes
      cases takes with
      | anyRun => exact absurd rfl single
      | segmentRun _ segment rest => exact ⟨_, _, rfl, segment, ih.mpr rest⟩
      | literal star => exact absurd rfl star
  | case4 glob ih =>
    rw [GlobPart.runs_cons_iff]
    constructor
    · rintro ⟨run, rest, rfl, ⟨c, rfl, segment⟩, runs⟩
      exact .one segment (ih.mp runs)
    · intro takes
      cases takes with
      | one segment rest => exact ⟨_, _, rfl, ⟨_, rfl, segment⟩, ih.mpr rest⟩
      | literal _ mark => exact absurd rfl mark
  | case5 c glob pair star mark ih =>
    rw [GlobPart.runs_cons_iff]
    constructor
    · rintro ⟨run, rest, rfl, ⟨d, rfl, same⟩, runs⟩
      obtain rfl : c = d := by simpa using same
      exact .literal star mark (ih.mp runs)
    · intro takes
      cases takes with
      | literal _ _ rest => exact ⟨_, _, rfl, ⟨_, rfl, by simp⟩, ih.mpr rest⟩
      | anyRun | segmentRun => exact absurd rfl star
      | one => exact absurd rfl mark

structure Trims (outer : Char → Prop) (text inner : List Char) : Prop where
  around : ∃ lead trail, text = lead ++ inner ++ trail ∧ ∀ c ∈ lead ++ trail, outer c
  first : ∀ c ∈ inner.head?, ¬ outer c
  last : ∀ c ∈ inner.getLast?, ¬ outer c

theorem trims_dropWhile (outer : Char → Bool) (text : List Char) :
    Trims (outer · = true) text ((text.dropWhile outer).reverse.dropWhile outer).reverse := by
  have split : text.dropWhile outer = ((text.dropWhile outer).reverse.dropWhile outer).reverse ++
      ((text.dropWhile outer).reverse.takeWhile outer).reverse := by
    rw [← List.reverse_append, List.takeWhile_append_dropWhile, List.reverse_reverse]
  constructor
  case around =>
    refine ⟨text.takeWhile outer, ((text.dropWhile outer).reverse.takeWhile outer).reverse, ?_, ?_⟩
    · rw [List.append_assoc, ← split, List.takeWhile_append_dropWhile]
    · intro c mem
      rcases List.mem_append.mp mem with lead | trail
      · exact List.mem_takeWhile_imp lead
      · exact List.mem_takeWhile_imp (List.mem_reverse.mp trail)
  case first =>
    intro c first
    have head : (text.dropWhile outer).head? = some c := by
      rw [split, List.head?_append, Option.mem_def.mp first]
      rfl
    have stop := List.head?_dropWhile_not outer text
    rw [head] at stop
    simpa using stop
  case last =>
    intro c last
    have stop := List.head?_dropWhile_not outer (text.dropWhile outer).reverse
    rw [List.getLast?_reverse] at last
    rw [Option.mem_def.mp last] at stop
    simpa using stop

theorem Trims.ne_nil_iff {outer : Char → Prop} {text inner : List Char}
    (trims : Trims outer text inner) : inner ≠ [] ↔ ∃ c ∈ text, ¬ outer c := by
  obtain ⟨⟨lead, trail, rfl, around⟩, first, -⟩ := trims
  constructor
  · intro filled
    obtain ⟨c, cs, rfl⟩ := List.exists_cons_of_ne_nil filled
    exact ⟨c, by simp, first c rfl⟩
  · rintro ⟨c, mem, other⟩ rfl
    exact other (around c (by simpa using mem))

theorem exists_normal (glob : String) :
    ∃ bare inner, Trims (Text.isBlank · = true) glob.toList bare ∧ Trims (· = '"') bare inner ∧
      normal glob = inner.map fun c => if c = '\\' then '/' else c := by
  refine ⟨_, _, trims_dropWhile Text.isBlank glob.toList, ?_, rfl⟩
  have quotes := trims_dropWhile (· == '"') (Text.trimChars glob.toList)
  simp only [beq_iff_eq] at quotes
  exact quotes

end Reading

end Glob

namespace GlobSet

/-- Whether a glob that is not blank takes a stretch of the text of a path. -/
def Matches (glob : String) (path : Path) : Prop :=
  (∃ c ∈ glob.toList, Text.isBlank c = false) ∧
    ∃ stretch, stretch <:+: path.slashed.toList ∧ Glob.Takes (Glob.normal glob) stretch

theorem trim_ne_empty_iff {glob : String} :
    Text.trim glob ≠ "" ↔ ∃ c ∈ glob.toList, Text.isBlank c = false := by
  have left : Text.trim glob ≠ "" ↔ Text.trimChars glob.toList ≠ [] := by
    rw [Text.trim, ne_eq, ← String.toList_inj, String.toList_ofList]
    rfl
  have trims := (Glob.trims_dropWhile Text.isBlank glob.toList).ne_nil_iff
  simp only [Bool.not_eq_true] at trims
  exact left.trans trims

theorem matches_iff {glob : String} {path : Path} :
    (Text.trim glob != "") = true ∧ Glob.excludes false glob path = true ↔ Matches glob path := by
  rw [bne_iff_ne, trim_ne_empty_iff, Glob.excludes, Glob.occurs_iff]
  simp only [Glob.runs_parts_iff]
  rfl

/-- Exclusion globs mean what they say. Case apart from case, the glob that is reported for a path is
the first of those given, blank ones passed over, whose normal form takes a stretch of the path with
forward slashes, and none is reported just when there is no such glob. -/
theorem matching?_reports_first (globs : List String) (path : Path) :
    (∀ glob, (ofList globs false).matching? path = some glob ↔
      ∃ before after, globs = before ++ glob :: after ∧ Matches glob path ∧
        ∀ earlier ∈ before, ¬ Matches earlier path) ∧
    ((ofList globs false).matching? path = none ↔ ∀ glob ∈ globs, ¬ Matches glob path) ∧
    ∀ glob, ∃ bare inner, Glob.Trims (Text.isBlank · = true) glob.toList bare ∧
      Glob.Trims (· = '"') bare inner ∧
      Glob.normal glob = inner.map fun c => if c = '\\' then '/' else c := by
  have found : (ofList globs false).matching? path =
      globs.find? fun g =>
        decide ((Text.trim g != "") = true ∧ Glob.excludes false g path = true) :=
    List.find?_filter ..
  have own (glob : String) :
      decide ((Text.trim glob != "") = true ∧ Glob.excludes false glob path = true) = true ↔
        Matches glob path := by rw [decide_eq_true_iff, matches_iff]
  refine ⟨fun glob => ?_, ?_, Glob.exists_normal⟩
  · rw [found, List.find?_eq_some_iff_append, own]
    simp only [Bool.not_eq_true', ← Bool.not_eq_true, own]
    constructor
    · rintro ⟨matched, before, after, split, others⟩
      exact ⟨before, after, split, matched, others⟩
    · rintro ⟨before, after, split, matched, others⟩
      exact ⟨matched, before, after, split, others⟩
  · rw [found, List.find?_eq_none]
    simp only [own]

/-- Three stars are a run within a line and then one within a segment. -/
example : (ofList ["  ", "\"a?/***.h\"", "c"] false).matching? ⟨"x\\ab\\c.h"⟩ =
    some "\"a?/***.h\"" := by
  decide +kernel

end GlobSet

end HeaderMeta
