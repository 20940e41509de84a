import HeaderMeta.Pass

/-! What a pass generates, apart from whether it can be written.

`Survey.artifacts` lists the files of a survey in the order in which they are generated. Emission
writes just these (`Emission.all_agrees`), and a type has files just when its verdict asks for some
and, for a reflectable type, no cycle of nested members can be reached from it.
-/

set_option autoImplicit false

namespace HeaderMeta

namespace Survey

/-- The type of an entry as it is generated, if it is. -/
def target? (s : Survey) (entry : String × Verdict) : Option (TypeDecl × Classification) :=
  match entry.2.emits, s.index.decl? entry.1 with
  | true, some decl =>
    if entry.2 = .reflectable then
      match s.index.checkNestedCycles entry.1 with
      | .error _ => none
      | .ok () => some (decl, Classification.ofType decl s.verdicts)
    else some (decl, {})
  | _, _ => none

def artifactsFrom (config : Config) (s : Survey) (dir : Path) :
    Stems → List (String × Verdict) → List Artifact
  | _, [] => []
  | stems, entry :: rest =>
    match s.target? entry with
    | none => artifactsFrom config s dir stems rest
    | some (decl, c) =>
      Artifact.generate config.emit dir decl entry.2 c (stems.allocate decl).1 ++
        artifactsFrom config s dir (stems.allocate decl).2 rest

def artifacts (config : Config) (s : Survey) (dir : Path) : List Artifact :=
  s.artifactsFrom config dir { foldCase := config.scan.caseRule.isInsensitive } s.verdicts.entries

/-- All four files of a type are generated. -/
def Generates (config : Config) (s : Survey) (dir : Path) (name : String) : Prop :=
  ∀ kind, ∃ a ∈ s.artifacts config dir, a.kind = kind ∧ a.typeName = name

theorem decl?_of_target? {s : Survey} {entry : String × Verdict} {decl : TypeDecl}
    {c : Classification}
    (target : s.target? entry = some (decl, c)) : s.index.decl? entry.1 = some decl := by
  unfold target? at target
  split at target
  next found =>
    split at target
    · split at target <;> cases target
      exact found
    · cases target
      exact found
  next => cases target

end Survey

namespace Emission

/-- Two emissions with the same output; what was reported and which stems are in use may differ. -/
structure Agrees (a b : Emission) : Prop where
  volume : a.volume = b.volume
  umbrella : a.umbrella = b.umbrella
  artifactsWritten : a.artifactsWritten = b.artifactsWritten
  writeFailures : a.writeFailures = b.writeFailures

section Agrees
variable {a b c e : Emission}

theorem Agrees.refl (e : Emission) : Agrees e e :=
  ⟨rfl, rfl, rfl, rfl⟩

theorem Agrees.trans (first : Agrees a b) (second : Agrees b c) : Agrees a c :=
  ⟨first.volume.trans second.volume, first.umbrella.trans second.umbrella,
    first.artifactsWritten.trans second.artifactsWritten,
    first.writeFailures.trans second.writeFailures⟩

theorem Agrees.write (agrees : Agrees a b) (x : Artifact) : Agrees (a.write x) (b.write x) := by
  obtain ⟨volume, umbrella, written, failures⟩ := agrees
  unfold Emission.write
  rw [volume]
  split
  · exact ⟨rfl, by rw [umbrella], by rw [written], failures⟩
  · exact ⟨rfl, umbrella, written, by rw [failures]⟩

theorem Agrees.foldl_write (agrees : Agrees a b) (xs : List Artifact) :
    Agrees (xs.foldl Emission.write a) (xs.foldl Emission.write b) := by
  induction xs generalizing a b with
  | nil => exact agrees
  | cons x xs ih => exact ih (agrees.write x)

end Agrees

@[simp] theorem stems_write (e : Emission) (x : Artifact) : (e.write x).stems = e.stems := by
  unfold write
  split <;> rfl

@[simp] theorem outputDir_add (u : Umbrella) (toHeader : Bool) (p : Path) :
    (u.add toHeader p).outputDir = u.outputDir := by
  unfold Umbrella.add
  dsimp only
  split <;> rfl

@[simp] theorem outputDir_write (e : Emission) (x : Artifact) :
    (e.write x).umbrella.outputDir = e.umbrella.outputDir := by
  unfold write
  split
  · exact outputDir_add _ _ _
  · rfl

theorem stems_foldl_write (xs : List Artifact) (e : Emission) :
    (xs.foldl write e).stems = e.stems := by
  induction xs generalizing e with
  | nil => rfl
  | cons x xs ih => exact (ih (e.write x)).trans (stems_write e x)

theorem outputDir_foldl_write (xs : List Artifact) (e : Emission) :
    (xs.foldl write e).umbrella.outputDir = e.umbrella.outputDir := by
  induction xs generalizing e with
  | nil => rfl
  | cons x xs ih => exact (ih (e.write x)).trans (outputDir_write e x)

theorem emit_eq (config : Config) (decl : TypeDecl) (verdict : Verdict) (c : Classification)
    (e : Emission) :
    e.emit config decl verdict c =
      (Artifact.generate config.emit e.umbrella.outputDir decl verdict c
        (e.stems.allocate decl).1).foldl write { e with stems := (e.stems.allocate decl).2 } :=
  rfl

/-- One entry is passed over, or its files are written under the next stem. -/
theorem addType_cases (config : Config) (s : Survey) (e : Emission) (entry : String × Verdict) :
    (s.target? entry = none ∧ Agrees (addType config s e entry) e ∧
        (addType config s e entry).stems = e.stems) ∨
      ∃ decl c said, s.target? entry = some (decl, c) ∧ Agrees said e ∧ said.stems = e.stems ∧
        addType config s e entry = said.emit config decl entry.2 c := by
  obtain ⟨name, verdict⟩ := entry
  cases emits : verdict.emits with
  | false =>
    have passed : addType config s e (name, verdict) = e := by simp only [addType, emits]
    rw [passed]
    exact .inl ⟨by simp only [Survey.target?, emits], .refl e, rfl⟩
  | true =>
    cases found : s.index.decl? name with
    | none =>
      have passed : addType config s e (name, verdict) = e := by simp only [addType, emits, found]
      rw [passed]
      exact .inl ⟨by simp only [Survey.target?, emits, found], .refl e, rfl⟩
    | some decl =>
      by_cases full : verdict = .reflectable
      · cases cyclic : s.index.checkNestedCycles name with
        | error failure =>
          simp only [addType, Survey.target?, found, full, cyclic, if_true]
          exact .inl ⟨rfl, ⟨rfl, rfl, rfl, rfl⟩, rfl⟩
        | ok fine =>
          simp only [addType, Survey.target?, found, full, cyclic, if_true]
          let c := Classification.ofType decl s.verdicts
          exact .inr ⟨decl, c, e.say (c.skipLog decl), rfl, ⟨rfl, rfl, rfl, rfl⟩, rfl, rfl⟩
      · simp only [addType, Survey.target?, emits, found, full, if_false]
        exact .inr ⟨decl, {}, e, rfl, .refl e, rfl, rfl⟩

theorem foldl_addType_agrees (config : Config) (s : Survey) (entries : List (String × Verdict))
    (e : Emission) :
    Agrees (entries.foldl (addType config s) e)
      ((s.artifactsFrom config e.umbrella.outputDir e.stems entries).foldl write e) := by
  induction entries generalizing e with
  | nil => exact .refl e
  | cons entry rest ih =>
    rw [List.foldl_cons, Survey.artifactsFrom]
    refine (ih (addType config s e entry)).trans ?_
    rcases addType_cases config s e entry with
      ⟨passed, agrees, stems⟩ | ⟨decl, c, said, target, agrees, stems, emitted⟩
    · rw [passed, agrees.umbrella, stems]
      exact agrees.foldl_write _
    · rw [emitted, emit_eq, agrees.umbrella, stems, target, List.foldl_append]
      generalize Artifact.generate config.emit _ decl entry.2 c _ = files
      have same : Agrees { said with umbrella := e.umbrella, stems := (e.stems.allocate decl).2 } e :=
        ⟨agrees.volume, rfl, agrees.artifactsWritten, agrees.writeFailures⟩
      rw [outputDir_foldl_write, stems_foldl_write]
      exact (same.foldl_write files).foldl_write _

/-- Emission writes the files of the survey and nothing else. -/
theorem all_agrees (config : Config) (s : Survey) (e : Emission)
    (stems : e.stems = { foldCase := config.scan.caseRule.isInsensitive }) :
    Agrees (all config s e) ((s.artifacts config e.umbrella.outputDir).foldl write e) := by
  have agrees := foldl_addType_agrees config s s.verdicts.entries e
  rwa [stems] at agrees

end Emission

end HeaderMeta
