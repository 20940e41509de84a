import HeaderMeta.Proofs.Origin

/-! The numbers in the report of a pass.

Every type that may have a verdict has one, so the numbers of verdicts add up. Emission goes through
the verdicts one by one: an entry is passed over, given up for a cycle, or has four files. Each file is
written and recorded in one of the umbrella files, or it is counted as lost.
-/

set_option autoImplicit false

namespace HeaderMeta

open Relation

namespace Verdicts
variable {vs : Verdicts}

section Names
variable {α : Type} {as : List α} {key : α → String} {value : α → Verdict}

theorem map_foldl_insert (vs : Verdicts) (fresh : (vs.entries.map (·.1) ++ as.map key).Nodup) :
    (as.foldl (fun vs a => vs.insert (key a) (value a)) vs).entries.map (·.1) =
      vs.entries.map (·.1) ++ as.map key := by
  induction as generalizing vs with
  | nil => simp
  | cons a as ih =>
    have unknown : key a ∉ vs.entries.map (·.1) := fun known =>
      (List.nodup_append.mp fresh).2.2 _ known _ List.mem_cons_self rfl
    have entered : (vs.insert (key a) (value a)).entries.map (·.1) =
        vs.entries.map (·.1) ++ [key a] := by
      rw [insert, map_insertIn, if_neg unknown]
    rw [List.foldl_cons, ih, entered, List.map_cons, List.append_assoc]
    · rfl
    · rwa [entered, List.append_assoc]

theorem map_foldl_insert_of_known (key : α → String) (value : α → Verdict)
    (known : ∀ a ∈ as, key a ∈ vs.entries.map (·.1)) :
    (as.foldl (fun vs a => vs.insert (key a) (value a)) vs).entries.map (·.1) =
      vs.entries.map (·.1) := by
  induction as generalizing vs with
  | nil => rfl
  | cons a as ih =>
    obtain ⟨first, rest⟩ := List.forall_mem_cons.mp known
    have entered : (vs.insert (key a) (value a)).entries.map (·.1) = vs.entries.map (·.1) := by
      rw [insert, map_insertIn, if_pos first]
    rw [List.foldl_cons, ih, entered]
    rwa [entered]

end Names

/-- Just the types that may have a verdict have one, each of them one. -/
theorem map_ofModule (policy : PolicyConfig) (texts : HeaderTexts) (index : TypeIndex)
    (isCandidate : Path → Bool) (distinct : index.names.Nodup) :
    (ofModule policy texts index isCandidate).entries.map (·.1) =
      (index.eligible isCandidate).map IndexedType.name := by
  have apart : ((index.eligible isCandidate).map IndexedType.name).Nodup :=
    distinct.sublist ((List.filter_sublist.trans List.filter_sublist).map _)
  have entered : (plain policy texts index isCandidate).entries.map (·.1) =
      (index.eligible isCandidate).map IndexedType.name :=
    map_foldl_insert {} (by simpa using apart)
  refine Eq.trans ?_ entered
  exact map_foldl_insert_of_known id (fun _ => .dummyRequired)
    fun name promoted => known_of_mem_basesToPromote promoted

end Verdicts

namespace Survey
variable {s : Survey}

end Survey

namespace Emission
variable {config : Config} {s : Survey} {e : Emission} {decl : TypeDecl} {c : Classification}

def files (e : Emission) : Nat :=
  e.artifactsWritten + e.writeFailures

/-- Just the files that are written are recorded. -/
theorem umbrella_foldl_write (e : Emission) (all : List Artifact) :
    (all.foldl write e).umbrella = (e.written all).foldl Umbrella.record e.umbrella := by
  fun_induction written e all with
  | case1 => rfl
  | case2 e a rest wrote ih => rw [List.foldl_cons, ih, (write_of_ok wrote).2, List.foldl_cons]
  | case3 e a rest cause failed ih => rw [List.foldl_cons, ih, (write_of_error failed).2]

end Emission

namespace Umbrella

def overrideLines (u : Umbrella) (byHand : List Path) (toHeader : Bool) : List String :=
  (byHand.filter fun p => overrideSide? p = some toHeader).map fun p =>
    includeLine (relativeInclude p u.outputDir)

def generatedLines (u : Umbrella) (files : List Artifact) (toHeader : Bool) : List String :=
  (files.filter fun a => a.kind.isHeader = toHeader).map fun a =>
    includeLine (relativeInclude a.path u.outputDir)

def textOf (u : Umbrella) (byHand : List Path) (files : List Artifact) (toHeader : Bool) : String :=
  (if toHeader then headerSeed u.platformInclude else implSeed) ++
    String.join (u.overrideLines byHand toHeader ++ u.generatedLines files toHeader)

theorem Frame.putBoth {u w : Umbrella} (frame : u.Frame w) (v : Volume)
    (header impl : String) : w.putBoth v header impl = u.putBoth v header impl := by
  rw [Umbrella.putBoth, Umbrella.putBoth, headerPath, headerPath, implPath, implPath,
    frame.outputDir, frame.implMode]

end Umbrella

namespace Pass
variable {v w : Volume} {config : Config} {m : SourceModule} {s : Survey} {u : Umbrella}

theorem texts_emitted (config : Config) (s : Survey) (w : Volume)
    (fresh : ∀ which, u.side which = []) :
    u.Frame (emitted config s u w).umbrella ∧
      (emitted config s u w).umbrella.headerText = u.textOf (u.overrides w)
        ((begun config u w).written (s.artifacts config u.outputDir)) true ∧
      (emitted config s u w).umbrella.implText = u.textOf (u.overrides w)
        ((begun config u w).written (s.artifacts config u.outputDir)) false := by
  have recorded : (emitted config s u w).umbrella =
      ((begun config u w).written (s.artifacts config u.outputDir)).foldl Umbrella.record
        (begun config u w).umbrella :=
    (emitted_agrees config s u w).umbrella.trans (Emission.umbrella_foldl_write _ _)
  have merged : (begun config u w).umbrella = (u.overrides w).foldl Umbrella.addOverride u := rfl
  have first := frame_begun config u w
  have frame : u.Frame (emitted config s u w).umbrella :=
    recorded ▸ first.trans (Umbrella.frame_foldl Umbrella.frame_record _ _)
  -- the lines of the overrides come first, those of the generated files after them
  have sides (which : Bool) :
      ((emitted config s u w).umbrella.side which).map Umbrella.includeLine =
        u.overrideLines (u.overrides w) which ++
          u.generatedLines ((begun config u w).written (s.artifacts config u.outputDir)) which := by
    rw [recorded, Umbrella.side_foldl_record, first.outputDir, merged,
      Umbrella.side_foldl_addOverride, fresh]
    simp [Umbrella.overrideLines, Umbrella.generatedLines, Function.comp_def]
  refine ⟨frame, ?_, ?_⟩
  · rw [Umbrella.headerText, frame.platformInclude, Umbrella.textOf, ← sides]
    rfl
  · rw [Umbrella.implText, Umbrella.textOf, ← sides]
    rfl

/-- The numbers of a report for a survey, against what they stand for. -/
structure AddsUp (v : Volume) (config : Config) (m : SourceModule) (s : Survey) (r : PassResult) :
    Prop where
  counted : r.report.reflectable = s.verdicts.count (· = .reflectable) ∧
    r.report.dummy = s.verdicts.count (· = .dummyRequired) ∧
    r.report.noReflect = s.verdicts.count Verdict.isNoReflect ∧
    r.report.typesDiscovered = (s.index.candidates (Survey.candidatePaths s.scan).contains).length
  /-- Each candidate that is accessible and no template has one verdict. -/
  verdicts : r.report.reflectable + r.report.dummy + r.report.noReflect =
    ((s.index.candidates (Survey.candidatePaths s.scan).contains).filter fun t =>
      !t.templated && t.accessible).length
  discovered : r.report.reflectable + r.report.dummy + r.report.noReflect ≤
    r.report.typesDiscovered
  /-- Each type that is not given up has its four files, be they written or not. -/
  files : r.report.artifactsWritten + r.report.writeFailures =
    4 * (r.report.reflectable + r.report.dummy - r.report.typeFailures)
  /-- The types that are given up are the reflectable ones that lead into a cycle. -/
  cyclic : ∃ names : List String, names.Nodup ∧ names.length = r.report.typeFailures ∧
    ∀ name, name ∈ names ↔ s.verdicts.get? name = some .reflectable ∧
      ∃ a, ReflTransGen s.index.Nests name a ∧ TransGen s.index.Nests a a
  givenUp : r.report.typeFailures ≤ r.report.reflectable
  /-- The umbrella files are written at last, with a line for each generated file that was written. -/
  listed : ∃ (byHand : List Path) (files : List Artifact) (before : Volume),
    let u := Umbrella.ofModule m config
    files.Sublist (s.artifacts config u.outputDir) ∧
    u.putBoth before (u.textOf byHand files true) (u.textOf byHand files false) =
      (r.volume, none) ∧
    (v.Plain → r.volume.readText u.headerPath = .ok (u.textOf byHand files true) ∧
      r.volume.readText u.implPath = .ok (u.textOf byHand files false)) ∧
    (u.generatedLines files true).length + (u.generatedLines files false).length =
      r.report.artifactsWritten

theorem AddsUp.congr {r t : PassResult} {reason : Option String} (adds : AddsUp v config m s r)
    (volume : t.volume = r.volume) (report : t.report = { r.report with aborted := reason }) :
    AddsUp v config m s t := by
  obtain ⟨counted, verdicts, discovered, files, cyclic, givenUp, listed⟩ := adds
  constructor <;> rw [report]
  · exact counted
  · exact verdicts
  · exact discovered
  · exact files
  · exact cyclic
  · exact givenUp
  · rw [volume]
    exact listed

end Pass

end HeaderMeta
