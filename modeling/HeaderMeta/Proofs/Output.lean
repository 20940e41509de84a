import HeaderMeta.Proofs.Output.Finishing
import HeaderMeta.Proofs.Output.Settled

/-! What a pass leaves in the output directory of its module.

The directory is cleared, the generated files are written into it one by one, and the umbrella files
list what was written. After every pass that is not given up, on a volume without links, the directory
is settled.
-/

set_option autoImplicit false

namespace HeaderMeta

open HeaderMeta.Path (IsName EndsIn)
open Volume (Fits)

theorem Umbrella.Writable.of_frame {u w : Umbrella} {v : Volume} {d : Location}
    {header impl : String} (writable : u.Writable v d header impl) (frame : u.Frame w) :
    w.Writable v d header impl := by
  obtain ⟨header, impl⟩ := writable
  rw [← frame.outputDir] at header
  rw [← frame.outputDir, ← frame.implMode] at impl
  exact ⟨header, impl⟩

theorem Umbrella.mergeOverrides_of_ok {u : Umbrella} {v : Volume} {files : List Path}
    (all : u.collected v = .ok files) :
    ∃ merged log, u.mergeOverrides v = ((u.overrides v).foldl addOverride u, .ok merged, log) := by
  rw [mergeOverrides, all, overrides_of_ok all]
  exact ⟨_, _, rfl⟩

section Modules
variable (m : SourceModule) (config : Config)

theorem Umbrella.outputDir_ofModule :
    (ofModule m config).outputDir = m.outputDir.normalize := by
  simp only [ofModule]

theorem Umbrella.overrideDir_ofModule :
    (ofModule m config).overrideDir = m.overrideDir.normalize := by
  simp only [ofModule]

theorem Umbrella.endsIn_ofModule : (ofModule m config).outputDir.EndsIn outputDirName := by
  rw [outputDir_ofModule]
  exact Path.outputDir_endsIn m

theorem Umbrella.inside_ofModule :
    (ofModule m config).overrideDir = (ofModule m config).outputDir.child overrideDirName := by
  rw [outputDir_ofModule, overrideDir_ofModule, Path.normalize_overrideDir]

theorem Umbrella.side_ofModule (which : Bool) : (ofModule m config).side which = [] := by
  cases which <;> rfl

end Modules

namespace Pass
variable {config : Config} {s : Survey} {u : Umbrella} {v w : Volume} {d : Location}

def begun (config : Config) (u : Umbrella) (prepared : Volume) : Emission where
  volume := prepared
  umbrella := (u.overrides prepared).foldl Umbrella.addOverride u
  stems := { foldCase := config.scan.caseRule.isInsensitive }

def emitted (config : Config) (s : Survey) (u : Umbrella) (prepared : Volume) : Emission :=
  Emission.all config s (begun config u prepared)

theorem frame_begun (config : Config) (u : Umbrella) (prepared : Volume) :
    u.Frame (begun config u prepared).umbrella :=
  Umbrella.frame_foldl Umbrella.frame_addOverride _ u

theorem emitted_agrees (config : Config) (s : Survey) (u : Umbrella) (prepared : Volume) :
    Emission.Agrees (emitted config s u prepared)
      ((s.artifacts config u.outputDir).foldl Emission.write (begun config u prepared)) := by
  have agrees := Emission.all_agrees config s (begun config u prepared) rfl
  rwa [(frame_begun config u prepared).outputDir] at agrees

theorem exists_emitted (config : Config) (ends : u.outputDir.EndsIn outputDirName)
    (spelled : ∀ name decl, s.index.decl? name = some decl → decl.Spelled) (plain : w.Plain)
    (found : w.dirOf? u.outputDir = some d) :
    (∀ a ∈ s.artifacts config u.outputDir, a.LiesIn u.outputDir) ∧
      ((s.artifacts config u.outputDir).map Artifact.fileName).Nodup ∧
      ∃ written e, e.volume = w ∧ e.umbrella = (u.overrides w).foldl Umbrella.addOverride u ∧
        e.artifactsWritten = 0 ∧ e.writeFailures = 0 ∧
        Emission.Writes u.outputDir d (s.artifacts config u.outputDir) written e
          (emitted config s u w) := by
  have placed (a : Artifact) (mem : a ∈ s.artifacts config u.outputDir) : a.LiesIn u.outputDir :=
    Survey.liesIn_of_mem spelled mem
  have distinct : ((s.artifacts config u.outputDir).map Artifact.fileName).Nodup :=
    Survey.nodup_fileNames spelled _ _
  obtain ⟨written, writes⟩ :=
    Emission.exists_writes (e := begun config u w) ends placed distinct plain found
  exact ⟨placed, distinct, written, begun config u w, rfl, rfl, rfl, rfl,
    writes.of_agrees (emitted_agrees config s u w)⟩

section Outcome
variable {m : SourceModule}

theorem output_of_error {e : OutputError} {log : Log}
    (ready : (Umbrella.ofModule m config).prepare v = (w, .error e, log)) :
    (output v config m s).abort = some (.output e) := by
  unfold output
  rw [ready]

theorem output_of_unlisted {e : OutputError} {removed : Nat} {log : Log}
    (ready : (Umbrella.ofModule m config).prepare v = (w, .ok removed, log))
    (lost : (Umbrella.ofModule m config).collected w = .error e) :
    (output v config m s).volume = w ∧ (output v config m s).abort = some (.output e) := by
  unfold output
  rw [ready]
  dsimp only
  rw [Umbrella.mergeOverrides, lost]
  exact ⟨rfl, rfl⟩

theorem output_of_ok {removed : Nat} {log last : Log} {final : Volume} {error : Option OutputError}
    {files : List Path} (ready : (Umbrella.ofModule m config).prepare v = (w, .ok removed, log))
    (all : (Umbrella.ofModule m config).collected w = .ok files)
    (ended : (emitted config s (Umbrella.ofModule m config) w).umbrella.finalize
      (emitted config s (Umbrella.ofModule m config) w).volume = (final, error, last)) :
    (output v config m s).volume = final ∧ (output v config m s).abort = error.map .output ∧
      (output v config m s).report.artifactsWritten =
        (emitted config s (Umbrella.ofModule m config) w).artifactsWritten ∧
      (output v config m s).report.writeFailures =
        (emitted config s (Umbrella.ofModule m config) w).writeFailures := by
  obtain ⟨merged, said, combined⟩ := Umbrella.mergeOverrides_of_ok all
  unfold output
  rw [ready]
  dsimp only
  rw [combined]
  unfold emitted begun at ended ⊢
  dsimp only
  rw [ended]
  exact ⟨rfl, rfl, rfl, rfl⟩

/-- A pass that is not given up has prepared its directory, found its hand-written files and written
its umbrella files. -/
theorem exists_of_finished (finished : (output v config m s).abort = none) :
    ∃ w removed log files last, (Umbrella.ofModule m config).prepare v = (w, .ok removed, log) ∧
      (Umbrella.ofModule m config).collected w = .ok files ∧
      (emitted config s (Umbrella.ofModule m config) w).umbrella.finalize
        (emitted config s (Umbrella.ofModule m config) w).volume =
          ((output v config m s).volume, none, last) ∧
      (output v config m s).report.artifactsWritten =
        (emitted config s (Umbrella.ofModule m config) w).artifactsWritten ∧
      (output v config m s).report.writeFailures =
        (emitted config s (Umbrella.ofModule m config) w).writeFailures := by
  cases ready : (Umbrella.ofModule m config).prepare v with
  | mk w rest =>
    obtain ⟨error | removed, log⟩ := rest
    · rw [output_of_error ready] at finished
      cases finished
    · cases all : (Umbrella.ofModule m config).collected w with
      | error e =>
        rw [(output_of_unlisted ready all).2] at finished
        cases finished
      | ok files =>
        cases ended : (emitted config s (Umbrella.ofModule m config) w).umbrella.finalize
            (emitted config s (Umbrella.ofModule m config) w).volume with
        | mk final rest =>
          obtain ⟨error, last⟩ := rest
          obtain ⟨rfl, abort, counted, failed⟩ := output_of_ok ready all ended
          rw [abort] at finished
          obtain rfl : error = none := Option.map_eq_none_iff.mp finished
          exact ⟨w, removed, log, files, last, rfl, all, ended, counted, failed⟩

end Outcome

theorem putBoth_of_finalize {final : Volume} {last : Log}
    (ended : u.finalize w = (final, none, last)) :
    u.putBoth w u.headerText u.implText = (final, none) := by
  unfold Umbrella.finalize at ended
  split at ended
  next => cases ended
  next written =>
    cases ended
    exact written

/-- The umbrella texts when the last file was written. -/
theorem texts_of_writes {prepared : Volume} {all written : List Artifact} {e final : Emission}
    (fresh : ∀ which, u.side which = [])
    (placed : ∀ a ∈ all, a.LiesIn u.outputDir)
    (writes : Emission.Writes u.outputDir d all written e final)
    (merged : e.umbrella = (u.overrides prepared).foldl Umbrella.addOverride u) :
    u.Frame final.umbrella ∧
      ∀ which, final.umbrella.side which = u.includes prepared written which := by
  have first : u.Frame e.umbrella := merged ▸ Umbrella.frame_foldl Umbrella.frame_addOverride _ u
  have second : e.umbrella.Frame final.umbrella :=
    writes.umbrella ▸ Umbrella.frame_foldl Umbrella.frame_record _ _
  refine ⟨first.trans second, fun which => ?_⟩
  have own (a : Artifact) (mem : a ∈ written) : a.LiesIn e.umbrella.outputDir :=
    first.outputDir ▸ placed a (writes.order.subset mem)
  have recorded := Umbrella.side_foldl_record_of_liesIn e.umbrella which own
  rw [writes.umbrella, recorded, merged, Umbrella.side_foldl_addOverride, fresh, List.nil_append,
    Umbrella.includes]

/-- The umbrella files of what was written finish a directory that was prepared. -/
theorem settled_of_finalize {r : PassResult} {final : Volume} {last log : Log} {removed : Nat}
    {files : List Path}
    (ends : u.outputDir.EndsIn outputDirName)
    (inside : u.overrideDir = u.outputDir.child overrideDirName)
    (fresh : ∀ which, u.side which = [])
    (spelled : ∀ name decl, s.index.decl? name = some decl → decl.Spelled) (plain : v.Plain)
    (ready : u.prepare v = (w, .ok removed, log)) (byHand : u.collected w = .ok files)
    (ended : (emitted config s u w).umbrella.finalize (emitted config s u w).volume =
      (final, none, last))
    (volume : r.volume = final)
    (counted : r.report.artifactsWritten = (emitted config s u w).artifactsWritten)
    (failed : r.report.writeFailures = (emitted config s u w).writeFailures) :
    ∃ written d, u.Settled v (s.artifacts config u.outputDir) written d r := by
  obtain ⟨made, d, -, grown, filled⟩ := Umbrella.prepare_ok ends plain ready
  have plain' := filled.plain
  have found := (filled.toKeeps.dirOf? _).trans filled.found
  obtain ⟨placed, distinct, written, e, rfl, merged, noneWritten, noneFailed, writes⟩ :=
    exists_emitted config ends spelled plain' found
  obtain ⟨frame, sides⟩ := texts_of_writes fresh placed writes merged
  -- the files of the umbrella go where the others are, as recording leaves its directory alone
  generalize emitted config s u e.volume = made at ended counted failed writes frame sides
  obtain ⟨d', found', ⟨⟨⟨fitsHeader, -, -⟩, -⟩, ⟨⟨fitsImpl, -, -⟩, -⟩⟩, tends, got⟩ :=
    Umbrella.putBoth_ok (frame.outputDir ▸ ends) writes.tends.plain (putBoth_of_finalize ended)
  rw [frame.outputDir] at found' fitsHeader fitsImpl
  rw [frame.implMode] at fitsImpl got
  obtain rfl : d' = d :=
    Option.some_inj.mp (found'.symm.trans ((writes.tends.toKeeps.dirOf? _).trans found))
  have changed := writes.tends.trans tends
  have same : u.collected final = u.collected e.volume :=
    Umbrella.collected_of_tends plain' changed ends inside found
  have sameOverrides : u.overrides final = u.overrides e.volume := by
    rw [Umbrella.overrides, Umbrella.overrides, same]
  have own (a : Artifact) (mem : a ∈ written) := placed a (writes.order.subset mem)
  -- an override lies in a directory below, so its include is none of a generated file
  have apart (a : Artifact) (mem : a ∈ s.artifacts config u.outputDir) (p : Path)
      (byHand : p ∈ u.overrides final) : relativeInclude p u.outputDir ≠ a.fileName := by
    have slash := Umbrella.slash_mem_override changed.plain ends inside p byHand
    exact fun same => (placed a mem).isName.noSlash (same ▸ slash)
  have texts (which : Bool) : made.umbrella.side which = u.includes final written which := by
    rw [sides, Umbrella.includes, Umbrella.includes, sameOverrides]
  obtain ⟨header, impl⟩ := Umbrella.texts_of_sides frame texts
  rw [header, impl] at got
  refine ⟨written, d', ?_⟩
  constructor
  case located =>
    have reach := Umbrella.fits_outputDir ends Umbrella.isName_umbrellaHeader fitsHeader
    rw [volume]
    exact (Volume.locate_of_dirOf? changed.plain Path.isName_outputDirName ends reach
      ((changed.toKeeps.dirOf? _).trans found)).1
  case order => exact writes.order
  case wrote =>
    intro a mem
    rw [volume, writes.mem_iff a mem, changed.toKeeps.accepts_iff]
  case counted => rw [counted, writes.counted, noneWritten, Nat.zero_add]
  case failed => rw [failed, writes.failed, noneFailed, Nat.zero_add]
  case distinct =>
    rw [volume]
    exact Umbrella.distinct_holdings own (distinct.sublist (writes.order.map _))
  case held =>
    rw [volume]
    exact Umbrella.held_iff writes got placed changed.toKeeps filled.clean fitsHeader fitsImpl
  case beyond =>
    intro name bytes unfit there
    rw [volume, Umbrella.get?_of_unfit writes got unfit fitsHeader fitsImpl]
    exact (filled.beyond name unfit).trans (grown.keeps _ _ there)
  case merged =>
    have all := same.trans byHand
    rw [volume, all, Umbrella.overrides_of_ok all]
  case sorted => exact Umbrella.pairwise_overrides u _
  case listed =>
    rw [volume]
    exact fun a mem => Umbrella.count_includes apart writes.order distinct mem
  case unlisted =>
    rw [volume]
    exact fun a mem lost => Umbrella.not_mem_includes apart writes.order distinct mem lost

theorem exists_finalize (config : Config) (ends : u.outputDir.EndsIn outputDirName)
    (spelled : ∀ name decl, s.index.decl? name = some decl → decl.Spelled) (plain : w.Plain)
    (found : w.dirOf? u.outputDir = some d)
    (writable : u.Writable w d (emitted config s u w).umbrella.headerText
      (emitted config s u w).umbrella.implText) :
    ∃ final last, (emitted config s u w).umbrella.finalize (emitted config s u w).volume =
      (final, none, last) ∧ Volume.Tends d w final := by
  obtain ⟨-, -, written, e, rfl, merged, -, -, writes⟩ :=
    exists_emitted config ends spelled plain found
  generalize emitted config s u e.volume = made at writes writable ⊢
  have frame : u.Frame made.umbrella := by
    rw [writes.umbrella, merged]
    exact (Umbrella.frame_foldl Umbrella.frame_addOverride _ u).trans
      (Umbrella.frame_foldl Umbrella.frame_record _ _)
  have ends' := frame.outputDir ▸ ends
  have found' : made.volume.dirOf? made.umbrella.outputDir = some d := by
    rw [frame.outputDir, writes.tends.toKeeps.dirOf?, found]
  obtain ⟨final, put⟩ := Umbrella.exists_putBoth ends' writes.tends.plain found'
    ((writable.of_keeps writes.tends.toKeeps).of_frame frame)
  obtain ⟨d', same, -, tends, -⟩ := Umbrella.putBoth_ok ends' writes.tends.plain put
  obtain rfl : d' = d := Option.some_inj.mp (same.symm.trans found')
  rw [Umbrella.finalize, put]
  exact ⟨final, _, rfl, writes.tends.trans tends⟩

section Runs
variable {m : SourceModule} {follow : Bool}

theorem output_settles
    (spelled : ∀ name decl, s.index.decl? name = some decl → decl.Spelled) (plain : v.Plain)
    (finished : (output v config m s).abort = none) :
    ∃ written d, (Umbrella.ofModule m config).Settled v
      (s.artifacts config (Umbrella.ofModule m config).outputDir) written d
      (output v config m s) := by
  obtain ⟨w, removed, log, files, last, ready, byHand, ended, counted, failed⟩ :=
    exists_of_finished finished
  exact settled_of_finalize (Umbrella.endsIn_ofModule m config) (Umbrella.inside_ofModule m config)
    (Umbrella.side_ofModule m config) spelled plain ready byHand ended rfl counted failed

theorem spelled_ofScan {scan : Scan} {log : Log}
    (surveyed : Survey.ofScan v config m follow scan = (.ok s, log)) (name : String)
    (decl : TypeDecl) (found : s.index.decl? name = some decl) : decl.Spelled := by
  unfold Survey.ofScan at surveyed
  dsimp only at surveyed
  split at surveyed
  next => cases surveyed
  next tree _ read =>
    cases surveyed
    exact (TypeIndex.spelled_ofRoot (HeaderTree.spelled_read read) found).1

theorem steps_of_ok {scan : Scan} {scanned log : Log}
    (found : Scan.ofModule v m config.scan.extensions = .ok (scan, scanned))
    (surveyed : Survey.ofScan v config m follow scan = (.ok s, log)) :
    steps v config follow m =
      { output v config m s with log := scanned ++ log ++ (output v config m s).log } := by
  unfold steps
  rw [found]
  dsimp only
  rw [surveyed]

theorem exists_survey (finished : (steps v config follow m).abort = none) :
    ∃ scan scanned survey log, Scan.ofModule v m config.scan.extensions = .ok (scan, scanned) ∧
      Survey.ofScan v config m follow scan = (.ok survey, log) := by
  unfold steps at finished
  split at finished
  next => cases finished
  next scan scanned found =>
    split at finished
    next => cases finished
    next survey log surveyed => exact ⟨scan, scanned, survey, log, found, surveyed⟩

/-- The report of a pass names what stopped it, and nothing else of the outcome changes. -/
theorem run_eq (v : Volume) (config : Config) (follow : Bool) (m : SourceModule) :
    (run v config follow m).volume = (steps v config follow m).volume ∧
      (run v config follow m).abort = (steps v config follow m).abort ∧
      (run v config follow m).report.artifactsWritten =
        (steps v config follow m).report.artifactsWritten ∧
      (run v config follow m).report.writeFailures =
        (steps v config follow m).report.writeFailures := by
  unfold run
  dsimp only
  exact ⟨rfl, rfl, rfl, rfl⟩

/-- A pass over headers that can be read goes through when its output directory exists and takes the
umbrella files, what is listed can be and there is room for them. Then files come and go there only. -/
theorem run_finishes {scan : Scan} {scanned log : Log} {files : List Path} (plain : v.Plain)
    (found : Scan.ofModule v m config.scan.extensions = .ok (scan, scanned))
    (surveyed : Survey.ofScan v config m follow scan = (.ok s, log))
    (there : v.dirOf? (Umbrella.ofModule m config).outputDir = some d)
    (listable : Volume.Listable v d) (byHand : (Umbrella.ofModule m config).collected v = .ok files)
    (header : v.Admits (Umbrella.ofModule m config).outputDir d umbrellaHeader)
    (impl : v.Admits (Umbrella.ofModule m config).outputDir d
      (Umbrella.ofModule m config).implMode.umbrellaName)
    (room : ∀ name ∈ [umbrellaHeader, (Umbrella.ofModule m config).implMode.umbrellaName], ∀ bytes,
      v.faults.room (name :: d) bytes = none) :
    (run v config follow m).abort = none ∧ Volume.Tends d v (run v config follow m).volume := by
  have ends := Umbrella.endsIn_ofModule m config
  have inside := Umbrella.inside_ofModule m config
  have fits := Umbrella.fits_outputDir ends Umbrella.isName_umbrellaHeader header.fits
  have writable (headerText implText : String) :
      (Umbrella.ofModule m config).Writable v d headerText implText :=
    ⟨⟨header, room _ (by simp) _⟩, ⟨impl, room _ (by simp) _⟩⟩
  obtain ⟨w, removed, prepared, ready, tends⟩ :=
    Umbrella.exists_prepare ends plain fits there listable (writable _ _)
  have all := (Umbrella.collected_of_tends plain tends ends inside there).trans byHand
  obtain ⟨final, last, ended, tends'⟩ := exists_finalize config ends
    (spelled_ofScan surveyed) tends.plain ((tends.toKeeps.dirOf? _).trans there)
    ((writable _ _).of_keeps tends.toKeeps)
  obtain ⟨volume, abort, -, -⟩ := run_eq v config follow m
  obtain ⟨left, finished, -, -⟩ := output_of_ok ready all ended
  rw [volume, abort, steps_of_ok found surveyed]
  dsimp only
  rw [left, finished]
  exact ⟨rfl, tends.trans tends'⟩

theorem settled_of_survey {scan : Scan} {scanned log : Log} (plain : v.Plain)
    (found : Scan.ofModule v m config.scan.extensions = .ok (scan, scanned))
    (surveyed : Survey.ofScan v config m follow scan = (.ok s, log))
    (finished : (run v config follow m).abort = none) :
    ∃ written d, (Umbrella.ofModule m config).Settled v
      (s.artifacts config (Umbrella.ofModule m config).outputDir) written d
      (run v config follow m) := by
  obtain ⟨volume, abort, counted, failed⟩ := run_eq v config follow m
  rw [abort] at finished
  rw [steps_of_ok found surveyed] at finished volume counted failed
  dsimp only at finished volume counted failed
  obtain ⟨written, d, settled⟩ := output_settles (spelled_ofScan surveyed) plain finished
  exact ⟨written, d, settled.congr volume counted failed⟩

end Runs

theorem ofScan_of_no_files (v : Volume) (config : Config) (m : SourceModule) (follow : Bool) :
    ∃ s log, Survey.ofScan v config m follow {} = (.ok s, log) ∧
      ∀ p, s.artifacts config p = [] := by
  have nothing : Reading.ofRequest v (Survey.request m follow {}) = {} := by
    have start : Reading.start (Survey.request m follow {}) = {} := rfl
    rw [Reading.ofRequest, start]
    cases Reading.bound v (Survey.request m follow {}) <;> rfl
  unfold Survey.ofScan HeaderTree.read
  rw [nothing]
  exact ⟨_, _, rfl, fun _ => rfl⟩

end Pass

end HeaderMeta
