import HeaderMeta.Proofs.Output

/-! The stages of a pass.

Scanning and reading only look at the volume. A pass that stops there has done nothing, and any other
is the output of what was scanned and read.
-/

set_option autoImplicit false

namespace HeaderMeta

def Abort.isEarly : Abort → Bool
  | scan _ | unreadable _ => true
  | output _ => false

namespace Pass
variable {v : Volume} {config : Config} {m : SourceModule} {follow : Bool} {s : Survey}
variable {scan : Scan} {log : Log}

/-- The sources of the module do not exist or cannot be listed, or one of its headers has errors. -/
def Unfit (v : Volume) (config : Config) (follow : Bool) (m : SourceModule) : Prop :=
  (∃ e, Scan.ofModule v m config.scan.extensions = .error e) ∨
    ∃ scan scanned failure log, Scan.ofModule v m config.scan.extensions = .ok (scan, scanned) ∧
      HeaderTree.read v (Survey.request m follow scan) = (.error failure, log)

/-- How far a pass from `v` came. -/
inductive Reaches (v : Volume) (config : Config) (follow : Bool) (m : SourceModule)
    (r : PassResult) : Prop where
  | early {abort : Abort} (unfit : Unfit v config follow m) (stopped : r.abort = some abort)
    (isEarly : abort.isEarly = true) (volume : r.volume = v)
    (nothing : r.report.artifactsWritten = 0)
  | output {scan : Scan} {scanned log : Log} {s : Survey}
    (found : Scan.ofModule v m config.scan.extensions = .ok (scan, scanned))
    (surveyed : Survey.ofScan v config m follow scan = (.ok s, log))
    (volume : r.volume = (output v config m s).volume)
    (abort : r.abort = (output v config m s).abort)
    (artifactsWritten : r.report.artifactsWritten =
      (output v config m s).report.artifactsWritten)

theorem read_of_survey_error {abort : Abort}
    (failed : Survey.ofScan v config m follow scan = (.error abort, log)) :
    abort.isEarly = true ∧ ∃ failure said,
      HeaderTree.read v (Survey.request m follow scan) = (.error failure, said) := by
  unfold Survey.ofScan at failed
  split at failed
  next failure said read =>
    cases failed
    exact ⟨rfl, failure, said, read⟩
  next => cases failed

theorem read_of_survey_ok (surveyed : Survey.ofScan v config m follow scan = (.ok s, log)) :
    ∃ tree said, HeaderTree.read v (Survey.request m follow scan) = (.ok tree, said) ∧
      s = {
        scan, index := .ofRoot tree.root
        verdicts := .ofModule config.policy
          (.ofFiles (fun p => (v.readText p).toOption) tree.files) (.ofRoot tree.root)
          (Survey.candidatePaths scan).contains } := by
  unfold Survey.ofScan at surveyed
  split at surveyed
  next => cases surveyed
  next tree said read =>
    cases surveyed
    exact ⟨tree, said, read, rfl⟩

theorem run_reaches (v : Volume) (config : Config) (follow : Bool) (m : SourceModule) :
    Reaches v config follow m (run v config follow m) := by
  obtain ⟨volume, abort, counted, -⟩ := run_eq v config follow m
  cases found : Scan.ofModule v m config.scan.extensions with
  | error e =>
    have stopped : steps v config follow m =
        { volume := v, report := { module := m.name }, abort := some (.scan e) } := by
      unfold steps
      rw [found]
    rw [stopped] at volume abort counted
    exact .early (.inl ⟨e, found⟩) abort rfl volume counted
  | ok result =>
    obtain ⟨scan, scanned⟩ := result
    cases surveyed : Survey.ofScan v config m follow scan with
    | mk outcome log =>
      cases outcome with
      | error cause =>
        -- what was scanned goes into the report, but no file was written
        have stopped : (steps v config follow m).volume = v ∧
            (steps v config follow m).abort = some cause ∧
            (steps v config follow m).report.artifactsWritten = 0 := by
          unfold steps
          rw [found]
          dsimp only
          rw [surveyed]
          exact ⟨rfl, rfl, rfl⟩
        obtain ⟨isEarly, failure, said, read⟩ := read_of_survey_error surveyed
        exact .early (.inr ⟨scan, scanned, failure, said, found, read⟩)
          (abort.trans stopped.2.1) isEarly (volume.trans stopped.1) (counted.trans stopped.2.2)
      | ok s =>
        rw [steps_of_ok found surveyed] at volume abort counted
        dsimp only at volume abort counted
        exact .output found surveyed volume abort counted

theorem not_isEarly_output {abort : Abort} (stopped : (output v config m s).abort = some abort) :
    abort.isEarly = false := by
  unfold output at stopped
  split at stopped
  next =>
    cases stopped
    rfl
  next =>
    split at stopped
    · cases stopped
      rfl
    · obtain ⟨error, -, rfl⟩ := Option.map_eq_some_iff.mp stopped
      rfl

end Pass

def PassResult.stoppedEarly (r : PassResult) : Bool :=
  r.abort.any Abort.isEarly

namespace Pass
variable {v : Volume} {config : Config} {follow : Bool} {m : SourceModule}

theorem run_of_stoppedEarly (early : (run v config follow m).stoppedEarly = true) :
    Unfit v config follow m ∧ (run v config follow m).volume = v := by
  obtain ⟨abort, stopped, isEarly⟩ := Option.any_eq_true _ _ |>.mp early
  cases run_reaches v config follow m with
  | early unfit _ _ volume _ => exact ⟨unfit, volume⟩
  | output _ _ _ same _ =>
    rw [not_isEarly_output (same.symm.trans stopped)] at isEarly
    cases isEarly

theorem stoppedEarly_run_iff :
    (run v config follow m).stoppedEarly = true ↔ Unfit v config follow m := by
  refine ⟨fun early => (run_of_stoppedEarly early).1, fun unfit => ?_⟩
  cases run_reaches v config follow m with
  | early _ stopped isEarly _ _ => simpa [PassResult.stoppedEarly, stopped] using isEarly
  | output found surveyed _ _ _ =>
    obtain ⟨tree, said, read, -⟩ := read_of_survey_ok surveyed
    rcases unfit with ⟨e, none⟩ | ⟨scan, scanned, failure, log, found', read'⟩
    · rw [found] at none
      cases none
    · rw [found] at found'
      cases found'
      rw [read] at read'
      cases read'

end Pass

end HeaderMeta
