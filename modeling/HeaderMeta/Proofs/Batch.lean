import HeaderMeta.Proofs.Output.Distant
import HeaderMeta.Proofs.Stages

/-! Modules of a batch that fail early.

A batch hands the volume from one pass to the next (`trace`). A pass that stops early hands on the one
it got, so leaving its module out changes nothing for the passes after it.
-/

set_option autoImplicit false

namespace HeaderMeta

namespace Pass
variable {v : Volume} {config : Config} {follow : Bool} {m : SourceModule}

def trace (v : Volume) (config : Config) (follow : Bool) :
    List SourceModule → List (SourceModule × PassResult)
  | [] => []
  | m :: ms =>
    (m, run v config follow m) :: trace (run v config follow m).volume config follow ms

/-- The volume that the last of some passes left, or `v` when there were none. -/
def leftBy (v : Volume) (passes : List (SourceModule × PassResult)) : Volume :=
  passes.foldl (fun _ pass => pass.2.volume) v

theorem runAll_eq (v : Volume) (ms : List SourceModule) :
    (runAll v config follow ms).1 = leftBy v (trace v config follow ms) ∧
      (runAll v config follow ms).2.1.modules = (trace v config follow ms).map (·.2.report) := by
  induction ms generalizing v with
  | nil => exact ⟨rfl, rfl⟩
  | cons m ms ih =>
    obtain ⟨left, reported⟩ := ih (run v config follow m).volume
    rw [runAll, trace]
    exact ⟨left, congrArg (List.cons _) reported⟩

/-- The passes of a batch that get as far as the output. -/
def lasting (v : Volume) (config : Config) (follow : Bool) (ms : List SourceModule) :
    List (SourceModule × PassResult) :=
  (trace v config follow ms).filter fun pass => !pass.2.stoppedEarly

theorem lasting_cons_early (early : (run v config follow m).stoppedEarly = true)
    (ms : List SourceModule) : lasting v config follow (m :: ms) = lasting v config follow ms := by
  have same := (run_of_stoppedEarly early).2
  rw [lasting, trace, same]
  simp [early, lasting]

theorem lasting_cons (lasts : (run v config follow m).stoppedEarly = false)
    (ms : List SourceModule) :
    lasting v config follow (m :: ms) =
      (m, run v config follow m) :: lasting (run v config follow m).volume config follow ms := by
  rw [lasting, trace]
  simp [lasts, lasting]

/-- Without the modules that fail early the passes of the others are the same, one by one. -/
theorem trace_lasting (v : Volume) (config : Config) (follow : Bool) (ms : List SourceModule) :
    trace v config follow ((lasting v config follow ms).map Prod.fst) =
        lasting v config follow ms ∧
      leftBy v (lasting v config follow ms) = leftBy v (trace v config follow ms) := by
  induction ms generalizing v with
  | nil => exact ⟨rfl, rfl⟩
  | cons m ms ih =>
    cases early : (run v config follow m).stoppedEarly with
    | true =>
      -- the pass handed on the volume it got
      rw [lasting_cons_early early, trace, leftBy, leftBy, List.foldl_cons,
        (run_of_stoppedEarly early).2]
      exact ih v
    | false =>
      obtain ⟨same, left⟩ := ih (run v config follow m).volume
      rw [lasting_cons early, List.map_cons, trace, same, trace]
      exact ⟨rfl, left⟩

/-- A module that fails early leaves no trace on a batch. Its sources do not exist or one of its
headers has errors, and its pass changes nothing. So a batch without the modules whose passes in the
whole batch fail so leaves the same volume, and each of the others has the same pass in both: what it
reports, what stops it and what it leaves. -/
theorem failed_modules_leave_no_trace (v : Volume) (config : Config) (follow : Bool)
    (ms : List SourceModule) :
    (∀ (u : Volume) (m : SourceModule),
      ((run u config follow m).stoppedEarly = true ↔ Unfit u config follow m) ∧
      ((run u config follow m).stoppedEarly = true → (run u config follow m).volume = u)) ∧
    let kept := (trace v config follow ms).filter fun pass => !pass.2.stoppedEarly
    let others := kept.map Prod.fst
    (runAll v config follow others).1 = (runAll v config follow ms).1 ∧
      trace v config follow others = kept ∧
      (runAll v config follow others).2.1.modules = kept.map (·.2.report) ∧
      (runAll v config follow ms).2.1.modules = (trace v config follow ms).map (·.2.report) := by
  obtain ⟨same, left⟩ := trace_lasting v config follow ms
  refine ⟨fun u m => ⟨stoppedEarly_run_iff, fun early => (run_of_stoppedEarly early).2⟩, ?_, same, ?_,
    (runAll_eq v ms).2⟩
  · refine ((runAll_eq v _).1.trans ?_).trans (runAll_eq v ms).1.symm
    rw [← left]
    exact congrArg (leftBy v) same
  · exact (runAll_eq v _).2.trans (congrArg (List.map (·.2.report)) same)

def absent : SourceModule :=
  { distant 1 with name := "absent" }

theorem failed_modules_leave_no_trace_absent :
    (run littered {} true absent).stoppedEarly = true ∧
      (run littered {} true absent).volume = littered ∧
      (runAll littered {} true [absent, distant 1]).1 = (runAll littered {} true [distant 1]).1 ∧
      (runAll littered {} true [absent, distant 1]).2.1.modules =
        [(run littered {} true absent).report, (run littered {} true (distant 1)).report] ∧
      (runAll littered {} true [distant 1]).2.1.modules =
        [(run littered {} true (distant 1)).report] := by
  obtain ⟨early, left, -, reported, all⟩ :=
    failed_modules_leave_no_trace littered {} true [absent, distant 1]
  have isName : Path.IsName "absent" := by constructor <;> decide
  have ends : absent.sourceDir.EndsIn "absent" := Path.endsIn_child _ isName
  have missing : littered.isDir absent.sourceDir = false := by
    rw [Bool.eq_false_iff, ne_eq, Volume.isDir_iff plain_littered isName ends]
    rintro ⟨-, d, found⟩
    have none : littered.dirOf? absent.sourceDir = none := by decide
    rw [none] at found
    cases found
  have unfit : Unfit littered {} true absent := .inl ⟨_, by simp [Scan.ofModule, missing]; rfl⟩
  have stopped := (early littered absent).1.mpr unfit
  have same := (early littered absent).2 stopped
  have lasts : (run littered {} true (distant 1)).stoppedEarly = false := by
    rw [PassResult.stoppedEarly, (run_distant (n := 1) (by decide) {} true).1]
    rfl
  have passes : trace littered {} true [absent, distant 1] =
      [(absent, run littered {} true absent), (distant 1, run littered {} true (distant 1))] := by
    rw [trace, same]
    rfl
  rw [passes] at left reported all
  simp only [List.filter_cons, stopped, lasts] at left reported
  exact ⟨stopped, same, left.symm, all, reported⟩

end Pass

end HeaderMeta
