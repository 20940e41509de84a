import HeaderMeta.Proofs.Output.Clearing
import HeaderMeta.Proofs.Output.Files

/-! Generated files are written one by one and recorded in the umbrella as they are. -/

set_option autoImplicit false

namespace HeaderMeta

open HeaderMeta.Path (IsName EndsIn)
open Volume (Fits Tends)

namespace Emission

/-- What becomes of the files `all` that were to be written into the directory at `d`, which `p` leads
to. Those are written that are accepted; of one that is admitted only, a part is left. -/
structure Writes (p : Path) (d : Location) (all written : List Artifact) (e final : Emission) :
    Prop where
  order : written.Sublist all
  mem_iff : ∀ a ∈ all, a ∈ written ↔ e.volume.Accepts p d a.fileName a.content
  counted : final.artifactsWritten = e.artifactsWritten + written.length
  failed : final.writeFailures + written.length = e.writeFailures + all.length
  umbrella : final.umbrella = written.foldl Umbrella.record e.umbrella
  tends : Tends d e.volume final.volume
  held : ∀ a ∈ all, e.volume.Admits p d a.fileName → final.volume.get? (a.fileName :: d) =
    some (.file (e.volume.taken (a.fileName :: d) a.content.toUTF8))
  others : ∀ name, (∀ a ∈ all, e.volume.Admits p d a.fileName → a.fileName ≠ name) →
    final.volume.get? (name :: d) = e.volume.get? (name :: d)

variable {d : Location} {e middle final : Emission} {p : Path}
variable {first second firstWritten secondWritten : List Artifact}

theorem Writes.nil (plain : e.volume.Plain) : Writes p d [] [] e e where
  order := .refl _
  mem_iff := nofun
  counted := rfl
  failed := rfl
  umbrella := rfl
  tends := .refl plain
  held := nofun
  others _ _ := rfl

theorem Writes.append (left : Writes p d first firstWritten e middle)
    (right : Writes p d second secondWritten middle final)
    (apart : ∀ a ∈ first, ∀ b ∈ second, a.fileName ≠ b.fileName) :
    Writes p d (first ++ second) (firstWritten ++ secondWritten) e final := by
  -- what was written first has left the directory and its faults as they were
  have keeps := left.tends.toKeeps
  constructor
  case order => exact left.order.append right.order
  case counted => rw [right.counted, left.counted, List.length_append, Nat.add_assoc]
  case failed =>
    have := left.failed
    have := right.failed
    simp only [List.length_append]
    omega
  case umbrella => rw [right.umbrella, left.umbrella, List.foldl_append]
  case tends => exact left.tends.trans right.tends
  case mem_iff =>
    intro a mem
    rw [List.mem_append]
    rcases List.mem_append.mp mem with old | new
    · rw [or_iff_left, left.mem_iff a old]
      exact fun later => apart a old a (right.order.subset later) rfl
    · rw [or_iff_right, right.mem_iff a new, keeps.accepts_iff]
      exact fun before => apart a (left.order.subset before) a new rfl
  case held =>
    intro a mem admitted
    rcases List.mem_append.mp mem with old | new
    · rw [right.others a.fileName fun b later _ => (apart a old b later).symm]
      exact left.held a old admitted
    · rw [right.held a new (keeps.admits_iff.mpr admitted), Volume.taken, Volume.taken, keeps.faults]
  case others =>
    intro name absent
    rw [right.others name fun b mem admitted =>
      absent b (List.mem_append_right _ mem) (keeps.admits_iff.mp admitted)]
    exact left.others name fun a mem => absent a (List.mem_append_left _ mem)

/-- One file is written, or it fails and a part of it may be left. -/
theorem exists_writes_one (ends : p.EndsIn outputDirName) {a : Artifact} (placed : a.LiesIn p)
    (plain : e.volume.Plain) (found : e.volume.dirOf? p = some d) :
    ∃ written, Writes p d [a] written e (e.write a) := by
  have mem_single {P : Artifact → Prop} (own : P a) : ∀ b ∈ [a], P b := by simpa using own
  by_cases admits : e.volume.Admits p d a.fileName
  · obtain ⟨result, wrote, whole⟩ := Volume.writeText_admitted plain Path.isName_outputDirName ends
      placed.isName found admits a.content
    have tends := plain.tends_put placed.isName admits.short (Volume.isDirAt_dirAt found)
      admits.noDir (e.volume.taken (a.fileName :: d) a.content.toUTF8)
    have got := Volume.get?_put e.volume a.fileName d
    have others (name : String)
        (absent : ∀ b ∈ [a], e.volume.Admits p d b.fileName → b.fileName ≠ name) :
        name :: d ≠ a.fileName :: d := fun same =>
      absent a List.mem_cons_self admits (List.head_eq_of_cons_eq same).symm
    rw [← placed.path] at wrote
    rw [write, wrote]
    cases result with
    | ok =>
      exact ⟨[a], .refl _, mem_single ⟨fun _ => whole.mp rfl, fun _ => List.mem_cons_self⟩, rfl, rfl,
        rfl, tends, mem_single fun _ => (got _ _).trans (if_pos rfl),
        fun name absent => (got _ _).trans (if_neg (others name absent))⟩
    | error cause =>
      refine ⟨[], List.nil_sublist _, mem_single ⟨nofun, fun accepts => ?_⟩, rfl, rfl, rfl, tends,
        mem_single fun _ => (got _ _).trans (if_pos rfl),
        fun name absent => (got _ _).trans (if_neg (others name absent))⟩
      cases whole.mpr accepts
  · obtain ⟨cause, failed⟩ := Volume.writeText_refused plain Path.isName_outputDirName ends
      placed.isName found admits a.content
    rw [← placed.path] at failed
    rw [write, failed]
    exact ⟨[], List.nil_sublist _, mem_single ⟨nofun, fun accepts => absurd accepts.toAdmits admits⟩, rfl,
      rfl, rfl, .refl plain, mem_single fun admitted => absurd admitted admits, fun _ _ => rfl⟩

theorem exists_writes (ends : p.EndsIn outputDirName) {all : List Artifact}
    (placed : ∀ a ∈ all, a.LiesIn p) (distinct : (all.map Artifact.fileName).Nodup)
    (plain : e.volume.Plain) (found : e.volume.dirOf? p = some d) :
    ∃ written, Writes p d all written e (all.foldl write e) := by
  induction all generalizing e with
  | nil => exact ⟨[], .nil plain⟩
  | cons a all ih =>
    obtain ⟨fresh, distinct⟩ := List.nodup_cons.mp distinct
    obtain ⟨own, one⟩ := exists_writes_one ends (placed a List.mem_cons_self) plain found
    obtain ⟨others, rest⟩ := ih (fun b mem => placed b (List.mem_cons_of_mem a mem)) distinct
      one.tends.plain ((one.tends.toKeeps.dirOf? p).trans found)
    refine ⟨own ++ others, one.append rest fun b here c later same => fresh ?_⟩
    rw [← List.mem_singleton.mp here, same]
    exact List.mem_map_of_mem later

theorem Writes.of_agrees {other : Emission} (writes : Writes p d first firstWritten e final)
    (agrees : Agrees other final) : Writes p d first firstWritten e other where
  order := writes.order
  mem_iff := writes.mem_iff
  counted := agrees.artifactsWritten.trans writes.counted
  failed := agrees.writeFailures ▸ writes.failed
  umbrella := agrees.umbrella.trans writes.umbrella
  tends := agrees.volume ▸ writes.tends
  held := agrees.volume ▸ writes.held
  others := agrees.volume ▸ writes.others

end Emission

namespace Umbrella
variable {u : Umbrella}

def side (u : Umbrella) (toHeader : Bool) : List String :=
  if toHeader then u.headers else u.impls

theorem side_add (u : Umbrella) (toHeader which : Bool) (p : Path) :
    (u.add toHeader p).side which =
      u.side which ++ if toHeader = which then [relativeInclude p u.outputDir] else [] := by
  cases toHeader <;> cases which <;> simp [add, side]

theorem side_record (u : Umbrella) (a : Artifact) (which : Bool) :
    (u.record a).side which = (u.add a.kind.isHeader a.path).side which :=
  rfl

structure Frame (u w : Umbrella) : Prop where
  outputDir : w.outputDir = u.outputDir
  implMode : w.implMode = u.implMode
  platformInclude : w.platformInclude = u.platformInclude

theorem frame_add (u : Umbrella) (toHeader : Bool) (p : Path) : u.Frame (u.add toHeader p) := by
  unfold add
  dsimp only
  split <;> exact ⟨rfl, rfl, rfl⟩

theorem Frame.refl (u : Umbrella) : u.Frame u :=
  ⟨rfl, rfl, rfl⟩

theorem Frame.trans {v w : Umbrella} (first : u.Frame v) (second : v.Frame w) : u.Frame w :=
  ⟨second.outputDir.trans first.outputDir, second.implMode.trans first.implMode,
    second.platformInclude.trans first.platformInclude⟩

theorem frame_addOverride (u : Umbrella) (p : Path) : u.Frame (u.addOverride p) := by
  unfold addOverride
  split
  · exact frame_add u _ p
  · exact .refl u

theorem frame_record (u : Umbrella) (a : Artifact) : u.Frame (u.record a) :=
  have added := frame_add u a.kind.isHeader a.path
  ⟨added.outputDir, added.implMode, added.platformInclude⟩

theorem frame_foldl {α : Type} {take : Umbrella → α → Umbrella}
    (frame : ∀ u a, Frame u (take u a)) (as : List α) (u : Umbrella) : u.Frame (as.foldl take u) := by
  induction as generalizing u with
  | nil => exact .refl u
  | cons a as ih => exact (frame u a).trans (ih (take u a))

theorem side_foldl_addOverride (u : Umbrella) (which : Bool) (files : List Path) :
    (files.foldl addOverride u).side which =
      u.side which ++ (files.filter fun p => overrideSide? p = some which).map
        (relativeInclude · u.outputDir) := by
  induction files generalizing u with
  | nil => simp
  | cons p files ih =>
    rw [List.foldl_cons, ih, (frame_addOverride u p).outputDir]
    unfold addOverride
    cases known : overrideSide? p with
    | none => simp [known]
    | some toHeader =>
      rw [side_add]
      by_cases same : toHeader = which <;> simp [known, same]

/-- From its own directory a generated file is included by its name. -/
theorem relativeInclude_of_liesIn {p : Path} {a : Artifact} (placed : a.LiesIn p) :
    relativeInclude a.path p = a.fileName := by
  rw [relativeInclude, placed.path, Path.relativeTo_child p placed.isName]
  exact Path.slashed_of_not_mem placed.noBackslash

theorem side_foldl_record (u : Umbrella) (which : Bool) (written : List Artifact) :
    (written.foldl record u).side which =
      u.side which ++ (written.filter fun a => a.kind.isHeader = which).map fun a =>
        relativeInclude a.path u.outputDir := by
  induction written generalizing u with
  | nil => simp
  | cons a written ih =>
    rw [List.foldl_cons, ih, (frame_record u a).outputDir, side_record, side_add]
    by_cases same : a.kind.isHeader = which <;> simp [same]

theorem side_foldl_record_of_liesIn (u : Umbrella) (which : Bool) {written : List Artifact}
    (placed : ∀ a ∈ written, a.LiesIn u.outputDir) :
    (written.foldl record u).side which =
      u.side which ++ (written.filter fun a => a.kind.isHeader = which).map Artifact.fileName := by
  rw [side_foldl_record]
  refine congrArg _ (List.map_congr_left fun a mem => ?_)
  exact relativeInclude_of_liesIn (placed a (List.mem_of_mem_filter mem))

end Umbrella

end HeaderMeta
