import HeaderMeta.Proofs.Output.Overrides
import HeaderMeta.Proofs.Output.Writing

/-! The state in which a pass leaves the output directory of its module.

`Settled` states it: which files there are, what they hold, and which of them the umbrella files list.
-/

set_option autoImplicit false

namespace HeaderMeta

open Volume (Fits)

namespace Umbrella

/-- What the umbrella file of a side includes when `written` was written: the hand-written files of
that side and then the generated ones. -/
def includes (u : Umbrella) (v : Volume) (written : List Artifact) (toHeader : Bool) :
    List String :=
  ((u.overrides v).filter fun p => overrideSide? p = some toHeader).map
      (relativeInclude · u.outputDir) ++
    (written.filter fun a => a.kind.isHeader = toHeader).map Artifact.fileName

def holdings (u : Umbrella) (v : Volume) (written : List Artifact) : List (String × String) :=
  (umbrellaHeader, headerSeed u.platformInclude ++
    String.join ((u.includes v written true).map includeLine)) ::
  (u.implMode.umbrellaName, implSeed ++
    String.join ((u.includes v written false).map includeLine)) ::
  written.map fun a => (a.fileName, a.content)

/-- A generated file for which there was no room: a part of it is left. -/
structure Torn (u : Umbrella) (v : Volume) (d : Location) (a : Artifact) (bytes : ByteArray) :
    Prop where
  admits : v.Admits u.outputDir d a.fileName
  part : ∃ n, v.faults.room (a.fileName :: d) a.content.toUTF8 = some n ∧
    bytes = a.content.toUTF8.extract 0 n

/-- The output directory after a pass that started on `v`, generated `all` and wrote `written`. -/
structure Settled (u : Umbrella) (v : Volume) (all written : List Artifact) (d : Location)
    (r : PassResult) : Prop where
  located : r.volume.locate u.outputDir = .ok d
  order : written.Sublist all
  /-- The files are written that the directory accepts. -/
  wrote : ∀ a ∈ all, a ∈ written ↔ r.volume.Accepts u.outputDir d a.fileName a.content
  counted : r.report.artifactsWritten = written.length
  failed : r.report.writeFailures + written.length = all.length
  /-- No two files have one name. -/
  distinct : ((u.holdings r.volume written).map Prod.fst).Nodup
  /-- Exactly these files are there, as far as paths reach, beside what is left of those that found no
  room. -/
  held : ∀ name bytes,
    Text.startsWith name artifactLead = true ∧ Fits (u.outputDir.child name) ∧
        r.volume.get? (name :: d) = some (.file bytes) ↔
      (∃ text, (name, text) ∈ u.holdings r.volume written ∧ bytes = text.toUTF8) ∨
        ∃ a ∈ all, a.fileName = name ∧ u.Torn r.volume d a bytes
  /-- What no path reaches is left as it was. -/
  beyond : ∀ name bytes, ¬ Fits (u.outputDir.child name) →
    v.get? (name :: d) = some (.file bytes) → r.volume.get? (name :: d) = some (.file bytes)
  merged : u.collected r.volume = .ok (u.overrides r.volume)
  sorted : (u.overrides r.volume).Pairwise fun p q => p.le q = true
  listed : ∀ a ∈ written,
    (u.includes r.volume written true ++ u.includes r.volume written false).count a.fileName = 1
  unlisted : ∀ a ∈ all, a ∉ written →
    a.fileName ∉ u.includes r.volume written true ++ u.includes r.volume written false

section Listing
variable {u : Umbrella} {v : Volume} {all written : List Artifact}

theorem mem_includes {name : String} {which : Bool}
    (mem : name ∈ u.includes v written which) :
    (∃ p ∈ u.overrides v, relativeInclude p u.outputDir = name) ∨
      ∃ a ∈ written, a.fileName = name := by
  rcases List.mem_append.mp mem with mem | mem
  · obtain ⟨p, inside, same⟩ := List.mem_map.mp mem
    exact .inl ⟨p, (List.mem_filter.mp inside).1, same⟩
  · obtain ⟨a, inside, same⟩ := List.mem_map.mp mem
    exact .inr ⟨a, (List.mem_filter.mp inside).1, same⟩

theorem perm_sides (written : List Artifact) :
    ((written.filter fun a => a.kind.isHeader = true).map Artifact.fileName ++
      (written.filter fun a => a.kind.isHeader = false).map Artifact.fileName).Perm
        (written.map Artifact.fileName) := by
  rw [← List.map_append]
  refine List.Perm.map _ ?_
  have split := List.filter_append_perm (fun a : Artifact => decide (a.kind.isHeader = true))
    written
  simpa using split

variable (apart : ∀ a ∈ all, ∀ p ∈ u.overrides v, relativeInclude p u.outputDir ≠ a.fileName)
variable (order : written.Sublist all) (distinct : (all.map Artifact.fileName).Nodup)
include apart order distinct

theorem count_includes {a : Artifact} (mem : a ∈ written) :
    (u.includes v written true ++ u.includes v written false).count a.fileName = 1 := by
  have byHand (which : Bool) :
      (((u.overrides v).filter fun p => overrideSide? p = some which).map
        (relativeInclude · u.outputDir)).count a.fileName = 0 := by
    refine List.count_eq_zero.mpr fun here => ?_
    obtain ⟨p, inside, same⟩ := List.mem_map.mp here
    exact apart a (order.subset mem) p (List.mem_filter.mp inside).1 same
  have generated := (perm_sides written).count_eq a.fileName
  rw [List.count_append] at generated
  rw [includes, includes, List.count_append, List.count_append, List.count_append, byHand, byHand,
    Nat.zero_add, Nat.zero_add, generated]
  exact List.count_eq_one_of_mem (distinct.sublist (order.map _)) (List.mem_map_of_mem mem)

theorem not_mem_includes {a : Artifact} (mem : a ∈ all) (lost : a ∉ written) :
    a.fileName ∉ u.includes v written true ++ u.includes v written false := by
  have absent (which : Bool) : a.fileName ∉ u.includes v written which := by
    intro here
    rcases mem_includes here with ⟨p, inside, same⟩ | ⟨b, inside, same⟩
    · exact apart a mem p inside same
    · exact lost (List.inj_on_of_nodup_map distinct (order.subset inside) mem same ▸ inside)
  exact fun here => (List.mem_append.mp here).elim (absent true) (absent false)

end Listing

section Holdings
variable {u : Umbrella} {v : Volume} {all written : List Artifact} {d : Location}

theorem umbrella_names_differ (mode : ImplMode) : umbrellaHeader ≠ mode.umbrellaName := by
  cases mode <;> decide

theorem startsWith_umbrellaHeader : Text.startsWith umbrellaHeader artifactLead = true := by
  decide

theorem startsWith_umbrellaName (mode : ImplMode) :
    Text.startsWith mode.umbrellaName artifactLead = true := by
  cases mode <;> decide

theorem names_holdings (u : Umbrella) (v : Volume) (written : List Artifact) :
    (u.holdings v written).map Prod.fst =
      umbrellaHeader :: u.implMode.umbrellaName :: written.map Artifact.fileName := by
  simp [holdings, Function.comp_def]

theorem distinct_holdings (placed : ∀ a ∈ written, a.LiesIn u.outputDir)
    (distinct : (written.map Artifact.fileName).Nodup) :
    ((u.holdings v written).map Prod.fst).Nodup := by
  rw [names_holdings]
  have other (name : String) (differs : ∀ a ∈ written, a.fileName ≠ name) :
      name ∉ written.map Artifact.fileName := by
    intro mem
    obtain ⟨a, inside, same⟩ := List.mem_map.mp mem
    exact differs a inside same
  refine List.nodup_cons.mpr ⟨?_, List.nodup_cons.mpr ⟨?_, distinct⟩⟩
  · rw [List.mem_cons, not_or]
    exact ⟨umbrella_names_differ _, other _ fun a mem => ((placed a mem).ne_umbrella u.implMode).1⟩
  · exact other _ fun a mem => ((placed a mem).ne_umbrella u.implMode).2

theorem texts_of_sides {made : Umbrella} (frame : u.Frame made)
    (sides : ∀ which, made.side which = u.includes v written which) :
    made.headerText = headerSeed u.platformInclude ++
        String.join ((u.includes v written true).map includeLine) ∧
      made.implText = implSeed ++ String.join ((u.includes v written false).map includeLine) := by
  rw [← sides, ← sides, headerText, implText, frame.platformInclude]
  exact ⟨rfl, rfl⟩

section Final
variable {e generated : Emission} {final : Volume} {header impl : String}
variable (writes : Emission.Writes u.outputDir d all written e generated)
-- the umbrella files are written last, over their placeholders
variable (put : ∀ key, final.get? key =
  if key = u.implMode.umbrellaName :: d then some (.file impl.toUTF8)
  else if key = umbrellaHeader :: d then some (.file header.toUTF8)
  else generated.volume.get? key)
include writes put

theorem get?_of_unfit {name : String} (unfit : ¬ Fits (u.outputDir.child name))
    (fitsHeader : Fits (u.outputDir.child umbrellaHeader))
    (fitsImpl : Fits (u.outputDir.child u.implMode.umbrellaName)) :
    final.get? (name :: d) = e.volume.get? (name :: d) := by
  -- every file that a pass puts has a name that a path reaches
  have other {known : String} (fits : Fits (u.outputDir.child known)) : known ≠ name :=
    fun same => unfit (same ▸ fits)
  rw [put, if_neg, if_neg, writes.others name fun a mem admits => other admits.fits]
  · exact fun same => other fitsHeader (List.head_eq_of_cons_eq same).symm
  · exact fun same => other fitsImpl (List.head_eq_of_cons_eq same).symm

variable (placed : ∀ a ∈ all, a.LiesIn u.outputDir)
include placed

theorem get?_of_admits {a : Artifact} (mem : a ∈ all)
    (admits : e.volume.Admits u.outputDir d a.fileName) :
    final.get? (a.fileName :: d) =
      some (.file (e.volume.taken (a.fileName :: d) a.content.toUTF8)) := by
  obtain ⟨notHeader, notImpl⟩ := (placed a mem).ne_umbrella u.implMode
  rw [put]
  simpa [notHeader, notImpl] using writes.held a mem admits

variable (keeps : Volume.Keeps e.volume final)
include keeps

theorem held_or_torn {name : String} {bytes : ByteArray}
    (clean : ∀ bytes, e.volume.get? (name :: d) = some (.file bytes) →
      name = umbrellaHeader ∨ name = u.implMode.umbrellaName)
    (got : final.get? (name :: d) = some (.file bytes)) :
    (∃ text, (name, text) ∈ (umbrellaHeader, header) :: (u.implMode.umbrellaName, impl) ::
        written.map (fun a => (a.fileName, a.content)) ∧ bytes = text.toUTF8) ∨
      ∃ a ∈ all, a.fileName = name ∧ u.Torn final d a bytes := by
  by_cases isImpl : name = u.implMode.umbrellaName
  · rw [put, if_pos (by rw [isImpl])] at got
    cases got
    exact .inl ⟨impl, by simp [isImpl], rfl⟩
  by_cases isHeader : name = umbrellaHeader
  · rw [put, if_neg (by simp [isImpl]), if_pos (by rw [isHeader])] at got
    cases got
    exact .inl ⟨header, by simp [isHeader], rfl⟩
  by_cases isOwn : ∃ a ∈ all, e.volume.Admits u.outputDir d a.fileName ∧ a.fileName = name
  · obtain ⟨a, mem, admits, rfl⟩ := isOwn
    rw [get?_of_admits writes put placed mem admits] at got
    cases got
    cases room : e.volume.faults.room (a.fileName :: d) a.content.toUTF8 with
    | none =>
      have inside := (writes.mem_iff a mem).mpr ⟨admits, room⟩
      refine .inl ⟨a.content, List.mem_cons_of_mem _ (List.mem_cons_of_mem _ ?_), ?_⟩
      · exact List.mem_map_of_mem inside
      · rw [Volume.taken, room]
    | some n =>
      refine .inr ⟨a, mem, rfl, keeps.admits_iff.mpr admits, n, keeps.faults ▸ room, ?_⟩
      rw [Volume.taken, room]
  · rw [put, if_neg (by simp [isImpl]), if_neg (by simp [isHeader]), writes.others name
      fun a mem admits same => isOwn ⟨a, mem, admits, same⟩] at got
    rcases clean bytes got with same | same
    · exact absurd same isHeader
    · exact absurd same isImpl

theorem held_of_torn {a : Artifact} {bytes : ByteArray} (mem : a ∈ all)
    (torn : u.Torn final d a bytes) :
    Text.startsWith a.fileName artifactLead = true ∧ Fits (u.outputDir.child a.fileName) ∧
      final.get? (a.fileName :: d) = some (.file bytes) := by
  obtain ⟨admits, n, room, rfl⟩ := torn
  have there := get?_of_admits writes put placed mem (keeps.admits_iff.mp admits)
  rw [Volume.taken, ← keeps.faults, room] at there
  exact ⟨(placed a mem).lead, admits.fits, there⟩

theorem held_iff
    (clean : ∀ name bytes, Text.startsWith name artifactLead = true →
      Fits (u.outputDir.child name) → e.volume.get? (name :: d) = some (.file bytes) →
        name = umbrellaHeader ∨ name = u.implMode.umbrellaName)
    (fitsHeader : Fits (u.outputDir.child umbrellaHeader))
    (fitsImpl : Fits (u.outputDir.child u.implMode.umbrellaName))
    (name : String) (bytes : ByteArray) :
    Text.startsWith name artifactLead = true ∧ Fits (u.outputDir.child name) ∧
        final.get? (name :: d) = some (.file bytes) ↔
      (∃ text, (name, text) ∈ (umbrellaHeader, header) :: (u.implMode.umbrellaName, impl) ::
        written.map (fun a => (a.fileName, a.content)) ∧ bytes = text.toUTF8) ∨
      ∃ a ∈ all, a.fileName = name ∧ u.Torn final d a bytes := by
  have differ := umbrella_names_differ u.implMode
  constructor
  · rintro ⟨lead, reach, got⟩
    exact held_or_torn writes put placed keeps (fun bytes => clean name bytes lead reach) got
  · rintro (⟨text, mem, rfl⟩ | ⟨a, mem, rfl, torn⟩)
    · rcases List.mem_cons.mp mem with same | mem
      · cases same
        exact ⟨startsWith_umbrellaHeader, fitsHeader, by rw [put]; simp [differ]⟩
      rcases List.mem_cons.mp mem with same | mem
      · cases same
        exact ⟨startsWith_umbrellaName _, fitsImpl, by rw [put]; simp⟩
      · obtain ⟨a, inside, same⟩ := List.mem_map.mp mem
        cases same
        have mem := writes.order.subset inside
        have accepts := (writes.mem_iff a mem).mp inside
        have there := get?_of_admits writes put placed mem accepts.toAdmits
        rw [accepts.taken_eq] at there
        exact ⟨(placed a mem).lead, accepts.fits, there⟩
    · exact held_of_torn writes put placed keeps mem torn

end Final

end Holdings

theorem Settled.congr {u : Umbrella} {v : Volume} {all written : List Artifact} {d : Location}
    {r t : PassResult} (settled : u.Settled v all written d r) (volume : t.volume = r.volume)
    (counted : t.report.artifactsWritten = r.report.artifactsWritten)
    (failed : t.report.writeFailures = r.report.writeFailures) : u.Settled v all written d t := by
  constructor
  case located => rw [volume]; exact settled.located
  case order => exact settled.order
  case wrote => rw [volume]; exact settled.wrote
  case counted => rw [counted]; exact settled.counted
  case failed => rw [failed]; exact settled.failed
  case distinct => rw [volume]; exact settled.distinct
  case held => rw [volume]; exact settled.held
  case beyond => rw [volume]; exact settled.beyond
  case merged => rw [volume]; exact settled.merged
  case sorted => rw [volume]; exact settled.sorted
  case listed => rw [volume]; exact settled.listed
  case unlisted => rw [volume]; exact settled.unlisted

end Umbrella

end HeaderMeta
