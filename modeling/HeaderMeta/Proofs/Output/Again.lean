import HeaderMeta.Proofs.Footprint

/-! Output into a directory that holds the output of the same files already.

The stages of an output change nothing outside the output directory, and nothing in it that no path
reaches. Which files they write depends only on what is to be written, on paths and names that are too
long, on directories in the way and on the room there is, and those stay. So the same files are written
again, beside the same hand-written ones, and each holds what it held.
-/

set_option autoImplicit false

namespace HeaderMeta

open HeaderMeta.Path (IsName EndsIn)
open Volume (Fits Tends Confined Own)

namespace Volume
variable {v w : Volume} {loc : Location}

theorem get?_eq_of_files (free : v.Plain) (free' : w.Plain)
    (dirs : w.isDirAt loc = v.isDirAt loc)
    (files : ∀ bytes, w.get? loc = some (.file bytes) ↔ v.get? loc = some (.file bytes)) :
    w.get? loc = v.get? loc := by
  cases there : v.get? loc with
  | none =>
    cases there' : w.get? loc with
    | none => rfl
    | some node =>
      cases node with
      | dir => simp [isDirAt, there, there', Node.isDir] at dirs
      | file bytes => exact ((files bytes).mp there').symm.trans there
      | link target => exact absurd there' (free'.get?_ne_link loc target)
  | some node =>
    cases node with
    | dir => exact get?_of_isDirAt (dirs.trans (by simp [isDirAt, there, Node.isDir]))
    | file bytes => exact (files bytes).mpr there
    | link target => exact absurd there (free.get?_ne_link loc target)

end Volume

namespace Umbrella
variable {u : Umbrella} {v w : Volume} {d : Location}

theorem prepared_in_place (ends : u.outputDir.EndsIn outputDirName) {removed : Nat} {log : Log}
    (plain : v.Plain) (fits : Fits u.outputDir) (found : v.dirOf? u.outputDir = some d)
    (ready : u.prepare v = (w, .ok removed, log)) : u.Prepared v w d := by
  have there := (Volume.locate_of_dirOf? plain Path.isName_outputDirName ends fits found).2
  obtain ⟨made, e, dirs, -, prepared⟩ := prepare_ok ends plain ready
  rw [Volume.makeDirs_of_isDir plain Path.isName_outputDirName ends there] at dirs
  cases dirs
  obtain rfl : e = d := Option.some_inj.mp (prepared.found.symm.trans found)
  exact prepared

theorem Torn.of_keeps {a : Artifact} {bytes : ByteArray} (keeps : Volume.Keeps v w)
    (torn : u.Torn w d a bytes) : u.Torn v d a bytes :=
  ⟨keeps.admits_iff.mp torn.admits, keeps.faults ▸ torn.part⟩

end Umbrella

theorem sublist_eq_of_mem_iff {α : Type} {all xs ys : List α} (distinct : all.Nodup)
    (left : xs.Sublist all) (right : ys.Sublist all) (same : ∀ a ∈ all, a ∈ xs ↔ a ∈ ys) : xs = ys := by
  classical
  have kept {xs : List α} (part : xs.Sublist all) : xs = all.filter (· ∈ xs) := by
    have inside := part.filter (· ∈ xs)
    rw [List.filter_eq_self.mpr fun a mem => decide_eq_true mem] at inside
    have few := (distinct.filter (· ∈ xs)).subperm fun a mem => of_decide_eq_true (List.mem_filter.mp mem).2
    exact inside.eq_of_length_le few.length_le
  rw [kept left, kept right]
  exact List.filter_congr fun a mem => by simp only [same a mem]

namespace Umbrella.Settled
variable {u : Umbrella} {v : Volume} {all written : List Artifact} {d : Location} {r : PassResult}

theorem fits_outputDir (settled : u.Settled v all written d r) : Fits u.outputDir :=
  (Volume.walk_of_spot (Volume.spot_of_locate settled.located)).1

/-- A file with a name of generated files is an umbrella file or one of those that were generated. -/
theorem name_cases (settled : u.Settled v all written d r) {name : String} {bytes : ByteArray}
    (lead : Text.startsWith name artifactLead = true) (fits : Fits (u.outputDir.child name))
    (there : r.volume.get? (name :: d) = some (.file bytes)) :
    name = umbrellaHeader ∨ name = u.implMode.umbrellaName ∨ ∃ a ∈ all, a.fileName = name := by
  rcases (settled.held name bytes).mp ⟨lead, fits, there⟩ with ⟨text, among, -⟩ | ⟨a, mem, same, -⟩
  · have named := List.mem_map_of_mem (f := Prod.fst) among
    rw [names_holdings, List.mem_cons, List.mem_cons, List.mem_map] at named
    refine named.imp_right (Or.imp_right ?_)
    rintro ⟨a, mem, same⟩
    exact ⟨a, settled.order.subset mem, same⟩
  · exact .inr (.inr ⟨a, mem, same⟩)

/-- Two outputs of the same files into one directory leave the same files, when neither the directories
nor the hand-written files have changed between them. -/
theorem file_iff {v' : Volume} {written' : List Artifact} {t : PassResult}
    (settled : u.Settled v all written d r) (settled' : u.Settled v' all written' d t)
    (distinct : (all.map Artifact.fileName).Nodup) (keeps : Volume.Keeps r.volume t.volume)
    (byHand : u.collected t.volume = u.collected r.volume) {name : String} (bytes : ByteArray)
    (lead : Text.startsWith name artifactLead = true) (fits : Fits (u.outputDir.child name)) :
    t.volume.get? (name :: d) = some (.file bytes) ↔ r.volume.get? (name :: d) = some (.file bytes) := by
  obtain rfl : written' = written := by
    refine sublist_eq_of_mem_iff distinct.of_map settled'.order settled.order fun a mem => ?_
    rw [settled'.wrote a mem, settled.wrote a mem, keeps.accepts_iff]
  have holdings : u.holdings t.volume written' = u.holdings r.volume written' := by
    rw [holdings, holdings]
    simp only [includes, overrides, byHand]
  have torn (a : Artifact) : u.Torn t.volume d a bytes ↔ u.Torn r.volume d a bytes :=
    ⟨.of_keeps keeps, .of_keeps keeps.symm⟩
  have held := settled.held name bytes
  have held' := settled'.held name bytes
  rw [holdings] at held'
  simp only [torn] at held'
  simpa [lead, fits] using held'.trans held.symm

end Umbrella.Settled

namespace Pass
variable {config : Config} {s : Survey} {v w : Volume} {d : Location} {m : SourceModule}

/-- The stages of an output that goes through: the directory at `d` is prepared, which gives `w`, the
hand-written files are found, the files of types are written and then the umbrella files. -/
structure Stages (v : Volume) (config : Config) (m : SourceModule) (s : Survey) (w : Volume)
    (d : Location) : Prop where
  ready : ∃ made removed log, (Umbrella.ofModule m config).prepare v = (w, .ok removed, log) ∧
    (Umbrella.ofModule m config).Prepared made w d
  byHand : ∃ files, (Umbrella.ofModule m config).collected w = .ok files
  writable : (Umbrella.ofModule m config).Writable w d
    (emitted config s (Umbrella.ofModule m config) w).umbrella.headerText
    (emitted config s (Umbrella.ofModule m config) w).umbrella.implText
  tends : Tends d w (output v config m s).volume
  /-- What no path reaches is left as it is. -/
  beyond : ∀ name, ¬ Fits ((Umbrella.ofModule m config).outputDir.child name) →
    (output v config m s).volume.get? (name :: d) = w.get? (name :: d)

theorem exists_stages (spelled : ∀ name decl, s.index.decl? name = some decl → decl.Spelled)
    (plain : v.Plain) (finished : (output v config m s).abort = none) :
    ∃ w d, Stages v config m s w d := by
  have ends := Umbrella.endsIn_ofModule m config
  obtain ⟨w, removed, log, files, last, ready, byHand, ended, -⟩ := exists_of_finished finished
  obtain ⟨made, d, -, -, filled⟩ := Umbrella.prepare_ok ends plain ready
  have found := (filled.toKeeps.dirOf? _).trans filled.found
  obtain ⟨placed, distinct, written, e, rfl, merged, -, -, writes⟩ :=
    exists_emitted config ends spelled filled.plain found
  obtain ⟨frame, -⟩ := texts_of_writes (Umbrella.side_ofModule m config) placed writes merged
  have ends' := ends
  rw [← frame.outputDir] at ends'
  obtain ⟨d', found', accepted, tends, got⟩ := Umbrella.putBoth_ok ends'
    writes.tends.plain (putBoth_of_finalize ended)
  rw [frame.outputDir] at found'
  obtain rfl : d' = d :=
    Option.some_inj.mp (found'.symm.trans ((writes.tends.toKeeps.dirOf? _).trans found))
  obtain ⟨header, impl⟩ := accepted
  rw [frame.outputDir] at header
  rw [frame.outputDir, frame.implMode] at impl
  rw [frame.implMode] at got
  refine ⟨e.volume, d', ⟨made, removed, log, ready, filled⟩, ⟨files, byHand⟩,
    ⟨writes.tends.accepts_iff.mp header, writes.tends.accepts_iff.mp impl⟩,
    writes.tends.trans tends, fun name unfit => ?_⟩
  -- every file that is put has a name that a path reaches
  have other {known : String} (fits : Fits ((Umbrella.ofModule m config).outputDir.child known)) :
      known ≠ name := fun same => unfit (same ▸ fits)
  rw [got, if_neg, if_neg, writes.others name fun a mem admits => other admits.fits]
  · exact fun same => other header.fits (List.head_eq_of_cons_eq same).symm
  · exact fun same => other impl.fits (List.head_eq_of_cons_eq same).symm

section Prepared
variable (stages : Stages v config m s w d)
include stages

theorem Stages.plain : w.Plain :=
  let ⟨_, _, _, _, filled⟩ := stages.ready
  filled.plain

theorem Stages.found : w.dirOf? (Umbrella.ofModule m config).outputDir = some d :=
  let ⟨_, _, _, _, filled⟩ := stages.ready
  (filled.toKeeps.dirOf? _).trans filled.found

theorem Stages.isOpen : w.faults.closed d = none :=
  let ⟨_, _, _, _, filled⟩ := stages.ready
  filled.faults ▸ filled.isOpen

theorem Stages.placeholders : (Umbrella.ofModule m config).Writable w d
    ((Umbrella.ofModule m config).placeholder umbrellaHeader)
    ((Umbrella.ofModule m config).placeholder (Umbrella.ofModule m config).implMode.umbrellaName) :=
  let ⟨_, _, _, _, filled⟩ := stages.ready
  filled.writable.of_keeps filled.toKeeps

end Prepared

theorem exists_settled_stages
    (spelled : ∀ name decl, s.index.decl? name = some decl → decl.Spelled) (plain : v.Plain)
    (finished : (output v config m s).abort = none) :
    ∃ w d written, Stages v config m s w d ∧ (Umbrella.ofModule m config).Settled v
      (s.artifacts config (Umbrella.ofModule m config).outputDir) written d
      (output v config m s) := by
  obtain ⟨w, d, stages⟩ := exists_stages spelled plain finished
  obtain ⟨written, e, settled⟩ := output_settles spelled plain finished
  have found := (stages.tends.toKeeps.dirOf? _).trans stages.found
  obtain rfl : e = d := (Volume.eq_place_of_locate stages.tends.plain.linkFree settled.located).trans
    (Volume.eq_place_of_dirOf? found).symm
  exact ⟨w, e, written, stages, settled⟩

section Again
variable {t : Survey} {first second : Volume} {written written' : List Artifact}
variable (spelled : ∀ name decl, s.index.decl? name = some decl → decl.Spelled)
variable (spelled' : ∀ name decl, t.index.decl? name = some decl → decl.Spelled)
variable (same : t.artifacts config (Umbrella.ofModule m config).outputDir =
  s.artifacts config (Umbrella.ofModule m config).outputDir)
include spelled spelled' same

theorem umbrella_emitted_again (plain : first.Plain) (plain' : second.Plain)
    (found : first.dirOf? (Umbrella.ofModule m config).outputDir = some d)
    (keeps : Volume.Keeps first second)
    (byHand : (Umbrella.ofModule m config).collected second =
      (Umbrella.ofModule m config).collected first) :
    (emitted config t (Umbrella.ofModule m config) second).umbrella =
      (emitted config s (Umbrella.ofModule m config) first).umbrella := by
  have ends := Umbrella.endsIn_ofModule m config
  obtain ⟨-, distinct, written, e, rfl, merged, -, -, writes⟩ :=
    exists_emitted config ends spelled plain found
  obtain ⟨-, -, written', e', rfl, merged', -, -, writes'⟩ :=
    exists_emitted config ends spelled' plain' ((keeps.dirOf? _).trans found)
  obtain rfl : written' = written := by
    refine sublist_eq_of_mem_iff distinct.of_map (same ▸ writes'.order) writes.order fun a mem => ?_
    rw [writes'.mem_iff a (same ▸ mem), writes.mem_iff a mem, keeps.accepts_iff]
  rw [writes'.umbrella, writes.umbrella, merged', merged, Umbrella.overrides, Umbrella.overrides, byHand]

variable (stages : Stages v config m s first d) (volume : (output v config m s).volume = w)
include stages volume

/-- Output goes through on top of output when no listing breaks off. -/
theorem output_finishes_again (unbroken : ∀ loc, w.faults.broken loc = none) :
    (output w config m t).abort = none := by
  have ends := Umbrella.endsIn_ofModule m config
  have inside := Umbrella.inside_ofModule m config
  have tends : Tends d first w := volume ▸ stages.tends
  have found : w.dirOf? (Umbrella.ofModule m config).outputDir = some d :=
    (tends.toKeeps.dirOf? _).trans stages.found
  have reach := Umbrella.fits_outputDir ends Umbrella.isName_umbrellaHeader
    stages.placeholders.header.fits
  obtain ⟨x, removed, log, ready, cleared⟩ := Umbrella.exists_prepare ends tends.plain reach found
    ⟨tends.faults ▸ stages.isOpen, fun _ _ => unbroken _⟩ (stages.placeholders.of_keeps tends.toKeeps)
  have whole := tends.trans cleared
  have byHand := Umbrella.collected_of_tends stages.plain whole ends inside stages.found
  obtain ⟨files, all⟩ := stages.byHand
  -- the texts of the umbrella files are those that were accepted before
  have writable := stages.writable.of_keeps whole.toKeeps
  rw [← umbrella_emitted_again spelled spelled' same stages.plain cleared.plain stages.found
    whole.toKeeps byHand] at writable
  obtain ⟨final, last, ended, -⟩ := exists_finalize config ends spelled' cleared.plain
    ((cleared.toKeeps.dirOf? _).trans found) writable
  exact (output_of_ok ready (byHand.trans all) ended).2.1

end Again

/-- Output of the same files for the second time changes nothing. -/
theorem output_again {t : Survey}
    (spelled : ∀ name decl, s.index.decl? name = some decl → decl.Spelled)
    (spelled' : ∀ name decl, t.index.decl? name = some decl → decl.Spelled) (plain : v.Plain)
    (same : t.artifacts config (Umbrella.ofModule m config).outputDir =
      s.artifacts config (Umbrella.ofModule m config).outputDir)
    (volume : (output v config m s).volume = w) (finished : (output v config m s).abort = none)
    (finished' : (output w config m t).abort = none) (loc : Location) :
    (output w config m t).volume.get? loc = w.get? loc := by
  have ends := Umbrella.endsIn_ofModule m config
  obtain ⟨first, d, written, stages, settled⟩ := exists_settled_stages spelled plain finished
  obtain ⟨second, e, written', stages', settled'⟩ :=
    exists_settled_stages spelled' (volume ▸ stages.tends.plain) finished'
  have plain' : w.Plain := volume ▸ stages.tends.plain
  have found : w.dirOf? (Umbrella.ofModule m config).outputDir = some d :=
    volume ▸ (stages.tends.toKeeps.dirOf? _).trans stages.found
  -- the second output starts in place
  obtain ⟨-, removed, log, ready, -⟩ := stages'.ready
  have prepared := Umbrella.prepared_in_place ends plain' settled.fits_outputDir found ready
  obtain rfl : e = d :=
    Option.some_inj.mp (stages'.found.symm.trans ((prepared.toKeeps.dirOf? _).trans found))
  have tends := prepared.toTends.trans stages'.tends
  by_cases own : Own e loc
  · obtain ⟨name, lead, rfl⟩ := own
    by_cases fits : Fits ((Umbrella.ofModule m config).outputDir.child name)
    · obtain ⟨-, distinct, -⟩ := exists_emitted config ends spelled stages.plain stages.found
      have byHand := Umbrella.collected_of_tends plain' tends ends
        (Umbrella.inside_ofModule m config) found
      refine Volume.get?_eq_of_files plain' tends.plain (tends.toKeeps.isDirAt _) fun bytes => ?_
      rw [same] at settled'
      have kept := settled.file_iff settled' distinct (by rw [volume]; exact tends.toKeeps)
        (by rw [volume]; exact byHand) bytes lead fits
      rwa [volume] at kept
    · exact (stages'.beyond name fits).trans (prepared.beyond name fits)
  · -- elsewhere only directories could have come, and none has
    have confined : Confined e w (output w config m t).volume :=
      confined_output spelled' plain' (Volume.eq_place_of_dirOf? found).symm
    rcases confined.others loc own with same | ⟨none, made⟩
    · exact same
    · have dirs := tends.toKeeps.isDirAt loc
      simp [Volume.isDirAt, none, made, Node.isDir] at dirs

end Pass

end HeaderMeta
