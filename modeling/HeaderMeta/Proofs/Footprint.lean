import HeaderMeta.Proofs.Output.Distant
import HeaderMeta.Proofs.Stages

/-! What a pass leaves alone.

Every file that a pass writes or removes goes by a name of generated files behind the path of the
output directory. Without links that path leads to one location whatever its spelling, so all changes
are confined to that directory (`Confined`). Each stage of a pass keeps to this, also when it fails.
-/

set_option autoImplicit false

namespace HeaderMeta

open HeaderMeta.Path (IsName)

namespace Volume

/-- A place directly in the directory at `d`, under a name of generated files. -/
def Own (d loc : Location) : Prop :=
  ∃ name, Text.startsWith name artifactLead = true ∧ loc = name :: d

/-- No directory goes, and nothing but generated files in the directory at `d` changes, apart from
directories that come. -/
structure Confined (d : Location) (v w : Volume) : Prop where
  plain : w.Plain
  here : w.here = v.here
  faults : w.faults = v.faults
  dirs : ∀ loc, v.isDirAt loc = true → w.isDirAt loc = true
  others : ∀ loc, ¬ Own d loc →
    w.get? loc = v.get? loc ∨ v.get? loc = none ∧ w.get? loc = some .dir

section Confined
variable {u v w : Volume} {d : Location} {p : Path} {name dir : String}

theorem Confined.refl (plain : v.Plain) : Confined d v v :=
  ⟨plain, rfl, rfl, fun _ => id, fun _ _ => .inl rfl⟩

theorem Confined.trans (first : Confined d u v) (second : Confined d v w) : Confined d u w where
  plain := second.plain
  here := second.here.trans first.here
  faults := second.faults.trans first.faults
  dirs loc isDir := second.dirs loc (first.dirs loc isDir)
  others loc other := by
    rcases second.others loc other with same | ⟨none, made⟩
    · rw [same]
      exact first.others loc other
    · -- a directory made last was not there before, nor in between
      rcases first.others loc other with same | ⟨-, before⟩
      · exact .inr ⟨same ▸ none, made⟩
      · rw [before] at none
        cases none

theorem Confined.place (confined : Confined d v w) (p : Path) : w.place p = v.place p :=
  place_congr confined.here p

/-- A file that is not one of those generated there keeps its content. -/
theorem Confined.file (confined : Confined d v w) {loc : Location} {bytes : ByteArray}
    (other : ¬ Own d loc) (there : v.get? loc = some (.file bytes)) :
    w.get? loc = some (.file bytes) := by
  rcases confined.others loc other with same | ⟨none, -⟩
  · rw [same, there]
  · rw [there] at none
    cases none

theorem confined_of_keeps (plain : w.Plain) (keeps : Keeps v w)
    (others : ∀ loc, ¬ Own d loc → w.get? loc = v.get? loc) : Confined d v w :=
  ⟨plain, keeps.here, keeps.faults, fun loc isDir => (keeps.isDirAt loc).trans isDir,
    fun loc other => .inl (others loc other)⟩

theorem confined_makeDir (plain : v.Plain) (made : v.makeDir p = .ok w) : Confined d v w := by
  obtain ⟨name, around, ⟨-, isName, short, isDir, none⟩, rfl⟩ := makeDir_ok plain made
  refine ⟨plain.put isName short isDir nofun fun _ => rfl, rfl, rfl, fun loc there => ?_,
    fun loc _ => ?_⟩
  · rw [isDirAt, get?_put]
    split
    · rfl
    · exact there
  · rw [get?_put]
    split
    next same => exact .inr ⟨same ▸ none, rfl⟩
    next => exact .inl rfl

theorem confined_makeDirs (plain : v.Plain) (p : Path) : Confined d v (v.makeDirs p).1 :=
  makeDirs_induction (R := fun v w => v.Plain → Confined d v w) (fun _ => .refl)
    (fun first second plain => (first plain).trans (second (first plain).plain))
    (fun made plain => confined_makeDir plain made) v p plain

section Files
variable (plain : v.Plain) (isDir : IsName dir) (ends : p.EndsIn dir) (isName : IsName name)
variable (lead : Text.startsWith name artifactLead = true)
include plain isDir ends isName lead

theorem confined_writeText (text : String) :
    Confined (v.place p) v (v.writeText (p.child name) text).1 := by
  cases wrote : v.writeText (p.child name) text with
  | mk w result =>
    rcases plain.tends_writeText isDir ends isName wrote with ⟨rfl, -⟩ | ⟨d, found, tends, -, got⟩
    · exact .refl plain
    · rw [← eq_place_of_dirOf? found]
      refine confined_of_keeps tends.plain tends.toKeeps fun loc other => ?_
      rw [got, if_neg]
      exact fun same => other ⟨name, lead, same⟩

end Files

end Confined

end Volume

open Volume (Confined Own)

namespace Umbrella
variable {u : Umbrella} {v : Volume} {d : Location}
variable (ends : u.outputDir.EndsIn outputDirName) (plain : v.Plain)
variable (lies : v.place u.outputDir = d)
include ends plain lies

theorem confined_put {name : String} (isName : IsName name)
    (lead : Text.startsWith name artifactLead = true) (text : String) :
    Confined d v (put v (u.outputDir.child name) text).1 := by
  have written : (put v (u.outputDir.child name) text).1 =
      (v.writeText (u.outputDir.child name) text).1 := by
    unfold put
    split <;> next wrote => rw [wrote]
  rw [written, ← lies]
  exact Volume.confined_writeText plain Path.isName_outputDirName ends isName lead text

theorem confined_putBoth (header impl : String) : Confined d v (u.putBoth v header impl).1 := by
  have first := confined_put ends plain lies isName_umbrellaHeader startsWith_umbrellaHeader header
  unfold putBoth headerPath
  split
  next w wrote =>
    rw [wrote] at first
    exact first.trans (confined_put ends first.plain ((first.place _).trans lies)
      (isName_umbrellaName _) (startsWith_umbrellaName _) impl)
  next failed => exact first

omit ends plain lies in
theorem Cleared.confined {w : Volume} (cleared : u.Cleared d v w) : Confined d v w := by
  refine Volume.confined_of_keeps cleared.plain cleared.toKeeps fun loc other => ?_
  exact cleared.others loc fun name same earlier => other ⟨name, earlier.lead, same⟩

/-- Preparation keeps to the directory also when it is given up on the way. -/
theorem confined_prepare : Confined d v (u.prepare v).1 := by
  have made : Confined d v (v.makeDirs u.outputDir).1 := Volume.confined_makeDirs plain _
  unfold prepare
  -- each stage that fails ends here with what was confined so far
  split
  next failed => rwa [failed] at made
  next w ok =>
    rw [ok] at made
    split
    next => exact made
    next entries listing =>
      obtain ⟨e, -, found, -, rfl⟩ := made.plain.list_ok listing
      obtain rfl : e = d := (Volume.eq_place_of_dirOf? found).trans ((made.place _).trans lies)
      have named (name : String) (mem : name ∈ w.namesAt e) : IsName name := by
        obtain ⟨_, got⟩ := Volume.mem_namesAt.mp mem
        exact made.plain.isName got
      split
      next x _ failed => exact made.trans (cleared_clear ends made.plain found named failed).1.confined
      next x count removed =>
        have cleared := made.trans (cleared_clear ends made.plain found named removed).1.confined
        have filled := cleared.trans (confined_putBoth ends cleared.plain
          ((cleared.place _).trans lies) (u.placeholder umbrellaHeader)
          (u.placeholder u.implMode.umbrellaName))
        dsimp only
        split
        next put => rwa [put] at filled
        next put => rwa [put] at filled

theorem confined_finalize : Confined d v (u.finalize v).1 := by
  have written := confined_putBoth ends plain lies u.headerText u.implText
  unfold finalize
  split
  next put => rwa [put] at written
  next put => rwa [put] at written

end Umbrella

namespace Emission
variable {p : Path} {d : Location} {e : Emission}
variable (ends : p.EndsIn outputDirName) (plain : e.volume.Plain) (lies : e.volume.place p = d)
include ends plain lies

theorem confined_write {a : Artifact} (placed : a.LiesIn p) :
    Confined d e.volume (e.write a).volume := by
  have written : (e.write a).volume = (e.volume.writeText a.path a.content).1 := by
    unfold write
    split <;> next wrote => rw [wrote]
  rw [written, placed.path, ← lies]
  exact Volume.confined_writeText plain Path.isName_outputDirName ends placed.isName placed.lead _

theorem confined_foldl_write {all : List Artifact} (placed : ∀ a ∈ all, a.LiesIn p) :
    Confined d e.volume (all.foldl write e).volume := by
  induction all generalizing e with
  | nil => exact .refl plain
  | cons a all ih =>
    have first := confined_write ends plain lies (placed a List.mem_cons_self)
    exact first.trans (ih first.plain ((first.place p).trans lies) fun b mem =>
      placed b (List.mem_cons_of_mem a mem))

end Emission

namespace Pass
variable {v w : Volume} {config : Config} {m : SourceModule} {s : Survey} {u : Umbrella}
variable {d : Location}

/-- Emission keeps to the directory and leaves the umbrella with its paths. -/
theorem confined_emitted (config : Config) (ends : u.outputDir.EndsIn outputDirName)
    (spelled : ∀ name decl, s.index.decl? name = some decl → decl.Spelled) (plain : w.Plain)
    (lies : w.place u.outputDir = d) :
    Confined d w (emitted config s u w).volume ∧
      (emitted config s u w).umbrella.outputDir = u.outputDir := by
  have agrees := emitted_agrees config s u w
  have frame := frame_begun config u w
  rw [agrees.volume, agrees.umbrella, Emission.outputDir_foldl_write, frame.outputDir]
  refine ⟨?_, rfl⟩
  refine Emission.confined_foldl_write (e := begun config u w) ends plain lies fun a mem => ?_
  exact Survey.liesIn_of_mem spelled mem

theorem confined_output
    (spelled : ∀ name decl, s.index.decl? name = some decl → decl.Spelled) (plain : v.Plain)
    (lies : v.place (Umbrella.ofModule m config).outputDir = d) :
    Confined d v (output v config m s).volume := by
  have ends := Umbrella.endsIn_ofModule m config
  have prepared := Umbrella.confined_prepare ends plain lies
  cases ready : (Umbrella.ofModule m config).prepare v with
  | mk w rest =>
    rw [ready] at prepared
    obtain ⟨error | removed, log⟩ := rest
    · unfold output
      rw [ready]
      exact prepared
    · cases all : (Umbrella.ofModule m config).collected w with
      | error e =>
        rw [(output_of_unlisted ready all).1]
        exact prepared
      | ok files =>
        obtain ⟨generated, same⟩ := confined_emitted config ends spelled prepared.plain
          ((prepared.place _).trans lies)
        have whole := prepared.trans generated
        rw [(output_of_ok ready all rfl).1]
        -- of the umbrella only its directory matters from here on
        generalize emitted config s (Umbrella.ofModule m config) w = e at same whole
        refine whole.trans (Umbrella.confined_finalize ?_ whole.plain ?_)
        · rwa [same]
        · rw [same, whole.place, lies]

/-- The output directory lies in the sources of the module, however its path is spelled. -/
theorem place_outputDir (v : Volume) (config : Config) (m : SourceModule) :
    v.place (Umbrella.ofModule m config).outputDir = outputDirName :: v.place m.sourceDir := by
  have written := Path.text_ne_empty Path.isName_outputDirName (Path.outputDir_endsIn m)
  rw [Umbrella.outputDir_ofModule, v.place_normalize written, SourceModule.outputDir,
    v.place_child m.sourceDir Path.isName_outputDirName]

/-- Every pass changes nothing, or keeps to the output directory of a module whose sources exist. -/
theorem run_confined (config : Config) (follow : Bool) (m : SourceModule) (plain : v.Plain) :
    (run v config follow m).volume = v ∨
      ∃ src, v.locate m.sourceDir = .ok src ∧
        Confined (outputDirName :: src) v (run v config follow m).volume := by
  cases run_reaches v config follow m with
  | early _ _ _ volume _ => exact .inl volume
  | output found surveyed volume _ _ =>
    obtain ⟨src, located⟩ := Scan.locate_of_ofModule found
    refine .inr ⟨src, located, ?_⟩
    rw [volume, Volume.eq_place_of_locate plain.linkFree located, ← place_outputDir v config m]
    exact confined_output (spelled_ofScan surveyed) plain rfl

/-- In a batch a file is left as it is unless it goes by a name of generated files in the output
directory of one of the modules. -/
theorem runAll_keeps_files (config : Config) (follow : Bool) (ms : List SourceModule)
    (plain : v.Plain) {loc : Location} {bytes : ByteArray}
    (other : ∀ m ∈ ms, ¬ Own (outputDirName :: v.place m.sourceDir) loc)
    (there : v.get? loc = some (.file bytes)) :
    (runAll v config follow ms).1.get? loc = some (.file bytes) := by
  induction ms generalizing v with
  | nil => exact there
  | cons m ms ih =>
    have first : Confined (outputDirName :: v.place m.sourceDir) v
        (run v config follow m).volume := by
      rcases run_confined config follow m plain with same | ⟨src, located, confined⟩
      · rw [same]
        exact .refl plain
      · rwa [Volume.eq_place_of_locate plain.linkFree located] at confined
    -- the paths of the other modules lead where they did
    refine ih first.plain (fun n mem => ?_) (first.file (other m List.mem_cons_self) there)
    rw [first.place]
    exact other n (List.mem_cons_of_mem m mem)

end Pass

namespace SourceModule
variable {v : Volume} {m : SourceModule} {loc : Location}

/-- A place directly in the output directory of a module, under a name of generated files. -/
def Owns (m : SourceModule) (v : Volume) (loc : Location) : Prop :=
  ∃ src, v.locate m.sourceDir = .ok src ∧ Own (outputDirName :: src) loc

inductive Spares (m : SourceModule) (v : Volume) (extensions : List String) : Location → Prop where
  /-- A header of the module, left out by a glob or not. -/
  | header {scan : Scan} {log : Log} {p : Path} {loc : Location} :
    Scan.ofModule v m extensions = .ok (scan, log) → p ∈ scan.files ++ scan.excluded →
      v.locate p = .ok loc → Spares m v extensions loc
  /-- A file somewhere below the directory of hand-written additions. -/
  | override {src : Location} (name : String) (inner : List String) :
    v.locate m.sourceDir = .ok src →
      Spares m v extensions (name :: (inner ++ overrideDirName :: outputDirName :: src))
  /-- A file beside the generated ones that is not called like them. -/
  | beside {src : Location} {name : String} :
    v.locate m.sourceDir = .ok src → Text.startsWith name artifactLead = false →
      Spares m v extensions (name :: outputDirName :: src)
  /-- Output of a module that has its sources elsewhere. -/
  | elsewhere {other : SourceModule} {src src' loc : Location} :
    v.locate m.sourceDir = .ok src → v.locate other.sourceDir = .ok src' → src ≠ src' →
      other.Owns v loc → Spares m v extensions loc

theorem Owns.of_located {src : Location} (owns : m.Owns v loc)
    (located : v.locate m.sourceDir = .ok src) :
    ∃ name, Text.startsWith name artifactLead = true ∧ loc = name :: outputDirName :: src := by
  obtain ⟨src', located', name, lead, same⟩ := owns
  obtain rfl : src = src' := Except.ok.inj (located.symm.trans located')
  exact ⟨name, lead, same⟩

theorem Spares.not_owns {extensions : List String} (spares : m.Spares v extensions loc)
    (plain : v.Plain) : ¬ m.Owns v loc := by
  intro owns
  cases spares with
  | header scanned among reached =>
    have sound := Scan.sound_ofModule plain scanned
    have found := (List.mem_append.mp among).elim (fun mem => (sound.files _ mem).1)
      (sound.excluded _)
    obtain ⟨src, dirs, name, -, located, leads, reached', -⟩ := found.lies
    obtain ⟨own, -, same⟩ := owns.of_located located
    rw [reached] at reached'
    rw [Except.ok.inj reached'] at same
    -- the directory around the header would be an output directory
    have around : dirs.reverse ++ src = [outputDirName] ++ src := (List.cons.inj same).2
    have last := List.append_cancel_right around
    exact leads.apart (List.mem_reverse.mp (last ▸ List.mem_singleton_self outputDirName))
  | override name inner located =>
    obtain ⟨own, -, same⟩ := owns.of_located located
    have lengths := congrArg List.length same
    simp only [List.length_cons, List.length_append] at lengths
    omega
  | beside located other =>
    obtain ⟨own, lead, same⟩ := owns.of_located located
    rw [(List.cons.inj same).1, lead] at other
    cases other
  | elsewhere located located' apart owns' =>
    obtain ⟨own, -, same⟩ := owns.of_located located
    obtain ⟨own', -, same'⟩ := owns'.of_located located'
    rw [same] at same'
    exact apart (List.cons.inj (List.cons.inj same').2).2

end SourceModule

/-- A pass touches its own generated files only, whatever becomes of it. A file that is not in the
output directory under a name of generated files keeps its content, and a file that comes is there
under such a name. So headers, hand-written files and the output of other modules are left as they
are; and no directory goes. -/
theorem Pass.run_touches_own_files (v : Volume) (config : Config) (follow : Bool) (m : SourceModule)
    (plain : v.Plain) :
    let after := (run v config follow m).volume
    (∀ loc bytes, v.get? loc = some (.file bytes) → ¬ m.Owns v loc →
      after.get? loc = some (.file bytes)) ∧
    (∀ loc bytes, after.get? loc = some (.file bytes) →
      (∀ earlier, v.get? loc ≠ some (.file earlier)) → m.Owns v loc) ∧
    (∀ loc bytes, m.Spares v config.scan.extensions loc → v.get? loc = some (.file bytes) →
      after.get? loc = some (.file bytes)) ∧
    ∀ loc, v.isDirAt loc = true → after.isDirAt loc = true := by
  rcases run_confined config follow m plain with same | ⟨src, located, confined⟩
  · rw [same]
    exact ⟨fun _ _ there _ => there, fun loc bytes there fresh => (fresh bytes there).elim,
      fun _ _ _ there => there, fun _ => id⟩
  · have other {loc : Location} (foreign : ¬ m.Owns v loc) : ¬ Own (outputDirName :: src) loc :=
      fun own => foreign ⟨src, located, own⟩
    refine ⟨fun loc bytes there foreign => confined.file (other foreign) there,
      fun loc bytes there fresh => ?_,
      fun loc bytes spares there => confined.file (other (spares.not_owns plain)) there,
      confined.dirs⟩
    -- elsewhere nothing comes but directories
    by_contra foreign
    rcases confined.others loc (other foreign) with same | ⟨-, made⟩
    · exact fresh bytes (same ▸ there)
    · rw [made] at there
      cases there

def Pass.shared : Volume where
  nodes := [(["src"], .dir), (["core", "src"], .dir), (["ui", "src"], .dir),
    (["a.hpp", "core", "src"], .file "struct A;".toUTF8), (["autogen", "core", "src"], .dir),
    (["b.hpp", "core", "src"], .file "struct B;".toUTF8),
    (["autogen_old.hpp", "autogen", "core", "src"], .file .empty),
    (["notes.txt", "autogen", "core", "src"], .file "by hand".toUTF8),
    (["override", "autogen", "core", "src"], .dir),
    (["autogen_a.hpp", "override", "autogen", "core", "src"], .file "by hand".toUTF8),
    (["autogen", "ui", "src"], .dir),
    (["autogen.hpp", "autogen", "ui", "src"], .file "of another".toUTF8)]

def Pass.part (name : String) : SourceModule where
  name
  root := ⟨"/src"⟩
  includePaths := [⟨"/src"⟩]
  exclusions := {}

theorem Pass.plain_shared : shared.Plain where
  distinct := by decide
  noLinks := by simp [shared]
  named := by
    intro n mem
    simp only [shared, List.mem_cons, List.not_mem_nil, or_false] at mem
    rcases mem with rfl | rfl | rfl | rfl | rfl | rfl | rfl | rfl | rfl | rfl | rfl | rfl <;>
      exact ⟨_, _, rfl, by constructor <;> decide, by decide, rfl⟩

theorem Pass.locate_part {name : String} (isName : IsName name)
    (fits : Volume.Fits (part name).sourceDir) {src : Location}
    (found : shared.dirOf? (part name).sourceDir = some src) :
    shared.locate (part name).sourceDir = .ok src :=
  (Volume.locate_of_dirOf? plain_shared isName (Path.endsIn_child _ isName) fits found).1

theorem Pass.run_touches_own_files_shared :
    let after := (run shared {} true (part "core")).volume
    shared.Plain ∧
      after.get? ["a.hpp", "core", "src"] = some (.file "struct A;".toUTF8) ∧
      after.get? ["notes.txt", "autogen", "core", "src"] = some (.file "by hand".toUTF8) ∧
      after.get? ["autogen_a.hpp", "override", "autogen", "core", "src"] =
        some (.file "by hand".toUTF8) ∧
      after.get? ["autogen.hpp", "autogen", "ui", "src"] = some (.file "of another".toUTF8) ∧
      ∀ bytes, after.get? ["autogen_a.hpp", "core", "src"] ≠ some (.file bytes) := by
  obtain ⟨kept, fresh, spared, -⟩ := run_touches_own_files shared {} true (part "core") plain_shared
  have core : shared.locate (part "core").sourceDir = .ok ["core", "src"] :=
    locate_part isName_core (by constructor <;> decide) (by decide)
  have ui : shared.locate (part "ui").sourceDir = .ok ["ui", "src"] :=
    locate_part (by constructor <;> decide) (by constructor <;> decide) (by decide)
  have outside (name : String) : ¬ (part "core").Owns shared [name, "core", "src"] := by
    intro owns
    obtain ⟨own, -, same⟩ := owns.of_located core
    simp [outputDirName] at same
  have other : (part "ui").Owns shared ["autogen.hpp", "autogen", "ui", "src"] :=
    ⟨_, ui, "autogen.hpp", by decide, rfl⟩
  refine ⟨plain_shared, ?_, ?_, ?_, ?_, fun bytes there => ?_⟩
  · exact kept ["a.hpp", "core", "src"] _ rfl (outside _)
  · exact spared ["notes.txt", "autogen", "core", "src"] _ (.beside core (by decide)) rfl
  · exact spared ["autogen_a.hpp", "override", "autogen", "core", "src"] _
      (.override "autogen_a.hpp" [] core) rfl
  · exact spared ["autogen.hpp", "autogen", "ui", "src"] _
      (.elsewhere core ui (by decide) other) rfl
  · exact outside _ (fresh _ bytes there fun earlier same => by cases same)

end HeaderMeta
