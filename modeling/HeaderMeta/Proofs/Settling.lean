import HeaderMeta.Proofs.Regeneration

/-! Every pass that goes through settles the output directory of its module. -/

set_option autoImplicit false

namespace HeaderMeta

open HeaderMeta.Path (IsName)
open Volume (Fits)

namespace Pass

/-- A pass that is not given up settles the output directory of its module. Its files named after
the tool, as far as paths reach, are the two umbrella files and the generated files that were written,
each with its text: the seed of an umbrella file is followed by its hand-written files in path order
and then by the generated files of its side in the order of generation. So no earlier file is left
that a path reaches, a file that was written is listed once, and one that was not is not listed. -/
theorem run_settles (v : Volume) (config : Config) (follow : Bool) (m : SourceModule)
    (plain : v.Plain) (finished : (run v config follow m).abort = none) :
    ∃ scan survey written d,
      (Scan.ofModule v m config.scan.extensions).map Prod.fst = .ok scan ∧
      (Survey.ofScan v config m follow scan).1 = .ok survey ∧
      (Umbrella.ofModule m config).Settled v
        (survey.artifacts config (Umbrella.ofModule m config).outputDir) written d
        (run v config follow m) := by
  obtain ⟨scan, scanned, survey, log, found, surveyed⟩ :=
    exists_survey (((run_eq v config follow m).2.1).symm.trans finished)
  obtain ⟨written, d, settled⟩ := settled_of_survey plain found surveyed finished
  exact ⟨scan, survey, written, d, by rw [found]; rfl, by rw [surveyed], settled⟩

section Crowded

def soleText : String := "struct [[reflectable]] A { int x; };\n"

/-- The sources with that header. In the output directory there are a file of an earlier pass,
hand-written files and a directory that is called like a file to be generated. For another such file
there is room for a few bytes only. -/
def crowded : Volume where
  nodes := [(["core"], .dir), (["a.hpp", "core"], .file soleText.toUTF8), (["autogen", "core"], .dir),
    (["autogen_old.hpp", "autogen", "core"], .file .empty),
    (["autogen_reflector_A.inl", "autogen", "core"], .dir),
    (["override", "autogen", "core"], .dir),
    (["extra.hpp", "override", "autogen", "core"], .file .empty),
    (["extra.cpp", "override", "autogen", "core"], .file .empty)]
  faults := {
    room := fun loc _ => if loc = ["autogen_prototype_A.hpp", "autogen", "core"] then some 12 else none }

theorem plain_crowded : crowded.Plain where
  distinct := by decide
  noLinks := by simp [crowded]
  named := by
    intro n mem
    simp only [crowded, List.mem_cons, List.not_mem_nil, or_false] at mem
    rcases mem with rfl | rfl | rfl | rfl | rfl | rfl | rfl | rfl <;>
      exact ⟨_, _, rfl, by constructor <;> decide, by decide, rfl⟩

theorem listable_crowded (d : Location) : crowded.Listable d :=
  ⟨rfl, fun _ _ => rfl⟩

def soleSurvey : Survey :=
  homeSurvey (({} : Namespace).merge (Header.read ⟨mainHeader, soleText⟩).root).1.resolved
    [(mainHeader, Text.stripComments soleText)]

theorem read_soleText :
    ((Header.read ⟨mainHeader, soleText⟩).diagnostics = [] ∧
      (Header.read ⟨mainHeader, soleText⟩).includes = []) ∧
    soleSurvey.verdicts.entries = [("A", .reflectable)] ∧
    (soleSurvey.index.decl? "A").map (·.name) = some "A" ∧
    soleSurvey.index.nestedGraph.next "A" = [] := by
  decide +kernel

theorem survey_crowded :
    ∃ log, Survey.ofScan crowded {} home true { files := [⟨"./core/a.hpp"⟩] } =
      (.ok soleSurvey, log) := by
  have read : crowded.readText mainHeader = .ok soleText := readText_main plain_crowded rfl rfl
  obtain ⟨⟨clean, includes⟩, -⟩ := read_soleText
  obtain ⟨sources, root⟩ := Reading.ofRequest_alone plain_crowded.linkFree start_home read
    (by rw [includes]; exact List.forall_mem_nil _)
  obtain ⟨tree, said, ok, declared, files⟩ := exists_tree_main plain_crowded read clean
  obtain ⟨log, surveyed⟩ := survey_of_read {} ok
  refine ⟨log, surveyed.trans ?_⟩
  rw [declared, files, root, sources, candidatePaths_home]
  simp [soleSurvey, homeSurvey, HeaderTexts.ofFiles, read, Except.toOption]

theorem artifacts_sole : ∃ decl c,
    soleSurvey.artifacts {} ⟨"core/autogen"⟩ =
      Artifact.generate ({} : Config).emit ⟨"core/autogen"⟩ decl .reflectable c "A" := by
  obtain ⟨-, entries, known, leaf⟩ := read_soleText
  have fine := TypeIndex.checkNestedCycles_of_leaf leaf
  obtain ⟨decl, indexed, named⟩ := Option.map_eq_some_iff.mp known
  obtain ⟨c, target⟩ :=
    (Survey.exists_target?_iff (v := .reflectable) indexed).mpr ⟨rfl, fun _ => fine⟩
  have stem : (Stems.allocate { foldCase := ({} : Config).scan.caseRule.isInsensitive } decl).1 = "A" := by
    simp [Stems.allocate, Stems.choose, Stems.isFree, named]
  refine ⟨decl, c, ?_⟩
  rw [Survey.artifacts, entries, Survey.artifactsFrom, target]
  dsimp only
  rw [stem, Survey.artifactsFrom, List.append_nil]

theorem collected_crowded : (Umbrella.ofModule home {}).collected crowded =
    .ok [⟨"core/autogen/override/extra.cpp"⟩, ⟨"core/autogen/override/extra.hpp"⟩] := by
  have dir : (Umbrella.ofModule home {}).overrideDir = ⟨"core/autogen/override"⟩ := by decide
  have ends : (⟨"core/autogen/override"⟩ : Path).EndsIn overrideDirName :=
    .inr ⟨"core/autogen", by decide⟩
  have fits : Fits (⟨"core/autogen/override"⟩ : Path) := by constructor <;> decide
  have found : crowded.dirOf? ⟨"core/autogen/override"⟩ = some ["override", "autogen", "core"] := rfl
  obtain ⟨located, isDir⟩ := Volume.locate_of_dirOf? plain_crowded Path.isName_overrideDirName ends
    fits found
  have header : Path.child ⟨"core/autogen/override"⟩ "extra.hpp" =
      ⟨"core/autogen/override/extra.hpp"⟩ := by decide
  have impl : Path.child ⟨"core/autogen/override"⟩ "extra.cpp" =
      ⟨"core/autogen/override/extra.cpp"⟩ := by decide
  have entries : crowded.entries ⟨"core/autogen/override"⟩ =
      [⟨"core/autogen/override/extra.hpp"⟩, ⟨"core/autogen/override/extra.cpp"⟩] := by
    rw [Volume.entries_of_dirOf? plain_crowded Path.isName_overrideDirName ends fits found, ← header,
      ← impl]
    rfl
  have first := (Volume.leaf_child plain_crowded Path.isName_overrideDirName ends found header
    (by constructor <;> decide) (by constructor <;> decide) ⟨_, rfl⟩).2
  have second := (Volume.leaf_child plain_crowded Path.isName_overrideDirName ends found impl
    (by constructor <;> decide) (by constructor <;> decide) ⟨_, rfl⟩).2
  have all : Umbrella.collect crowded crowded.depthBound ⟨"core/autogen/override"⟩
      (([⟨"core/autogen/override/extra.hpp"⟩, ⟨"core/autogen/override/extra.cpp"⟩] : List Path).map .ok) =
      .ok [⟨"core/autogen/override/extra.hpp"⟩, ⟨"core/autogen/override/extra.cpp"⟩] := by
    rw [List.map_cons, List.map_cons, Umbrella.collect_cons, Umbrella.collect_cons,
      Umbrella.collectAt_of_not_isDir first, Umbrella.collectAt_of_not_isDir second, List.map_nil,
      Umbrella.collect]
    rfl
  rw [Umbrella.collected, dir, isDir, (listable_crowded _).list_eq isDir located, entries]
  refine (congrArg (Except.map _) all).trans (congrArg Except.ok ?_)
  have after : Path.le ⟨"core/autogen/override/extra.hpp"⟩ ⟨"core/autogen/override/extra.cpp"⟩ = false := by
    decide
  simp [List.mergeSort, after]

theorem names_sole : (soleSurvey.artifacts {} ⟨"core/autogen"⟩).map
    (fun a => (a.kind.isHeader, a.fileName)) =
      [(true, "autogen_reflector_A.hpp"), (false, "autogen_reflector_A.inl"),
        (true, "autogen_prototype_A.hpp"), (false, "autogen_prototype_A.inl")] := by
  obtain ⟨decl, c, all⟩ := artifacts_sole
  rw [all, Artifact.generate, List.map_map]
  change ArtifactKind.all.map (fun kind => (kind.isHeader,
    ((Path.child ⟨"core/autogen"⟩ (kind.fileName "A")).fileName?).getD "")) = _
  decide

theorem accepts_crowded_iff {name : String} (text : String)
    (among : name ∈ ["autogen_reflector_A.hpp", "autogen_reflector_A.inl", "autogen_prototype_A.hpp",
      "autogen_prototype_A.inl"]) :
    crowded.Accepts ⟨"core/autogen"⟩ ["autogen", "core"] name text ↔
      name ∈ ["autogen_reflector_A.hpp", "autogen_prototype_A.inl"] := by
  simp only [List.mem_cons, List.not_mem_nil, or_false] at among
  rcases among with rfl | rfl | rfl | rfl
  · exact iff_of_true ⟨⟨by constructor <;> decide, by decide, rfl⟩, rfl⟩ (by decide)
  · exact iff_of_false (fun accepts => nomatch accepts.noDir) (by decide)
  · exact iff_of_false (fun accepts => nomatch accepts.room) (by decide)
  · exact iff_of_true ⟨⟨by constructor <;> decide, by decide, rfl⟩, rfl⟩ (by decide)

theorem fileName_sole {a : Artifact} (mem : a ∈ soleSurvey.artifacts {} ⟨"core/autogen"⟩) :
    a.fileName ∈ ["autogen_reflector_A.hpp", "autogen_reflector_A.inl", "autogen_prototype_A.hpp",
      "autogen_prototype_A.inl"] := by
  have pair := List.mem_map_of_mem (f := fun a : Artifact => (a.kind.isHeader, a.fileName)) mem
  rw [names_sole] at pair
  exact List.mem_map_of_mem (f := Prod.snd) pair

theorem exists_fileName_sole {name : String} (among : name ∈ ["autogen_reflector_A.hpp",
      "autogen_reflector_A.inl", "autogen_prototype_A.hpp", "autogen_prototype_A.inl"]) :
    ∃ a ∈ soleSurvey.artifacts {} ⟨"core/autogen"⟩, a.fileName = name := by
  have names := congrArg (List.map Prod.snd) names_sole
  rw [List.map_map] at names
  exact List.mem_map.mp (names ▸ among : name ∈ (soleSurvey.artifacts {} ⟨"core/autogen"⟩).map
    Artifact.fileName)

theorem run_crowded : (run crowded {} true home).abort = none ∧
    Volume.Tends ["autogen", "core"] crowded (run crowded {} true home).volume := by
  obtain ⟨log, found⟩ := scan_home plain_crowded rfl (listable_crowded _) rfl ⟨_, rfl⟩ rfl
  obtain ⟨said, surveyed⟩ := survey_crowded
  refine run_finishes plain_crowded found surveyed (outputDir_home ▸ rfl) (listable_crowded _)
    collected_crowded ?_ ?_ ?_
  · exact ⟨outputDir_home ▸ by constructor <;> decide, by decide, rfl⟩
  · exact ⟨outputDir_home ▸ by constructor <;> decide, by decide, rfl⟩
  · intro name umbrella bytes
    simp only [List.mem_cons, List.not_mem_nil, or_false] at umbrella
    rcases umbrella with rfl | rfl <;> rfl

section Settled
variable {written : List Artifact} {r : PassResult}
variable (settled : (Umbrella.ofModule home {}).Settled crowded
  (soleSurvey.artifacts {} ⟨"core/autogen"⟩) written ["autogen", "core"] r)
variable (tends : Volume.Tends ["autogen", "core"] crowded r.volume)
include settled tends

theorem written_crowded : (written.map fun a => (a.kind.isHeader, a.fileName)) =
    [(true, "autogen_reflector_A.hpp"), (false, "autogen_prototype_A.inl")] := by
  have distinct := (congrArg (List.map Prod.snd) names_sole)
  rw [List.map_map] at distinct
  have apart : ((soleSurvey.artifacts {} ⟨"core/autogen"⟩).map Artifact.fileName).Nodup := by
    change ((soleSurvey.artifacts {} ⟨"core/autogen"⟩).map
      (Prod.snd ∘ fun a : Artifact => (a.kind.isHeader, a.fileName))).Nodup
    rw [distinct]
    decide
  have chosen : written = (soleSurvey.artifacts {} ⟨"core/autogen"⟩).filter fun a =>
      a.fileName ∈ ["autogen_reflector_A.hpp", "autogen_prototype_A.inl"] := by
    refine sublist_eq_of_mem_iff apart.of_map settled.order List.filter_sublist fun a mem => ?_
    rw [settled.wrote a mem, tends.toKeeps.accepts_iff, outputDir_home,
      accepts_crowded_iff _ (fileName_sole mem), List.mem_filter, and_iff_right mem, decide_eq_true_eq]
  have kept := congrArg (List.filter fun pair : Bool × String =>
    pair.2 ∈ ["autogen_reflector_A.hpp", "autogen_prototype_A.inl"]) names_sole
  rw [List.filter_map] at kept
  rw [chosen]
  exact kept.trans (by decide)

theorem includes_crowded (which : Bool) : (Umbrella.ofModule home {}).includes r.volume written which =
    if which then ["override/extra.hpp", "autogen_reflector_A.hpp"]
    else ["override/extra.cpp", "autogen_prototype_A.inl"] := by
  have byHand := Umbrella.collected_of_tends plain_crowded tends (Umbrella.endsIn_ofModule home {})
    (Umbrella.inside_ofModule home {}) (outputDir_home ▸ rfl)
  have own : (written.filter fun a => a.kind.isHeader = which).map Artifact.fileName =
      (([(true, "autogen_reflector_A.hpp"), (false, "autogen_prototype_A.inl")] :
        List (Bool × String)).filter fun pair => pair.1 = which).map Prod.snd := by
    rw [← written_crowded settled tends, List.filter_map, List.map_map]
    rfl
  rw [Umbrella.includes, Umbrella.overrides_of_ok (byHand.trans collected_crowded), own, outputDir_home]
  cases which <;> decide +kernel

end Settled

/-- The earlier file goes. Two files are written and listed behind the hand-written ones. The directory
stays in the place of the third file, and of the fourth there is a part that is not listed. -/
theorem run_settles_crowded :
    let r := run crowded {} true home
    let held (name : String) : Option Node := r.volume.get? [name, "autogen", "core"]
    crowded.Plain ∧ r.abort = none ∧ r.report.artifactsWritten = 2 ∧ r.report.writeFailures = 2 ∧
      held "autogen.hpp" = some (.file
        (Umbrella.headerSeed ({} : Config).emit.platformInclude ++
          "#include \"override/extra.hpp\"\n#include \"autogen_reflector_A.hpp\"\n").toUTF8) ∧
      held "autogen.cpp" = some (.file
        (Umbrella.implSeed ++
          "#include \"override/extra.cpp\"\n#include \"autogen_prototype_A.inl\"\n").toUTF8) ∧
      (∀ name ∈ ["autogen_reflector_A.hpp", "autogen_prototype_A.inl"],
        ∃ a ∈ soleSurvey.artifacts {} ⟨"core/autogen"⟩, a.fileName = name ∧
          held name = some (.file a.content.toUTF8)) ∧
      (∃ a ∈ soleSurvey.artifacts {} ⟨"core/autogen"⟩, a.fileName = "autogen_prototype_A.hpp" ∧
        held "autogen_prototype_A.hpp" = some (.file (a.content.toUTF8.extract 0 12))) ∧
      held "autogen_reflector_A.inl" = some .dir ∧
      ∀ bytes, held "autogen_old.hpp" ≠ some (.file bytes) := by
  intro r held
  obtain ⟨finished, tends⟩ := run_crowded
  obtain ⟨scan, survey, written, d, found, surveyed, settled⟩ :=
    run_settles crowded {} true home plain_crowded finished
  -- what was scanned and surveyed is known
  obtain ⟨log, found'⟩ := scan_home plain_crowded rfl (listable_crowded _) rfl ⟨_, rfl⟩ rfl
  obtain ⟨said, surveyed'⟩ := survey_crowded
  obtain rfl : _ = scan := Except.ok.inj ((congrArg (Except.map Prod.fst) found').symm.trans found)
  obtain rfl : soleSurvey = survey := Except.ok.inj ((congrArg Prod.fst surveyed').symm.trans surveyed)
  obtain rfl : d = ["autogen", "core"] :=
    (Volume.eq_place_of_locate tends.plain.linkFree settled.located).trans
      (Volume.eq_place_of_dirOf? ((tends.toKeeps.dirOf? _).trans (outputDir_home ▸ rfl))).symm
  rw [outputDir_home] at settled
  have names := written_crowded settled tends
  have two : written.length = 2 := by simpa using congrArg List.length names
  have four : (soleSurvey.artifacts {} ⟨"core/autogen"⟩).length = 4 := by
    simpa using congrArg List.length names_sole
  have lost : r.report.writeFailures + written.length = _ := settled.failed
  have included := includes_crowded settled tends
  have umbrella {name text : String}
      (mem : (name, text) ∈ (Umbrella.ofModule home {}).holdings r.volume written) :
      held name = some (.file text.toUTF8) :=
    ((settled.held name _).mpr (.inl ⟨text, mem, rfl⟩)).2.2
  refine ⟨plain_crowded, finished, settled.counted.trans two, by omega, ?_, ?_, fun name among => ?_,
    ?_, ?_, fun bytes there => ?_⟩
  · have header := umbrella List.mem_cons_self
    rw [included] at header
    exact header
  · have impl := umbrella (List.mem_cons_of_mem _ List.mem_cons_self)
    rw [included] at impl
    exact impl
  · have mem : name ∈ (written.map fun a => (a.kind.isHeader, a.fileName)).map Prod.snd :=
      names ▸ among
    rw [List.map_map] at mem
    obtain ⟨a, inside, rfl⟩ := List.mem_map.mp mem
    exact ⟨a, settled.order.subset inside, rfl, umbrella <|
      List.mem_cons_of_mem _ (List.mem_cons_of_mem _ (List.mem_map_of_mem inside))⟩
  · obtain ⟨a, mem, named⟩ : ∃ a ∈ soleSurvey.artifacts {} ⟨"core/autogen"⟩,
        a.fileName = "autogen_prototype_A.hpp" := exists_fileName_sole (by decide)
    have admits : crowded.Admits (Umbrella.ofModule home {}).outputDir ["autogen", "core"]
        a.fileName := by
      rw [outputDir_home, named]
      exact ⟨by constructor <;> decide, by decide, rfl⟩
    refine ⟨a, mem, named, ((settled.held _ _).mpr (.inr ⟨a, mem, named, ?_⟩)).2.2⟩
    refine ⟨tends.toKeeps.admits_iff.mpr admits, 12, ?_, rfl⟩
    rw [tends.faults, named]
    rfl
  · exact Volume.get?_of_isDirAt ((tends.isDirAt _).trans rfl)
  · rcases settled.name_cases (by decide) (outputDir_home ▸ by constructor <;> decide) there with
      same | same | ⟨a, mem, same⟩
    · exact absurd same (by decide)
    · exact absurd same (by decide)
    · exact absurd (same ▸ fileName_sole mem) (by decide)

end Crowded

/-- An earlier file is left when its path is longer than paths may be: the two umbrella files are
written, no other file is, and yet there is a third one. -/
theorem run_leaves_distant :
    littered.Plain ∧ (run littered {} true (distant 1355)).abort = none ∧
      (run littered {} true (distant 1355)).report.artifactsWritten = 0 ∧
      ∃ d, (run littered {} true (distant 1355)).volume.locate
          (Umbrella.ofModule (distant 1355) {}).outputDir = .ok d ∧
        (run littered {} true (distant 1355)).volume.get? ("autogen_old.hpp" :: d) =
          some (.file .empty) ∧
        Text.startsWith "autogen_old.hpp" artifactLead = true ∧
        "autogen_old.hpp" ∉
          [umbrellaHeader, (Umbrella.ofModule (distant 1355) {}).implMode.umbrellaName] := by
  obtain ⟨finished, located⟩ := run_distant (n := 1355) (by decide) {} true
  obtain ⟨scanned, found⟩ := scan_distant (n := 1355) (by decide) ({} : Config).scan.extensions
  obtain ⟨s, log, surveyed, none⟩ := ofScan_of_no_files littered {} (distant 1355) true
  obtain ⟨written, d, settled⟩ := settled_of_survey plain_littered found surveyed finished
  obtain rfl : written = [] := List.sublist_nil.mp (none _ ▸ settled.order)
  have output := outputDir_distant 1355 {}
  obtain rfl : ["autogen", "core", "src"] = d :=
    Except.ok.inj (located.symm.trans (output ▸ settled.located))
  have unfit : ¬ Fits ((Umbrella.ofModule (distant 1355) {}).outputDir.child "autogen_old.hpp") := by
    rw [output, fits_output_child isName_earlier]
    decide
  exact ⟨plain_littered, finished, settled.counted, _, settled.located,
    settled.beyond _ .empty unfit rfl, by decide, earlier_not_umbrella _⟩

end Pass

end HeaderMeta

