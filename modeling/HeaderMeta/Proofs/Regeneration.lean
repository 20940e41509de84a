import HeaderMeta.Proofs.Origin
import HeaderMeta.Proofs.Output.Again
import HeaderMeta.Proofs.Rereading

/-! Generating the files of a module again.

Headers are read before the output directory is cleared and filled, and a header that includes a
generated file reads the output of the pass before. A pass that does so may come out differently the
next time. When neither of two passes does, the second finds the same headers, verdicts and files to
write, and leaves all as it was.
-/

set_option autoImplicit false

namespace HeaderMeta

open HeaderMeta.Path (IsName EndsIn)
open Volume (Confined Own)

namespace Pass
variable {config : Config} {follow : Bool} {m : SourceModule} {v w : Volume} {src : Location}
variable {s : Survey} {scan : Scan} {scanned log : Log}

/-- A pass reads a generated file of its own module: some header leads there. -/
def ReadsOutput (v : Volume) (config : Config) (follow : Bool) (m : SourceModule) : Prop :=
  ∃ scan log p, Scan.ofModule v m config.scan.extensions = .ok (scan, log) ∧
    Reading.Reachable v (Survey.request m follow scan) p ∧ m.Owns v (v.place p)

theorem survey_of_read (config : Config) {tree : HeaderTree}
    (read : HeaderTree.read v (Survey.request m follow scan) = (.ok tree, scanned)) :
    ∃ log, Survey.ofScan v config m follow scan = (.ok {
      scan, index := .ofRoot tree.root
      verdicts := .ofModule config.policy
        (.ofFiles (fun p => (v.readText p).toOption) tree.files) (.ofRoot tree.root)
        (Survey.candidatePaths scan).contains }, log) := by
  unfold Survey.ofScan
  rw [read]
  exact ⟨_, rfl⟩

/-- A module is surveyed alike when only its generated files have changed and none of them is read. -/
theorem survey_confined (plain : v.Plain) (here : v.isDirAt v.here = true)
    (located : v.locate m.sourceDir = .ok src) (confined : Confined (outputDirName :: src) v w)
    (apart : ¬ ReadsOutput v config follow m) (apart' : ¬ ReadsOutput w config follow m)
    (found : Scan.ofModule v m config.scan.extensions = .ok (scan, scanned))
    (surveyed : Survey.ofScan v config m follow scan = (.ok s, log)) :
    ∃ scan' scanned' t log', Scan.ofModule w m config.scan.extensions = .ok (scan', scanned') ∧
      Survey.ofScan w config m follow scan' = (.ok t, log') ∧
      t.index = s.index ∧ t.verdicts = s.verdicts := by
  obtain ⟨scan', scanned', found', files⟩ := Scan.files_confined plain located confined found
  have located' : w.locate m.sourceDir = .ok src := by
    obtain ⟨src', there⟩ := Scan.locate_of_ofModule found'
    rw [there, Volume.eq_place_of_locate confined.plain.linkFree there, confined.place,
      ← Volume.eq_place_of_locate plain.linkFree located]
  have request : Survey.request m follow scan' = Survey.request m follow scan := by
    rw [Survey.request, Survey.request, files]
  obtain ⟨tree, said, read, rfl⟩ := read_of_survey_ok surveyed
  have ok : (HeaderTree.read v (Survey.request m follow scan)).1 = .ok tree := by rw [read]
  obtain ⟨readable, reached⟩ := Reading.files_reached plain.linkFree ok
  -- neither run reads a generated file
  have other (p : Path) (reach : Reading.Reachable v (Survey.request m follow scan) p) :
      ¬ Own (outputDirName :: src) (v.place p) := fun own =>
    apart ⟨scan, scanned, p, found, reach, src, located, own⟩
  have other' (p : Path) (reach : Reading.Reachable w (Survey.request m follow scan) p) :
      ¬ Own (outputDirName :: src) (v.place p) := fun own =>
    apart' ⟨scan', scanned', p, found', request ▸ reach, src, located', confined.place p ▸ own⟩
  have read' := Reading.read_confined plain here confined other other' readable
  rw [read, ← request] at read'
  -- the verdicts depend on the texts of the headers, which are the same
  have texts : HeaderTexts.ofFiles (fun p => (w.readText p).toOption) tree.files =
      HeaderTexts.ofFiles (fun p => (v.readText p).toOption) tree.files := by
    refine congrArg HeaderTexts.mk (List.filterMap_congr fun p mem => ?_)
    dsimp only
    rw [Reading.readText_reachable plain here confined other readable (reached p mem)]
  obtain ⟨log', surveyed'⟩ := survey_of_read config read'
  refine ⟨scan', scanned', _, log', found', surveyed', rfl, ?_⟩
  dsimp only
  rw [texts, Survey.candidatePaths, Survey.candidatePaths, files]

end Pass

/-- The files of types depend on the index and the verdicts only. -/
theorem Survey.artifacts_congr {s t : Survey} (index : t.index = s.index)
    (verdicts : t.verdicts = s.verdicts) (config : Config) (dir : Path) :
    t.artifacts config dir = s.artifacts config dir := by
  have targets (entry : String × Verdict) : t.target? entry = s.target? entry := by
    rw [target?, target?, index, verdicts]
  have each (stems : Stems) (entries : List (String × Verdict)) :
      t.artifactsFrom config dir stems entries = s.artifactsFrom config dir stems entries := by
    induction entries generalizing stems with
    | nil => rfl
    | cons entry rest ih => simp only [artifactsFrom, targets, ih]
  rw [artifacts, artifacts, verdicts, each]

namespace Pass
variable {config : Config} {follow : Bool} {m : SourceModule} {v w : Volume}

theorem run_output {s : Survey} {scan : Scan} {scanned log : Log}
    (found : Scan.ofModule v m config.scan.extensions = .ok (scan, scanned))
    (surveyed : Survey.ofScan v config m follow scan = (.ok s, log)) :
    (run v config follow m).volume = (output v config m s).volume ∧
      (run v config follow m).abort = (output v config m s).abort := by
  obtain ⟨volume, abort, -, -⟩ := run_eq v config follow m
  rw [steps_of_ok found surveyed] at volume abort
  dsimp only at volume abort
  exact ⟨volume, abort⟩

theorem run_output_again {s : Survey} {scan : Scan} {scanned log : Log} (plain : v.Plain)
    (here : v.isDirAt v.here = true)
    (found : Scan.ofModule v m config.scan.extensions = .ok (scan, scanned))
    (surveyed : Survey.ofScan v config m follow scan = (.ok s, log))
    (finished : (output v config m s).abort = none) (volume : (output v config m s).volume = w)
    (apart : ¬ ReadsOutput v config follow m) (apart' : ¬ ReadsOutput w config follow m) :
    ((∀ loc, v.faults.broken loc = none) → (run w config follow m).abort = none) ∧
      ((run w config follow m).abort = none →
        ∀ loc, (run w config follow m).volume.get? loc = w.get? loc) := by
  have spelled := spelled_ofScan surveyed
  obtain ⟨src, located⟩ := Scan.locate_of_ofModule found
  have lies : v.place (Umbrella.ofModule m config).outputDir = outputDirName :: src := by
    rw [place_outputDir, ← Volume.eq_place_of_locate plain.linkFree located]
  have confined : Confined (outputDirName :: src) v w :=
    volume ▸ confined_output spelled plain lies
  obtain ⟨scan', scanned', t, log', found', surveyed', index, verdicts⟩ :=
    survey_confined plain here located confined apart apart' found surveyed
  obtain ⟨prepared, d, stages⟩ := exists_stages spelled plain finished
  obtain ⟨volume', abort⟩ := run_output found' surveyed'
  have spelled' := spelled_ofScan surveyed'
  have same := Survey.artifacts_congr index verdicts config (Umbrella.ofModule m config).outputDir
  refine ⟨fun unbroken => ?_, fun again loc => ?_⟩
  · rw [abort]
    exact output_finishes_again spelled spelled' same stages volume fun loc =>
      confined.faults ▸ unbroken loc
  · rw [volume']
    exact output_again spelled spelled' plain same volume finished (abort.symm.trans again) loc

/-- Scanned headers are no generated files. -/
theorem not_own_of_scanned {scan : Scan} {log : Log} {src : Location} {file : Path} (plain : v.Plain)
    (scanned : Scan.ofModule v m config.scan.extensions = .ok (scan, log)) (mem : file ∈ scan.files)
    (located : v.locate m.sourceDir = .ok src) :
    ¬ Own (outputDirName :: src) (v.place file.normalize) := by
  obtain ⟨src', dirs, name, bytes, located', leads, reached, -⟩ :=
    ((Scan.sound_ofModule plain scanned).files file mem).1.lies
  obtain rfl : src = src' := Except.ok.inj (located.symm.trans located')
  rw [Volume.place_eq, Path.components_normalize, Path.foldl_enter_reduce, ← Volume.place_eq,
    ← Volume.eq_place_of_locate plain.linkFree reached]
  exact leads.not_own src

/-- A pass over headers that include only each other reads nothing that was generated. -/
theorem not_readsOutput_of_closed (plain : v.Plain)
    (closed : ∀ scan log, Scan.ofModule v m config.scan.extensions = .ok (scan, log) →
      ∀ file ∈ scan.files, ∀ q, Reading.Includes v (Survey.request m follow scan) file.normalize q →
        ∃ other ∈ scan.files, q = other.normalize) : ¬ ReadsOutput v config follow m := by
  rintro ⟨scan, log, p, scanned, ⟨file, mem, way⟩, src, located, own⟩
  have among : ∃ other ∈ scan.files, p = other.normalize := by
    clear own
    induction way with
    | refl => exact ⟨file, mem, rfl⟩
    | tail _ inc ih =>
      obtain ⟨other, inside, rfl⟩ := ih
      exact closed scan log scanned other inside _ inc
  obtain ⟨other, inside, rfl⟩ := among
  exact not_own_of_scanned plain scanned inside located own

theorem not_readsOutput_of_not_follow (plain : v.Plain) : ¬ ReadsOutput v config false m :=
  not_readsOutput_of_closed plain fun _ _ _ _ _ _ inc => nomatch inc.1

section Aged

def aliasText : String := "using T = Q;"

/-- The sources of a module with one header. Beside its output there is a file of an earlier pass. -/
def aged (text : String) : Volume where
  nodes := [(["core"], .dir), (["a.hpp", "core"], .file text.toUTF8), (["autogen", "core"], .dir),
    (["autogenerated.hpp", "autogen", "core"], .file aliasText.toUTF8)]

def home : SourceModule where
  name := "core"
  root := ⟨"."⟩
  includePaths := [⟨"."⟩]
  exclusions := {}

variable {text : String} {u : Volume}

theorem plain_aged (text : String) : (aged text).Plain where
  distinct := by simp [aged]
  noLinks := by simp [aged]
  named := by
    intro n mem
    simp only [aged, List.mem_cons, List.not_mem_nil, or_false] at mem
    rcases mem with rfl | rfl | rfl | rfl <;> exact ⟨_, _, rfl, by constructor <;> decide, by decide, rfl⟩

theorem scan_home (plain : u.Plain) (here : u.here = []) (listable : u.Listable ["core"])
    (names : u.namesAt ["core"] = ["a.hpp", outputDirName])
    (file : ∃ bytes, u.get? ["a.hpp", "core"] = some (.file bytes))
    (output : u.isDirAt [outputDirName, "core"] = true) :
    ∃ log, Scan.ofModule u home ({} : Config).scan.extensions =
      .ok ({ files := [⟨"./core/a.hpp"⟩] }, log) := by
  have core : u.isDirAt ["core"] = true :=
    let ⟨_, there⟩ := file
    plain.isDirAt_of_get? there
  have root : u.isDirAt [] = true := rfl
  have ends : home.sourceDir.EndsIn "core" := Path.endsIn_child _ isName_core
  have fits : Volume.Fits home.sourceDir := by constructor <;> decide
  have found : u.dirOf? home.sourceDir = some ["core"] := by
    have start : u.startOf home.sourceDir = [] := here
    have parts : home.sourceDir.parts = [".", "core"] := by decide
    have short : ¬ "core".utf8ByteSize > Volume.maxName := by decide
    rw [Volume.dirOf?, start, parts]
    simp [Volume.dirAt, core, root, short]
  have header : home.sourceDir.child "a.hpp" = ⟨"./core/a.hpp"⟩ := by decide
  have outputPath : home.sourceDir.child outputDirName = ⟨"./core/autogen"⟩ := by decide
  have listed : (u.namesAt ["core"]).map home.sourceDir.child =
      [⟨"./core/a.hpp"⟩, ⟨"./core/autogen"⟩] := by
    rw [names, List.map_cons, List.map_singleton, header, outputPath]
  have leaf := Volume.leaf_child plain isName_core ends found header (by constructor <;> decide)
    (by constructor <;> decide) file
  have reached : u.dirOf? ⟨"./core/autogen"⟩ = some ["autogen", "core"] := by
    have step := Volume.dirOf?_child (v := u) Path.isName_outputDirName
      (Path.text_ne_empty isName_core ends)
    rw [found, Option.bind_some, if_pos ⟨by decide, output⟩, outputPath] at step
    exact step
  have outputDir : u.isDir ⟨"./core/autogen"⟩ = true :=
    (Volume.locate_of_dirOf? plain Path.isName_outputDirName
      (.inr ⟨"./core", by decide⟩) (by constructor <;> decide) reached).2
  obtain ⟨n, depth⟩ : ∃ n, u.depthBound = n + 1 :=
    Nat.exists_eq_add_one_of_ne_zero (by simp [Volume.depthBound, Volume.maxLinks])
  have named : (⟨"./core/autogen"⟩ : Path).fileName? = some outputDirName := by decide
  have taken : home.exclusions.matching? ⟨"./core/a.hpp"⟩ = none := rfl
  have extension : Scan.isHeader ({} : Config).scan.extensions ⟨"./core/a.hpp"⟩ = true := by
    decide +kernel
  obtain ⟨log, scanned⟩ : ∃ log, Scan.scanEntries u home ({} : Config).scan.extensions u.depthBound
      [⟨"./core/a.hpp"⟩, ⟨"./core/autogen"⟩] = ({ files := [⟨"./core/a.hpp"⟩] }, log) := by
    rw [depth]
    simp [Scan.scanEntries, Scan.ofEntry, Scan.append, outputDir, named, leaf, extension, taken]
  exact Scan.exists_ofModule_of_names plain isName_core fits found listable listed (by decide) scanned

theorem scan_aged (text : String) :
    ∃ log, Scan.ofModule (aged text) home ({} : Config).scan.extensions =
      .ok ({ files := [⟨"./core/a.hpp"⟩] }, log) :=
  scan_home (plain_aged text) rfl (Volume.listable_of_faultless rfl _) rfl ⟨_, rfl⟩ rfl

def mainHeader : Path := ⟨"core/a.hpp"⟩

def earlierHeader : Path := ⟨"core/autogen/autogenerated.hpp"⟩

def homeRequest : HeaderRequest :=
  Survey.request home true { files := [⟨"./core/a.hpp"⟩] }

theorem start_home :
    Reading.start homeRequest = { queue := [⟨mainHeader, true⟩], seen := [mainHeader] } := by
  have normal : (⟨"./core/a.hpp"⟩ : Path).normalize = mainHeader := by decide
  simp [Reading.start, homeRequest, Survey.request, Reading.enqueue, normal]

theorem readText_main (plain : u.Plain) (here : u.here = [])
    (there : u.get? ["a.hpp", "core"] = some (.file text.toUTF8)) :
    u.readText mainHeader = .ok text := by
  have dir : u.isDirAt ["core"] = true := plain.isDirAt_of_get? there
  have root : u.isDirAt [] = true := rfl
  have found : u.dirOf? ⟨"core"⟩ = some ["core"] := by
    have start : u.startOf ⟨"core"⟩ = [] := here
    have parts : (⟨"core"⟩ : Path).parts = ["core"] := by decide
    have short : ¬ "core".utf8ByteSize > Volume.maxName := by decide
    rw [Volume.dirOf?, start, parts]
    simp [Volume.dirAt, dir, root, short]
  have same : Path.child ⟨"core"⟩ "a.hpp" = mainHeader := by decide
  rw [← same]
  exact Volume.readText_child plain isName_core (.inl rfl)
    (by constructor <;> decide : IsName "a.hpp") found (by constructor <;> decide) there

def homeSurvey (root : Namespace) (texts : List (Path × String)) : Survey where
  scan := { files := [⟨"./core/a.hpp"⟩] }
  index := .ofRoot root
  verdicts := .ofModule ({} : Config).policy ⟨texts⟩ (.ofRoot root) [mainHeader].contains

def includingText : String :=
  "#include \"autogen/autogenerated.hpp\"\nclass Q {};\nstruct [[reflectable]] P : T {};\n"

def aliasKnown : Survey :=
  homeSurvey ((({} : Namespace).merge (Header.read ⟨mainHeader, includingText⟩).root).1.merge
    (Header.read ⟨earlierHeader, aliasText⟩).root).1.resolved
    [(mainHeader, Text.stripComments includingText), (earlierHeader, Text.stripComments aliasText)]

def aliasLost : Survey :=
  homeSurvey (({} : Namespace).merge (Header.read ⟨mainHeader, includingText⟩).root).1.resolved
    [(mainHeader, Text.stripComments includingText)]

/-- What the alias is for counts as a base only where the alias is known. -/
theorem read_including :
    (aliasKnown.verdicts.entries = [("Q", .dummyRequired), ("P", .reflectable)] ∧
      (aliasKnown.index.decl? "Q").map (·.name) = some "Q") ∧
    (aliasLost.verdicts.entries = [("Q", .noReflectDefault), ("P", .reflectable)] ∧
      (aliasLost.index.decl? "P").map (·.name) = some "P") ∧
    (Header.read ⟨mainHeader, includingText⟩).diagnostics = [] ∧
    (Header.read ⟨mainHeader, includingText⟩).includes.map (fun i => (i.target, i.angled)) =
      [("autogen/autogenerated.hpp", false)] := by
  -- one evaluation: in parts, each of them would read the header anew
  decide +kernel

theorem includes_aliasText : (Header.read ⟨earlierHeader, aliasText⟩).includes = [] := by
  decide +kernel

theorem places_main {i : Include} (named : (i.target, i.angled) = ("autogen/autogenerated.hpp", false)) :
    Reading.places homeRequest mainHeader i = [earlierHeader, ⟨"autogen/autogenerated.hpp"⟩] := by
  obtain ⟨target, angled⟩ := Prod.mk.inj named
  rw [Reading.places, target, angled]
  decide

theorem place_here (here : u.here = []) (p : Path) : u.place p = ({} : Volume).place p :=
  Volume.place_congr here p

theorem isFile_here_iff {p : Path} (plain : u.Plain) (here : u.here = []) (normal : p.normalize = p)
    (fits : Volume.Fits p) (written : p.text ≠ "") :
    u.isFile p = true ↔ ∃ bytes, u.get? (({} : Volume).place p) = some (.file bytes) := by
  have isFile := Volume.isFile_normalize_iff (p := p) plain (here ▸ rfl : u.isDirAt u.here = true)
  rwa [normal, place_here here, and_iff_right fits, and_iff_right written] at isFile

theorem isFile_earlier_iff (plain : u.Plain) (here : u.here = []) :
    u.isFile earlierHeader = true ↔
      ∃ bytes, u.get? ["autogenerated.hpp", "autogen", "core"] = some (.file bytes) :=
  isFile_here_iff plain here (by decide) (by constructor <;> decide) (by decide)

theorem exists_tree_main (plain : u.Plain) (read : u.readText mainHeader = .ok text)
    (clean : (Header.read ⟨mainHeader, text⟩).diagnostics = []) :
    ∃ tree log, HeaderTree.read u homeRequest = (.ok tree, log) ∧
      tree.root = (Reading.ofRequest u homeRequest).root.resolved ∧
      tree.files = (Reading.ofRequest u homeRequest).sources.map (·.path) := by
  have normal : (⟨"./core/a.hpp"⟩ : Path).normalize = mainHeader := by decide
  refine Reading.exists_tree plain.linkFree fun file mem faulty => ?_
  rw [List.mem_singleton.mp mem, normal] at faulty
  rcases faulty with lost | ⟨other, read', d, among, -⟩
  · exact lost ⟨text, read⟩
  · rw [read] at read'
    cases read'
    rw [clean] at among
    cases among

theorem candidatePaths_home : Survey.candidatePaths { files := [⟨"./core/a.hpp"⟩] } = [mainHeader] := by
  decide

theorem survey_aged :
    ∃ log, Survey.ofScan (aged includingText) {} home true { files := [⟨"./core/a.hpp"⟩] } =
      (.ok aliasKnown, log) := by
  have plain := plain_aged includingText
  have read : (aged includingText).readText mainHeader = .ok includingText := readText_main plain rfl rfl
  obtain ⟨-, -, clean, includes⟩ := read_including
  obtain ⟨i, split, named⟩ := List.map_eq_singleton_iff.mp includes
  have isFile := (isFile_earlier_iff plain rfl).mpr ⟨_, rfl⟩
  have found : Reading.target? (aged includingText) homeRequest mainHeader i = some earlierHeader := by
    rw [Reading.target?, places_main named, List.find?_cons_of_pos isFile]
  have read' : (aged includingText).readText earlierHeader = .ok aliasText := by
    have same : Path.child ⟨"core/autogen"⟩ "autogenerated.hpp" = earlierHeader := by decide
    have around : (aged includingText).dirOf? ⟨"core/autogen"⟩ = some ["autogen", "core"] := rfl
    rw [← same]
    exact Volume.readText_child plain Path.isName_outputDirName (.inr ⟨"core", by decide⟩)
      (by constructor <;> decide : IsName "autogenerated.hpp") around (by constructor <;> decide) rfl
  obtain ⟨sources, root⟩ := Reading.ofRequest_pair plain.linkFree start_home read rfl split found
    (by decide) read' includes_aliasText
  obtain ⟨tree, said, ok, declared, files⟩ := exists_tree_main plain read clean
  obtain ⟨log, surveyed⟩ := survey_of_read {} ok
  refine ⟨log, surveyed.trans ?_⟩
  rw [declared, files, root, sources, candidatePaths_home]
  simp [aliasKnown, homeSurvey, HeaderTexts.ofFiles, read, read', Except.toOption]

theorem survey_cleared {scan : Scan} (plain : u.Plain) (here : u.here = [])
    (there : u.get? ["a.hpp", "core"] = some (.file includingText.toUTF8))
    (lost : ∀ p ∈ [earlierHeader, ⟨"autogen/autogenerated.hpp"⟩], u.isFile p = false)
    (files : scan.files = [⟨"./core/a.hpp"⟩]) :
    ∃ t log, Survey.ofScan u {} home true scan = (.ok t, log) ∧ t.index = aliasLost.index ∧
      t.verdicts = aliasLost.verdicts := by
  have read := readText_main plain here there
  obtain ⟨-, -, clean, includes⟩ := read_including
  obtain ⟨i, split, named⟩ := List.map_eq_singleton_iff.mp includes
  have none : ∀ j ∈ (Header.read ⟨mainHeader, includingText⟩).includes,
      Reading.target? u homeRequest mainHeader j = none := by
    rw [split]
    intro j mem
    rw [List.mem_singleton.mp mem, Reading.target?, places_main named, List.find?_eq_none]
    exact fun p mem => by simp [lost p mem]
  obtain ⟨sources, root⟩ := Reading.ofRequest_alone plain.linkFree start_home read none
  obtain ⟨tree, said, ok, declared, among⟩ := exists_tree_main plain read clean
  have request : Survey.request home true scan = homeRequest := by
    rw [homeRequest, Survey.request, Survey.request, files]
  obtain ⟨log, surveyed⟩ := survey_of_read {} (request ▸ ok)
  have candidates : Survey.candidatePaths scan = [mainHeader] := by
    rw [← candidatePaths_home, Survey.candidatePaths, Survey.candidatePaths, files]
  refine ⟨_, log, surveyed, ?_, ?_⟩
  · rw [declared, root]
    rfl
  · rw [declared, root, among, sources, candidates]
    simp [aliasLost, homeSurvey, HeaderTexts.ofFiles, read, Except.toOption]

theorem outputDir_home : (Umbrella.ofModule home {}).outputDir = ⟨"core/autogen"⟩ := by
  decide

theorem dirOf?_output_home (keeps : Volume.Keeps (aged text) u) :
    u.dirOf? (Umbrella.ofModule home {}).outputDir = some ["autogen", "core"] := by
  rw [keeps.dirOf?, outputDir_home]
  rfl

theorem run_home {scan : Scan} {scanned log : Log} {s : Survey} (plain : u.Plain)
    (keeps : Volume.Keeps (aged text) u)
    (found : Scan.ofModule u home ({} : Config).scan.extensions = .ok (scan, scanned))
    (surveyed : Survey.ofScan u {} home true scan = (.ok s, log)) :
    (run u {} true home).abort = none ∧ (run u {} true home).volume.Plain ∧
      Volume.Keeps (aged text) (run u {} true home).volume := by
  have faultless : u.faults = {} := keeps.faults
  have admits {name : String} (known : (aged text).Admits (Umbrella.ofModule home {}).outputDir
      ["autogen", "core"] name) : u.Admits (Umbrella.ofModule home {}).outputDir
        ["autogen", "core"] name := keeps.admits_iff.mpr known
  obtain ⟨files, byHand⟩ := Umbrella.exists_collected (Volume.listable_of_faultless faultless)
    (Umbrella.ofModule home {})
  obtain ⟨finished, tends⟩ := run_finishes plain found surveyed (dirOf?_output_home keeps)
    (Volume.listable_of_faultless faultless _) byHand
    (admits ⟨outputDir_home ▸ by constructor <;> decide, by decide, rfl⟩)
    (admits ⟨outputDir_home ▸ by constructor <;> decide, by decide, rfl⟩)
    fun _ _ _ => by rw [faultless]
  exact ⟨finished, tends.plain, keeps.trans tends.toKeeps⟩

theorem run_aged {s : Survey} {log : Log}
    (surveyed : Survey.ofScan (aged text) {} home true { files := [⟨"./core/a.hpp"⟩] } =
      (.ok s, log)) :
    (run (aged text) {} true home).abort = none ∧ (run (aged text) {} true home).volume.Plain ∧
      Volume.Keeps (aged text) (run (aged text) {} true home).volume :=
  let ⟨_, scanned⟩ := scan_aged text
  run_home (plain_aged text) (.refl (aged text)) scanned surveyed

theorem locate_aged (text : String) : (aged text).locate home.sourceDir = .ok ["core"] :=
  (Volume.locate_of_dirOf? (plain_aged text) isName_core (Path.endsIn_child _ isName_core)
    (by constructor <;> decide) rfl).1

/-- What a pass leaves of the sources: the header, which is found again. -/
theorem sources_after_run (text : String) :
    let w := (run (aged text) {} true home).volume
    Confined ["autogen", "core"] (aged text) w ∧
      w.get? ["a.hpp", "core"] = some (.file text.toUTF8) ∧
      ∃ scan log, Scan.ofModule w home ({} : Config).scan.extensions = .ok (scan, log) ∧
        scan.files = [⟨"./core/a.hpp"⟩] := by
  have confined : Confined ["autogen", "core"] (aged text) (run (aged text) {} true home).volume := by
    rcases run_confined {} true home (plain_aged text) with same | ⟨src, located, confined⟩
    · rw [same]
      exact .refl (plain_aged text)
    · obtain rfl : ["core"] = src := Except.ok.inj ((locate_aged text).symm.trans located)
      exact confined
  obtain ⟨log, scanned⟩ := scan_aged text
  refine ⟨confined, (confined.file_iff ?_ _).mpr rfl,
    Scan.files_confined (plain_aged text) (locate_aged text) confined scanned⟩
  rintro ⟨name, -, same⟩
  simp at same

def plainText : String := "struct A { int x; };\n"

theorem read_plainText : (Header.read ⟨mainHeader, plainText⟩).diagnostics = [] ∧
    (Header.read ⟨mainHeader, plainText⟩).includes = [] := by
  decide +kernel

theorem not_readsOutput_plainText {scan : Scan} {log : Log} (plain : u.Plain) (here : u.here = [])
    (there : u.get? ["a.hpp", "core"] = some (.file plainText.toUTF8))
    (scanned : Scan.ofModule u home ({} : Config).scan.extensions = .ok (scan, log))
    (files : scan.files = [⟨"./core/a.hpp"⟩]) : ¬ ReadsOutput u {} true home := by
  have normal : (⟨"./core/a.hpp"⟩ : Path).normalize = mainHeader := by decide
  refine not_readsOutput_of_closed plain fun scan' log' scanned' file mem q inc => ?_
  rw [scanned] at scanned'
  cases scanned'
  rw [files] at mem
  rw [List.mem_singleton.mp mem, normal] at inc
  obtain ⟨-, text, read, i, among, -⟩ := inc
  rw [readText_main plain here there] at read
  cases read
  rw [read_plainText.2] at among
  cases among

def baseFile : String :=
  ArtifactKind.reflectorHeader.fileName "Q"

theorem exists_baseFile : ∃ a ∈ aliasKnown.artifacts {} (Umbrella.ofModule home {}).outputDir,
    a.fileName = baseFile := by
  obtain ⟨log, surveyed⟩ := survey_aged
  have names : (aliasKnown.artifacts {} (Umbrella.ofModule home {}).outputDir).map Artifact.fileName =
      ArtifactKind.fileNames (Stems.allocateAll
        { foldCase := ({} : Config).scan.caseRule.isInsensitive }
        (aliasKnown.targets aliasKnown.verdicts.entries)) :=
    Survey.fileNames_artifactsFrom (spelled_ofScan surveyed) _ _
  obtain ⟨⟨entries, known⟩, -⟩ := read_including
  obtain ⟨decl, indexed, named⟩ := Option.map_eq_some_iff.mp known
  have targets : aliasKnown.targets aliasKnown.verdicts.entries =
      decl :: aliasKnown.targets [("P", .reflectable)] := by
    rw [entries]
    simp [Survey.targets, Survey.target?, indexed, Verdict.emits]
  have stem : Stems.choose { foldCase := ({} : Config).scan.caseRule.isInsensitive } decl = "Q" := by
    simp [Stems.choose, Stems.isFree, named]
  rw [targets] at names
  have among : baseFile ∈ (aliasKnown.artifacts {} (Umbrella.ofModule home {}).outputDir).map
      Artifact.fileName := by
    rw [names, Stems.allocateAll, Stems.allocate, stem]
    exact List.mem_flatMap.mpr ⟨"Q", List.mem_cons_self, List.mem_map_of_mem (by decide)⟩
  exact List.mem_map.mp among

theorem fileName_ne_baseFile {t : Survey} {scan : Scan} {log : Log}
    (surveyed : Survey.ofScan u {} home true scan = (.ok t, log)) (index : t.index = aliasLost.index)
    (verdicts : t.verdicts = aliasLost.verdicts) {a : Artifact}
    (mem : a ∈ t.artifacts {} (Umbrella.ofModule home {}).outputDir) : a.fileName ≠ baseFile := by
  intro same
  have names : (t.artifacts {} (Umbrella.ofModule home {}).outputDir).map Artifact.fileName =
      ArtifactKind.fileNames (Stems.allocateAll
        { foldCase := ({} : Config).scan.caseRule.isInsensitive } (t.targets t.verdicts.entries)) :=
    Survey.fileNames_artifactsFrom (spelled_ofScan surveyed) _ _
  have among := List.mem_map_of_mem (f := Artifact.fileName) mem
  rw [names, same] at among
  obtain ⟨stem, given, ofStem⟩ := List.mem_flatMap.mp among
  obtain ⟨kind, -, same⟩ := List.mem_map.mp ofStem
  obtain rfl : stem = "Q" := (ArtifactKind.fileName_inj same).2
  obtain ⟨-, ⟨entries, lost⟩, -⟩ := read_including
  obtain ⟨decl, indexed, named⟩ := Option.map_eq_some_iff.mp lost
  -- the only type that can have files is the other one, and it has its own name as stem
  have targets : t.targets t.verdicts.entries = [] ∨ t.targets t.verdicts.entries = [decl] := by
    rw [verdicts, entries]
    have hidden : t.target? ("Q", .noReflectDefault) = none := by simp [Survey.target?, Verdict.emits]
    cases shown : t.target? ("P", .reflectable) with
    | none => simp [Survey.targets, hidden, shown]
    | some target =>
      obtain ⟨other, c⟩ := target
      have found := Survey.decl?_of_target? shown
      rw [index, indexed] at found
      cases found
      simp [Survey.targets, hidden, shown]
  rcases targets with none | one
  · rw [none] at given
    cases given
  · have stem : Stems.choose { foldCase := ({} : Config).scan.caseRule.isInsensitive } decl = "P" := by
      simp [Stems.choose, Stems.isFree, named]
    rw [one, Stems.allocateAll, Stems.allocate, stem, Stems.allocateAll] at given
    simp at given

theorem fileName_ne_earlier {s : Survey} {a : Artifact} {p : Path}
    (spelled : ∀ name decl, s.index.decl? name = some decl → decl.Spelled)
    (mem : a ∈ s.artifacts {} p) : a.fileName ≠ "autogenerated.hpp" := by
  obtain ⟨stem, word, -, path⟩ := Survey.stem_of_mem spelled mem
  rw [Artifact.fileName, path, Path.fileName?_child _ (a.kind.isName_fileName word), Option.getD_some]
  exact ArtifactKind.ne_of_head (by decide)

/-- The first pass reads the earlier file, writes the files of the base and clears the earlier file. -/
theorem run_including :
    let w := (run (aged includingText) {} true home).volume
    (run (aged includingText) {} true home).abort = none ∧ w.Plain ∧ Volume.Keeps (aged includingText) w ∧
      (∃ bytes, w.get? [baseFile, "autogen", "core"] = some (.file bytes)) ∧
      ∀ bytes, w.get? ["autogenerated.hpp", "autogen", "core"] ≠ some (.file bytes) := by
  obtain ⟨log, scanned⟩ := scan_aged includingText
  obtain ⟨said, surveyed⟩ := survey_aged
  have spelled := spelled_ofScan surveyed
  obtain ⟨finished, plain, keeps⟩ := run_aged surveyed
  obtain ⟨volume, abort⟩ := run_output scanned surveyed
  obtain ⟨prepared, d, written, stages, settled⟩ :=
    exists_settled_stages spelled (plain_aged includingText) (abort.symm.trans finished)
  refine ⟨finished, plain, keeps, ?_⟩
  rw [volume] at keeps ⊢
  obtain rfl : d = ["autogen", "core"] := by
    have found := (stages.tends.toKeeps.dirOf? _).trans stages.found
    exact Option.some_inj.mp (found.symm.trans (dirOf?_output_home keeps))
  refine ⟨?_, fun bytes there => ?_⟩
  -- the file that is generated for the base is there, the earlier file is gone
  · obtain ⟨a, mem, named⟩ := exists_baseFile
    have path := (Survey.liesIn_of_mem spelled mem).path
    rw [named, outputDir_home] at path
    rw [← named]
    have accepts : (output (aged includingText) {} home aliasKnown).volume.Accepts
        (Umbrella.ofModule home {}).outputDir ["autogen", "core"] a.fileName a.content := by
      rw [keeps.accepts_iff, named, outputDir_home]
      exact ⟨⟨by constructor <;> decide, by decide, rfl⟩, rfl⟩
    have inside := (settled.wrote a mem).mpr accepts
    have listed : (a.fileName, a.content) ∈ (Umbrella.ofModule home {}).holdings
        (output (aged includingText) {} home aliasKnown).volume written :=
      List.mem_cons_of_mem _ (List.mem_cons_of_mem _ (List.mem_map_of_mem inside))
    exact ⟨_, ((settled.held _ _).mpr (.inl ⟨_, listed, rfl⟩)).2.2⟩
  · rcases settled.name_cases (by decide) (outputDir_home ▸ by constructor <;> decide) there with
      same | same | ⟨a, mem, same⟩
    · exact absurd same (by decide)
    · exact absurd same (by decide)
    · exact fileName_ne_earlier spelled mem same

end Aged

/-- Generation can be repeated. Let neither of two passes in a row read a generated file of the module,
and let the first go through. Then the second changes nothing when it goes through: every file is there
with the same bytes, and no other is. And it does go through unless the listing of a directory breaks
off at an entry. -/
theorem run_again (v : Volume) (config : Config) (follow : Bool) (m : SourceModule) (plain : v.Plain)
    (here : v.isDirAt v.here = true) (finished : (run v config follow m).abort = none)
    (apart : ¬ ReadsOutput v config follow m)
    (apart' : ¬ ReadsOutput (run v config follow m).volume config follow m) :
    let once := (run v config follow m).volume
    ((∀ loc, v.faults.broken loc = none) → (run once config follow m).abort = none) ∧
      ((run once config follow m).abort = none →
        ∀ loc, (run once config follow m).volume.get? loc = once.get? loc) := by
  obtain ⟨-, same, -, -⟩ := run_eq v config follow m
  obtain ⟨scan, scanned, s, log, found, surveyed⟩ := exists_survey (same.symm.trans finished)
  obtain ⟨volume, abort⟩ := run_output found surveyed
  exact run_output_again plain here found surveyed (abort.symm.trans finished) volume.symm apart apart'

theorem run_again_aged :
    let once := (run (aged plainText) {} true home).volume
    (run (aged plainText) {} true home).abort = none ∧ ¬ ReadsOutput (aged plainText) {} true home ∧
      ¬ ReadsOutput once {} true home ∧ (run once {} true home).abort = none ∧
      ∀ loc, (run once {} true home).volume.get? loc = once.get? loc := by
  have plain := plain_aged plainText
  obtain ⟨log, scanned⟩ := scan_aged plainText
  obtain ⟨tree, said, ok, -⟩ := exists_tree_main plain (readText_main plain rfl rfl) read_plainText.1
  obtain ⟨_, surveyed⟩ := survey_of_read {} ok
  obtain ⟨finished, plain', keeps⟩ := run_aged surveyed
  obtain ⟨-, there, scan', log', scanned', files⟩ := sources_after_run plainText
  have apart := not_readsOutput_plainText plain rfl rfl scanned rfl
  have apart' := not_readsOutput_plainText plain' keeps.here there scanned' files
  obtain ⟨again, same⟩ :=
    run_again (aged plainText) {} true home plain rfl finished apart apart'
  exact ⟨finished, apart, apart', again fun _ => rfl, same (again fun _ => rfl)⟩

/-- The first pass reads the earlier file and then clears it. The second does not find it any more, and
a file that the first has written is gone. -/
theorem run_forgets_aged :
    let once := (run (aged includingText) {} true home).volume
    (aged includingText).Plain ∧ (run (aged includingText) {} true home).abort = none ∧
      (run once {} true home).abort = none ∧
      (∃ bytes, once.get? [baseFile, "autogen", "core"] = some (.file bytes)) ∧
      ∀ bytes, (run once {} true home).volume.get? [baseFile, "autogen", "core"] ≠
        some (.file bytes) := by
  obtain ⟨finished, plain, keeps, written, cleared⟩ := run_including
  obtain ⟨confined, there, scan, log, scanned, files⟩ := sources_after_run includingText
  intro once
  have gone : once.isFile earlierHeader = false := Bool.eq_false_iff.mpr fun isFile => by
    obtain ⟨bytes, here⟩ := (isFile_earlier_iff plain keeps.here).mp isFile
    exact cleared bytes here
  -- nor is there such a file on the include path
  have absent : once.isFile ⟨"autogen/autogenerated.hpp"⟩ = false :=
    Bool.eq_false_iff.mpr fun isFile => by
      obtain ⟨bytes, here⟩ := (isFile_here_iff plain keeps.here (by decide) (by constructor <;> decide)
        (by decide)).mp isFile
      have elsewhere : ¬ Own ["autogen", "core"] ["autogenerated.hpp", "autogen"] := by
        rintro ⟨name, -, same⟩
        simp at same
      cases (confined.file_iff elsewhere bytes).mp here
  have lost : ∀ p ∈ [earlierHeader, ⟨"autogen/autogenerated.hpp"⟩], once.isFile p = false := by
    simp [gone, absent]
  obtain ⟨t, said, surveyed, index, verdicts⟩ := survey_cleared plain keeps.here there lost files
  obtain ⟨finished', plain', keeps'⟩ := run_home plain keeps scanned surveyed
  obtain ⟨written', d, settled⟩ := settled_of_survey plain scanned surveyed finished'
  obtain rfl : d = ["autogen", "core"] :=
    (Volume.eq_place_of_locate plain'.linkFree settled.located).trans
      (Volume.eq_place_of_dirOf? (dirOf?_output_home keeps')).symm
  refine ⟨plain_aged includingText, finished, finished', written, fun bytes here => ?_⟩
  rcases settled.name_cases (by decide) (outputDir_home ▸ by constructor <;> decide) here with
    same | same | ⟨a, mem, same⟩
  · exact absurd same (by decide)
  · exact absurd same (by decide)
  · exact fileName_ne_baseFile surveyed index verdicts mem same

end Pass

end HeaderMeta
