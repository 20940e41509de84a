import HeaderMeta.Proofs.Output
import HeaderMeta.Proofs.Scanning

/-! A module whose path goes up from the root again and again, which leads nowhere, and down to its
sources. The path can be made as long as is wanted while the module stays where it is.
-/

set_option autoImplicit false

namespace HeaderMeta

open HeaderMeta.Path (IsName EndsIn)
open Volume (Fits)

namespace Scan

theorem exists_ofModule_of_sorted {v : Volume} {m : SourceModule} {extensions : List String}
    {entries : List Path} {scan : Scan} {log : Log} (isDir : v.isDir m.sourceDir = true)
    (sorted : readSorted v m.sourceDir = .ok entries)
    (scanned : scanEntries v m extensions v.depthBound entries = (scan, log)) :
    ∃ log, ofModule v m extensions = .ok (scan, log) := by
  rw [ofModule, isDir, sorted]
  simp only [scanned]
  exact ⟨_, rfl⟩

/-- Where the names in the source directory are known, the scan goes over them in order. -/
theorem exists_ofModule_of_names {v : Volume} {m : SourceModule} {extensions : List String}
    {d : Location} {entries : List Path} {scan : Scan} {log : Log} (plain : v.Plain)
    (isName : IsName m.name) (fits : Fits m.sourceDir) (found : v.dirOf? m.sourceDir = some d)
    (listable : v.Listable d) (listed : (v.namesAt d).map m.sourceDir.child = entries)
    (ordered : entries.Pairwise fun p q => p.le q = true)
    (scanned : scanEntries v m extensions v.depthBound entries = (scan, log)) :
    ∃ log, ofModule v m extensions = .ok (scan, log) := by
  have ends : m.sourceDir.EndsIn m.name := Path.endsIn_child _ isName
  obtain ⟨located, sources⟩ := Volume.locate_of_dirOf? plain isName ends fits found
  have sorted : readSorted v m.sourceDir = .ok entries := by
    rw [readSorted_eq listable sources located, Volume.entries_of_dirOf? plain isName ends fits found,
      listed]
    exact congrArg Except.ok (List.mergeSort_of_pairwise ordered)
  exact exists_ofModule_of_sorted sources sorted scanned

end Scan

namespace Pass

section Roundabout
variable (n : Nat)

/-- Up `n` directories, which from the root leads nowhere, and down to the sources. -/
def roundabout : Path :=
  ⟨Text.joinWith "/" (List.replicate n ".." ++ ["src"])⟩

def distant : SourceModule where
  name := "core"
  root := roundabout n
  includePaths := [roundabout n]
  exclusions := {}

def littered : Volume where
  nodes := [(["src"], .dir), (["core", "src"], .dir), (["autogen", "core", "src"], .dir),
    (["autogen_old.hpp", "autogen", "core", "src"], .file .empty)]

theorem text_roundabout_succ : (roundabout (n + 1)).text = "../" ++ (roundabout n).text := by
  have some : List.replicate n ".." ++ ["src"] ≠ [] := by simp
  obtain ⟨first, rest, split⟩ := List.exists_cons_of_ne_nil some
  rw [roundabout, roundabout, List.replicate_succ, List.cons_append, split]
  rfl

theorem isName_src : IsName "src" := by constructor <;> decide

theorem isName_core : IsName "core" := by constructor <;> decide

theorem roundabout_endsIn : (roundabout n).EndsIn "src" := by
  rw [roundabout, EndsIn, Text.joinWith_concat]
  split
  · exact .inl rfl
  · exact .inr ⟨_, rfl⟩

theorem size_roundabout : (roundabout n).text.utf8ByteSize = 3 * n + 3 := by
  induction n with
  | zero => rfl
  | succ n ih =>
    rw [text_roundabout_succ, String.utf8ByteSize_append, ih]
    have lead : "../".utf8ByteSize = 3 := rfl
    omega

theorem not_hasNull_roundabout : (roundabout n).hasNull = false := by
  induction n with
  | zero => decide
  | succ n ih =>
    rw [Path.hasNull, text_roundabout_succ]
    simpa [Path.hasNull] using ih

theorem not_isAbsolute_roundabout : (roundabout n).isAbsolute = false := by
  cases n with
  | zero => decide
  | succ n =>
    rw [Path.isAbsolute, text_roundabout_succ]
    simp [Text.startsWith, Text.after?]

theorem parts_roundabout : (roundabout n).parts = List.replicate n ".." ++ ["src"] := by
  induction n with
  | zero => decide
  | succ n ih =>
    have split : ("../" ++ (roundabout n).text).toList =
        "..".toList ++ '/' :: (roundabout n).text.toList := by
      simp
    rw [Path.parts, text_roundabout_succ, split, Path.pieces_append, List.map_append]
    rw [Path.parts] at ih
    rw [ih, List.replicate_succ]
    rfl

theorem components_roundabout :
    (roundabout n).components =
      List.replicate n Path.Component.parent ++ [Path.Component.normal "src"] := by
  have front : (roundabout n).front = [] := by
    rw [Path.front, not_isAbsolute_roundabout, parts_roundabout]
    cases n <;> simp [List.replicate_succ]
  rw [Path.components, front, parts_roundabout]
  simp [Path.Component.ofPart?, List.filterMap_append]

theorem dirOf?_roundabout {v : Volume} (here : v.here = []) (sources : v.isDirAt ["src"] = true) :
    v.dirOf? (roundabout n) = some ["src"] := by
  have root : v.isDirAt [] = true := rfl
  rw [Volume.dirOf?, Volume.startOf, not_isAbsolute_roundabout, parts_roundabout, here]
  change v.dirAt [] _ = _
  induction n with
  | zero =>
    have short : ¬ "src".utf8ByteSize > Volume.maxName := by decide
    simp [Volume.dirAt, root, sources, short]
  | succ n ih =>
    -- the root is its own parent
    simpa [List.replicate_succ, Volume.dirAt, root] using ih

theorem plain_littered : littered.Plain where
  distinct := by decide
  noLinks := by simp [littered]
  named := by
    intro n mem
    simp only [littered, List.mem_cons, List.not_mem_nil, or_false] at mem
    rcases mem with rfl | rfl | rfl | rfl
    · exact ⟨_, _, rfl, isName_src, by decide, rfl⟩
    · exact ⟨_, _, rfl, isName_core, by decide, rfl⟩
    · exact ⟨_, _, rfl, Path.isName_outputDirName, by decide, rfl⟩
    · exact ⟨_, _, rfl, by constructor <;> decide, by decide, rfl⟩

theorem source_endsIn : (distant n).sourceDir.EndsIn "core" :=
  Path.endsIn_child _ isName_core

theorem output_endsIn : (distant n).outputDir.EndsIn outputDirName :=
  Path.endsIn_child _ Path.isName_outputDirName

theorem text_sourceDir : (distant n).sourceDir.text = (roundabout n).text ++ "/core" := by
  have text : (distant n).sourceDir.text = (roundabout n).text ++ "/" ++ "core" :=
    Path.text_child isName_src (roundabout_endsIn n) isName_core
  rw [text, String.append_assoc]
  rfl

theorem text_outputDir :
    (distant n).outputDir.text = (roundabout n).text ++ "/core/autogen" := by
  rw [SourceModule.outputDir,
    Path.text_child isName_core (source_endsIn n) Path.isName_outputDirName, text_sourceDir]
  simp [outputDirName, String.append_assoc]

theorem dirOf?_source {v : Volume} (here : v.here = []) (sources : v.isDirAt ["src"] = true)
    (core : v.isDirAt ["core", "src"] = true) :
    v.dirOf? (distant n).sourceDir = some ["core", "src"] := by
  have step := Volume.dirOf?_child (v := v) isName_core
    (Path.text_ne_empty isName_src (roundabout_endsIn n))
  rw [dirOf?_roundabout n here sources, Option.bind_some, if_pos ⟨by decide, core⟩] at step
  exact step

theorem dirOf?_output :
    littered.dirOf? (distant n).outputDir = some ["autogen", "core", "src"] := by
  have step := Volume.dirOf?_child (v := littered) Path.isName_outputDirName
    (Path.text_ne_empty isName_core (source_endsIn n))
  rw [dirOf?_source n rfl rfl rfl, Option.bind_some, if_pos (by decide)] at step
  exact step

theorem reduce_ups : Path.reduce (List.replicate n .parent) = List.replicate n .parent := by
  have folded (kept : Nat) : (List.replicate n Path.Component.parent).foldl Path.reduceStep
      (List.replicate kept .parent) = List.replicate (n + kept) .parent := by
    induction n generalizing kept with
    | zero => simp
    | succ n ih =>
      have step : Path.reduceStep (List.replicate kept .parent) .parent =
          List.replicate (kept + 1) .parent := by
        cases kept <;> rfl
      rw [List.replicate_succ, List.foldl_cons, step, ih, Nat.add_right_comm, Nat.add_assoc]
  rw [Path.reduce]
  have all := folded 0
  rw [List.replicate_zero, Nat.add_zero] at all
  rw [all, List.reverse_replicate]

theorem ofComponents_ups :
    (Path.ofComponents (List.replicate n .parent ++ [Path.Component.normal "src"])).text =
      (roundabout n).text := by
  have names : (List.replicate n Path.Component.parent ++ [Path.Component.normal "src"]).map
      Path.Component.name = List.replicate n ".." ++ ["src"] := by
    simp [Path.Component.name]
  rw [roundabout, ← names]
  cases n <;> rfl

theorem normalize_output : (distant n).outputDir.normalize = (distant n).outputDir := by
  have source : (distant n).sourceDir.components =
      List.replicate n Path.Component.parent ++ [Path.Component.normal "src"] ++
        [Path.Component.normal "core"] := by
    rw [← components_roundabout]
    exact Path.components_child _ isName_core
  have output : (distant n).outputDir.components = _ :=
    Path.components_child _ Path.isName_outputDirName
  have text : (distant n).outputDir.normalize.text = (distant n).outputDir.text := by
    rw [Path.normalize, output, source, Path.reduce_concat, Path.reduce_concat, Path.reduce_concat,
      reduce_ups, Path.ofComponents_concat, Path.ofComponents_concat, ofComponents_ups,
      text_outputDir]
    simp [outputDirName, String.append_assoc]
  cases left : (distant n).outputDir.normalize
  cases right : (distant n).outputDir
  simp_all

theorem outputDir_distant (config : Config) :
    (Umbrella.ofModule (distant n) config).outputDir = (distant n).outputDir := by
  rw [Umbrella.outputDir_ofModule, normalize_output]

variable {n : Nat}

theorem fits_roundabout {p : Path} {tail : String} (text : p.text = (roundabout n).text ++ tail)
    (noNull : '\x00' ∉ tail.toList) :
    Fits p ↔ 3 * n + 3 + tail.utf8ByteSize ≤ Volume.maxPath := by
  have base := not_hasNull_roundabout n
  have own : p.hasNull = false := by
    rw [Path.hasNull] at base ⊢
    rw [text]
    simp_all
  rw [Fits, own, text, String.utf8ByteSize_append, size_roundabout]
  simp

theorem fits_output_child {name : String} (isName : IsName name) :
    Fits ((distant n).outputDir.child name) ↔ 3 * n + 17 + name.utf8ByteSize ≤ Volume.maxPath := by
  have text := Path.text_child Path.isName_outputDirName (output_endsIn n) isName
  rw [text_outputDir, String.append_assoc, String.append_assoc] at text
  have noNull : '\x00' ∉ ("/core/autogen" ++ ("/" ++ name)).toList := by
    have own := isName.noNull
    simp_all
  have size : ("/core/autogen" ++ ("/" ++ name)).utf8ByteSize = 14 + name.utf8ByteSize := by
    have lead : "/core/autogen".utf8ByteSize + "/".utf8ByteSize = 14 := rfl
    rw [String.utf8ByteSize_append, String.utf8ByteSize_append]
    omega
  rw [fits_roundabout text noNull, size]
  omega

section Reached
variable (reach : 3 * n + 28 ≤ Volume.maxPath)
include reach

theorem fits_source : Fits (distant n).sourceDir :=
  (fits_roundabout (text_sourceDir n) (by decide)).mpr (by
    have size : "/core".utf8ByteSize = 5 := rfl
    omega)

theorem fits_output : Fits (distant n).outputDir :=
  (fits_roundabout (text_outputDir n) (by decide)).mpr (by
    have size : "/core/autogen".utf8ByteSize = 13 := rfl
    omega)

theorem scan_distant (extensions : List String) :
    ∃ log, Scan.ofModule littered (distant n) extensions = .ok ({}, log) := by
  have output := Volume.locate_of_dirOf? plain_littered Path.isName_outputDirName (output_endsIn n)
    (fits_output reach) (dirOf?_output n)
  have named : (distant n).outputDir.fileName? = some outputDirName :=
    Path.fileName?_child _ Path.isName_outputDirName
  have depth : littered.depthBound = 204 + 1 := rfl
  have skipped : Scan.scanEntries littered (distant n) extensions littered.depthBound
      [(distant n).outputDir] = ({}, []) := by
    rw [depth, Scan.scanEntries, Scan.scanEntries, output.2]
    simp [named, Scan.append]
  exact Scan.exists_ofModule_of_names plain_littered isName_core (fits_source reach)
    (dirOf?_source n rfl rfl rfl) (Volume.listable_of_faultless rfl _) rfl (List.pairwise_singleton _ _)
    skipped

theorem run_distant (config : Config) (follow : Bool) :
    (run littered config follow (distant n)).abort = none ∧
      (run littered config follow (distant n)).volume.locate (distant n).outputDir =
        .ok ["autogen", "core", "src"] := by
  obtain ⟨scanned, found⟩ := scan_distant reach config.scan.extensions
  obtain ⟨s, log, surveyed, -⟩ := ofScan_of_no_files littered config (distant n) follow
  have output := outputDir_distant n config
  have header : littered.Admits (Umbrella.ofModule (distant n) config).outputDir
      ["autogen", "core", "src"] umbrellaHeader := by
    refine ⟨?_, by decide, rfl⟩
    rw [output, fits_output_child Umbrella.isName_umbrellaHeader]
    have size : umbrellaHeader.utf8ByteSize = 11 := rfl
    omega
  have impl (mode : ImplMode) : littered.Admits (Umbrella.ofModule (distant n) config).outputDir
      ["autogen", "core", "src"] mode.umbrellaName := by
    have size : mode.umbrellaName.utf8ByteSize = 11 := by cases mode <;> rfl
    refine ⟨?_, by rw [size]; decide, by cases mode <;> rfl⟩
    rw [output, fits_output_child (Umbrella.isName_umbrellaName _)]
    omega
  -- there is no directory of hand-written files
  have byHand : (Umbrella.ofModule (distant n) config).collected littered = .ok [] := by
    refine Umbrella.collected_of_absent plain_littered ?_
    rw [Umbrella.inside_ofModule, output, Volume.dirOf?_child Path.isName_overrideDirName
      (Path.text_ne_empty Path.isName_outputDirName (output_endsIn n)), dirOf?_output]
    rfl
  obtain ⟨finished, tends⟩ := run_finishes plain_littered found surveyed
    (output ▸ dirOf?_output n) (Volume.listable_of_faultless rfl _) byHand header (impl _)
    fun _ _ _ => rfl
  refine ⟨finished, ?_⟩
  exact (Volume.locate_of_dirOf? tends.plain Path.isName_outputDirName (output_endsIn n)
    (fits_output reach) ((tends.toKeeps.dirOf? _).trans (dirOf?_output n))).1

end Reached

theorem isName_earlier : IsName "autogen_old.hpp" := by constructor <;> decide

theorem earlier_not_umbrella (mode : ImplMode) :
    "autogen_old.hpp" ∉ [umbrellaHeader, mode.umbrellaName] := by
  cases mode <;> decide

end Roundabout

end Pass

end HeaderMeta
