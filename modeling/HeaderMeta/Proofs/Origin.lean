import HeaderMeta.Proofs.Footprint
import HeaderMeta.Proofs.Linking
import HeaderMeta.Proofs.Output.Distant

/-! Where the types come from that files are written for.

A verdict is given to types that are declared in a scanned header and to no other, also when a base is
promoted: a base without a verdict has none to be promoted from. Emission looks up the verdicts only.
So whatever else a tree declares, the files of a pass belong to headers of the module.
-/

set_option autoImplicit false

namespace HeaderMeta

open HeaderMeta.Path (IsName)

namespace TypeIndex

theorem nodup_firsts (seen : List String) (ts : List IndexedType) :
    ((firsts seen ts).map IndexedType.name).Nodup ∧
      ∀ t ∈ firsts seen ts, t.name ∉ seen := by
  fun_induction firsts seen ts with
  | case1 => exact ⟨List.nodup_nil, fun t mem => (List.not_mem_nil mem).elim⟩
  | case2 seen t ts _ ih => exact ih
  | case3 seen t ts kept ih =>
    obtain ⟨distinct, unseen⟩ := ih
    refine ⟨List.nodup_cons.mpr ⟨fun again => ?_, distinct⟩, fun u mem => ?_⟩
    · obtain ⟨u, mem, same⟩ := List.mem_map.mp again
      exact unseen u mem (same ▸ List.mem_cons_self)
    · rcases List.mem_cons.mp mem with rfl | later
      · -- it was kept because its name is not among those seen
        simp_all
      · exact fun old => unseen u later (List.mem_cons_of_mem _ old)

theorem decl?_of_mem {index : TypeIndex} (distinct : index.names.Nodup) {t : IndexedType}
    (mem : t ∈ index.entries) : index.decl? t.name = some t.decl := by
  cases found : index.get? t.name with
  | none => exact absurd (decide_eq_true rfl) (List.find?_eq_none.mp found t mem)
  | some u =>
    have named : u.name = t.name := by simpa using List.find?_some found
    have same : u = t :=
      List.inj_on_of_nodup_map distinct (List.mem_of_find?_eq_some found) mem named
    rw [decl?, found, same]
    rfl

theorem nodup_names_ofRoot (root : Namespace) : (ofRoot root).names.Nodup :=
  (nodup_firsts [] _).1

/-- Every entry of an index is the one of its name. -/
theorem decl?_ofRoot {root : Namespace} {t : IndexedType} (mem : t ∈ (ofRoot root).entries) :
    (ofRoot root).decl? t.name = some t.decl :=
  decl?_of_mem (nodup_names_ofRoot root) mem

end TypeIndex

namespace Survey

/-- The survey of a tree that was read somehow. Paths are compared by `same`. -/
def ofTree (config : Config) (same : Path → Path → Bool) (scan : Scan) (root : Namespace)
    (texts : HeaderTexts) : Survey :=
  let index := TypeIndex.ofRoot root
  { scan, index
    verdicts := Verdicts.ofModule config.policy texts index fun p =>
      (candidatePaths scan).any (same p) }

/-- What a pass reads itself is one such tree. -/
theorem exists_tree {v : Volume} {config : Config} {m : SourceModule} {follow : Bool} {scan : Scan}
    {s : Survey} {log : Log} (surveyed : ofScan v config m follow scan = (.ok s, log)) :
    ∃ tree said texts, HeaderTree.read v (request m follow scan) = (.ok tree, said) ∧
      s = ofTree config (· == ·) scan tree.root texts := by
  obtain ⟨tree, said, read, rfl⟩ := Pass.read_of_survey_ok surveyed
  have accepts : (candidatePaths scan).contains = fun p => (candidatePaths scan).any (p == ·) :=
    funext fun p => List.contains_eq_any_beq
  refine ⟨tree, said, .ofFiles (fun p => (v.readText p).toOption) tree.files, read, ?_⟩
  rw [accepts]
  rfl

theorem exists_candidate {config : Config} {same : Path → Path → Bool} {scan : Scan}
    {root : Namespace} {texts : HeaderTexts} {entry : String × Verdict} {decl : TypeDecl}
    (entered : entry ∈ (ofTree config same scan root texts).verdicts.entries)
    (found : (ofTree config same scan root texts).index.decl? entry.1 = some decl) :
    ∃ f ∈ scan.files, same decl.path f.normalize = true := by
  have within := Verdicts.within_eligible config.policy texts (TypeIndex.ofRoot root) fun p =>
    (candidatePaths scan).any (same p)
  obtain ⟨t, mem, named⟩ := List.mem_map.mp (within.known _ (List.mem_map_of_mem (f := (·.1)) entered))
  obtain ⟨inside, isCandidate⟩ := List.mem_filter.mp (List.mem_of_mem_filter mem)
  -- names are distinct, so the candidate of this name is the declaration that is looked up
  obtain rfl : t.decl = decl := by
    have own := TypeIndex.decl?_ofRoot inside
    rw [named] at own
    exact Option.some.inj (own.symm.trans found)
  obtain ⟨candidate, among, accepted⟩ := List.any_eq_true.mp isCandidate
  obtain ⟨f, scanned, rfl⟩ := List.mem_map.mp among
  exact ⟨f, scanned, accepted⟩

end Survey

namespace Emission

/-- Which of some files are written in full when they are written one after another. -/
def written (e : Emission) : List Artifact → List Artifact
  | [] => []
  | a :: rest =>
    match (e.volume.writeText a.path a.content).2 with
    | .ok () => a :: (e.write a).written rest
    | .error _ => (e.write a).written rest

theorem mem_written {e : Emission} {a : Artifact} {rest : List Artifact} {w : Volume}
    (wrote : e.volume.writeText a.path a.content = (w, .ok ())) : a ∈ e.written (a :: rest) := by
  rw [written, wrote]
  exact List.mem_cons_self

theorem written_sublist (e : Emission) (all : List Artifact) : (e.written all).Sublist all := by
  fun_induction written e all with
  | case1 => exact .refl _
  | case2 e a rest wrote ih => exact ih.cons_cons a
  | case3 e a rest cause failed ih => exact ih.cons a

theorem volume_write (e : Emission) (a : Artifact) :
    (e.write a).volume = (e.volume.writeText a.path a.content).1 := by
  unfold write
  split <;> simp only [*]

/-- Whatever fails, the volume is that of the attempts one after another. -/
theorem volume_foldl_write (e : Emission) (all : List Artifact) :
    (all.foldl write e).volume =
      all.foldl (fun v a => (v.writeText a.path a.content).1) e.volume := by
  induction all generalizing e with
  | nil => rfl
  | cons a rest ih => rw [List.foldl_cons, List.foldl_cons, ih, volume_write]

section Write
variable {e : Emission} {a : Artifact}

theorem write_of_ok (wrote : (e.volume.writeText a.path a.content).2 = .ok ()) :
    (e.write a).artifactsWritten = e.artifactsWritten + 1 ∧
      (e.write a).umbrella = e.umbrella.record a := by
  unfold write
  split
  · exact ⟨rfl, rfl⟩
  next failed =>
    rw [failed] at wrote
    cases wrote

theorem write_of_error {cause : FileError}
    (failed : (e.volume.writeText a.path a.content).2 = .error cause) :
    (e.write a).artifactsWritten = e.artifactsWritten ∧ (e.write a).umbrella = e.umbrella := by
  unfold write
  split
  next wrote =>
    rw [wrote] at failed
    cases failed
  · exact ⟨rfl, rfl⟩

end Write

/-- The files that are written in full are those that are counted. -/
theorem artifactsWritten_foldl_write (e : Emission) (all : List Artifact) :
    (all.foldl write e).artifactsWritten = e.artifactsWritten + (e.written all).length := by
  fun_induction written e all with
  | case1 => rfl
  | case2 e a rest wrote ih =>
    rw [List.foldl_cons, ih, (write_of_ok wrote).1, List.length_cons]
    omega
  | case3 e a rest cause failed ih => rw [List.foldl_cons, ih, (write_of_error failed).1]

end Emission

theorem Volume.not_isDir_of_isFile {v : Volume} {p : Path} (isFile : v.isFile p = true) :
    v.isDir p = false := by
  obtain ⟨node, found, kind⟩ := Option.any_eq_true _ _ |>.mp isFile
  rw [isDir, found]
  cases node <;> simp_all [Node.isFile, Node.isDir]

theorem Volume.leaf_child {v : Volume} {p path : Path} {dir name : String} {d : Location}
    (plain : v.Plain) (isDir : IsName dir) (ends : p.EndsIn dir) (found : v.dirOf? p = some d)
    (same : p.child name = path) (isName : IsName name) (fits : Volume.Fits path)
    (there : ∃ bytes, v.get? (name :: d) = some (.file bytes)) :
    v.isFile path = true ∧ v.isDir path = false := by
  subst same
  have isFile := (isFile_child plain isDir ends isName found fits).mpr there
  exact ⟨isFile, not_isDir_of_isFile isFile⟩

namespace Pass
variable {v : Volume} {config : Config} {m : SourceModule} {s : Survey}

/-- The files that a pass writes in full for the types of a survey. -/
def written (v : Volume) (config : Config) (m : SourceModule) (s : Survey) : List Artifact :=
  match (Umbrella.ofModule m config).prepare v with
  | (_, .error _, _) => []
  | (prepared, .ok _, _) =>
    match (Umbrella.ofModule m config).collected prepared with
    | .error _ => []
    | .ok _ =>
      (begun config (Umbrella.ofModule m config) prepared).written
        (s.artifacts config (Umbrella.ofModule m config).outputDir)

theorem written_of_ok {prepared : Volume} {removed : Nat} {log : Log} {files : List Path}
    (ready : (Umbrella.ofModule m config).prepare v = (prepared, .ok removed, log))
    (all : (Umbrella.ofModule m config).collected prepared = .ok files) :
    written v config m s = (begun config (Umbrella.ofModule m config) prepared).written
      (s.artifacts config (Umbrella.ofModule m config).outputDir) := by
  unfold written
  rw [ready]
  dsimp only
  rw [all]

theorem written_sublist : (written v config m s).Sublist
    (s.artifacts config (Umbrella.ofModule m config).outputDir) := by
  unfold written
  split
  · exact List.nil_sublist _
  · split
    · exact List.nil_sublist _
    · exact Emission.written_sublist _ _

theorem artifactsWritten_output :
    (output v config m s).report.artifactsWritten = (written v config m s).length := by
  cases ready : (Umbrella.ofModule m config).prepare v with
  | mk w rest =>
    obtain ⟨error | removed, log⟩ := rest
    · unfold output written
      rw [ready]
      rfl
    · cases all : (Umbrella.ofModule m config).collected w with
      | error e =>
        unfold output written
        rw [ready]
        dsimp only
        rw [Umbrella.mergeOverrides, all]
        rfl
      | ok files =>
        obtain ⟨-, -, counted, -⟩ := output_of_ok (s := s) ready all rfl
        rw [counted, (emitted_agrees config s _ w).artifactsWritten,
          Emission.artifactsWritten_foldl_write, written_of_ok ready all]
        exact Nat.zero_add _

theorem exists_header {same : Path → Path → Bool} {scan : Scan} {root : Namespace}
    {texts : HeaderTexts} {a : Artifact} {p : Path}
    (mem : a ∈ (Survey.ofTree config same scan root texts).artifacts config p) :
    ∃ decl, (Survey.ofTree config same scan root texts).index.decl? a.typeName = some decl ∧
      ∃ f ∈ scan.files, same decl.path f.normalize = true := by
  obtain ⟨entry, entered, decl, c, target, named⟩ := Survey.mem_artifactsFrom mem
  have indexed := Survey.decl?_of_target? target
  have own := named.trans (TypeIndex.qualifiedName_of_decl? indexed)
  exact ⟨decl, own ▸ indexed, Survey.exists_candidate entered indexed⟩

/-- What is known of the files that a pass writes for the types of a survey. -/
structure FromHeaders (v : Volume) (config : Config) (m : SourceModule) (scan : Scan)
    (same : Path → Path → Bool) (s : Survey) : Prop where
  counted : (output v config m s).report.artifactsWritten = (written v config m s).length
  /-- What is written in full is generated for the survey. -/
  order : (written v config m s).Sublist
    (s.artifacts config (Umbrella.ofModule m config).outputDir)
  /-- Once the output directory is prepared, generated files and no other are written, be it in part. -/
  complete : ∀ prepared removed log,
    (Umbrella.ofModule m config).prepare v = (prepared, .ok removed, log) →
      (emitted config s (Umbrella.ofModule m config) prepared).volume =
        (s.artifacts config (Umbrella.ofModule m config).outputDir).foldl
          (fun v a => (v.writeText a.path a.content).1) prepared
  /-- Each belongs to a type that is declared in a header of the module which no glob matches. -/
  declared : ∀ a ∈ s.artifacts config (Umbrella.ofModule m config).outputDir,
    ∃ decl, s.index.decl? a.typeName = some decl ∧
      ∃ f ∈ scan.files, same decl.path f.normalize = true ∧
        Scan.Found v m config.scan.extensions f ∧
        ∀ glob ∈ m.exclusions.globs, Glob.excludes m.exclusions.foldCase glob f = false
  /-- None belongs to a type that is declared elsewhere. -/
  foreign : ∀ name decl, s.index.decl? name = some decl →
    (∀ f ∈ scan.files, same decl.path f.normalize = false) →
      ∀ a ∈ s.artifacts config (Umbrella.ofModule m config).outputDir, a.typeName ≠ name

/-- Headers that are left out or lie elsewhere have nothing generated. Whatever tree the headers of a
scan are read as, and however paths are compared, the files that are written belong to types declared
in headers of the scan: files below the sources of the module, reached through no output directory,
with an extension that is asked for and matched by no glob. A type declared elsewhere has no file, be
it included, a base or a member of one that has some. A pass that reads the headers itself is one over
the tree it read, or it changes and writes nothing. -/
theorem written_from_scanned_headers (v : Volume) (config : Config) (m : SourceModule)
    (plain : v.Plain) :
    (∀ (scan : Scan) (scanned : Log) (same : Path → Path → Bool) (root : Namespace)
      (texts : HeaderTexts), Scan.ofModule v m config.scan.extensions = .ok (scan, scanned) →
        FromHeaders v config m scan same (.ofTree config same scan root texts)) ∧
    ∀ follow : Bool,
      (run v config follow m).volume = v ∧ (run v config follow m).report.artifactsWritten = 0 ∨
        ∃ scan scanned tree log texts,
          Scan.ofModule v m config.scan.extensions = .ok (scan, scanned) ∧
          HeaderTree.read v (Survey.request m follow scan) = (.ok tree, log) ∧
          (run v config follow m).volume =
            (output v config m (.ofTree config (· == ·) scan tree.root texts)).volume ∧
          (run v config follow m).report.artifactsWritten =
            (written v config m (.ofTree config (· == ·) scan tree.root texts)).length := by
  constructor
  · intro scan scanned same root texts found
    refine ⟨artifactsWritten_output, written_sublist, fun prepared _ _ _ => ?_, fun a mem => ?_,
      fun name decl indexed foreign a mem named => ?_⟩
    · rw [(emitted_agrees config _ _ prepared).volume]
      exact Emission.volume_foldl_write _ _
    · obtain ⟨decl, indexed, f, among, accepted⟩ := exists_header mem
      obtain ⟨lies, unmatched⟩ := (Scan.sound_ofModule plain found).files f among
      exact ⟨decl, indexed, f, among, accepted, lies, unmatched⟩
    -- two types of one name are one entry of the index
    · obtain ⟨decl', indexed', f, among, accepted⟩ := exists_header mem
      rw [named] at indexed'
      obtain rfl : decl = decl' := Option.some.inj (indexed.symm.trans indexed')
      rw [foreign f among] at accepted
      cases accepted
  · intro follow
    cases run_reaches v config follow m with
    | early _ _ _ volume nothing => exact .inl ⟨volume, nothing⟩
    | output found surveyed volume _ counted =>
      obtain ⟨tree, said, texts, read, rfl⟩ := Survey.exists_tree surveyed
      exact .inr ⟨_, _, tree, said, texts, found, read, volume,
        counted.trans artifactsWritten_output⟩

def guarded : SourceModule :=
  { part "core" with exclusions := { globs := ["*/b.hpp"] } }

def reflecting : Config where
  policy := { structDefault := .reflect }

def derived : Namespace where
  types :=
    [{ name := "A", key := .struct, path := ⟨"/src/core/a.hpp"⟩
       bases := [{ spelling := "B", resolved := some "B", access := .pub }] },
      { name := "B", key := .struct, path := ⟨"/src/core/b.hpp"⟩ }]

def survey : Survey :=
  .ofTree reflecting (· == ·)
    { files := [⟨"/src/core/a.hpp"⟩], excluded := [⟨"/src/core/b.hpp"⟩] } derived ⟨[]⟩

theorem scan_guarded : ∃ log, Scan.ofModule shared guarded reflecting.scan.extensions =
    .ok ({ files := [⟨"/src/core/a.hpp"⟩], excluded := [⟨"/src/core/b.hpp"⟩] }, log) := by
  have ends : guarded.sourceDir.EndsIn "core" := Path.endsIn_child _ isName_core
  have fits : Volume.Fits guarded.sourceDir := by constructor <;> decide
  have found : shared.dirOf? guarded.sourceDir = some ["core", "src"] := by decide
  -- the directory has two headers and the output directory, which is passed by its name
  have header : guarded.sourceDir.child "a.hpp" = ⟨"/src/core/a.hpp"⟩ := by decide
  have other : guarded.sourceDir.child "b.hpp" = ⟨"/src/core/b.hpp"⟩ := by decide
  have listed : (shared.namesAt ["core", "src"]).map guarded.sourceDir.child =
      [⟨"/src/core/a.hpp"⟩, ⟨"/src/core/autogen"⟩, ⟨"/src/core/b.hpp"⟩] := by decide
  have headerFile := Volume.leaf_child plain_shared isName_core ends found header
    (by constructor <;> decide) (by constructor <;> decide) ⟨_, rfl⟩
  have otherFile := Volume.leaf_child plain_shared isName_core ends found other
    (by constructor <;> decide) (by constructor <;> decide) ⟨_, rfl⟩
  have outputDir : shared.isDir ⟨"/src/core/autogen"⟩ = true :=
    (Volume.locate_of_dirOf? plain_shared Path.isName_outputDirName
      (.inr ⟨"/src/core", by decide⟩) (by constructor <;> decide)
      (by decide : _ = some ["autogen", "core", "src"])).2
  have depth : shared.depthBound = 532 + 1 := rfl
  have named : (⟨"/src/core/autogen"⟩ : Path).fileName? = some outputDirName := by decide
  have excluded : guarded.exclusions.matching? ⟨"/src/core/b.hpp"⟩ = some "*/b.hpp" := by
    decide +kernel
  have kept : guarded.exclusions.matching? ⟨"/src/core/a.hpp"⟩ = none := by
    decide +kernel
  have extension : Scan.isHeader reflecting.scan.extensions ⟨"/src/core/a.hpp"⟩ = true ∧
      Scan.isHeader reflecting.scan.extensions ⟨"/src/core/b.hpp"⟩ = true := by
    constructor <;> decide +kernel
  obtain ⟨log, scanned⟩ : ∃ log, Scan.scanEntries shared guarded reflecting.scan.extensions
      shared.depthBound [⟨"/src/core/a.hpp"⟩, ⟨"/src/core/autogen"⟩, ⟨"/src/core/b.hpp"⟩] =
        ({ files := [⟨"/src/core/a.hpp"⟩], excluded := [⟨"/src/core/b.hpp"⟩] }, log) := by
    rw [depth]
    simp [Scan.scanEntries, Scan.ofEntry, Scan.append, outputDir, named, headerFile, otherFile,
      extension, excluded, kept]
  exact Scan.exists_ofModule_of_names plain_shared isName_core fits found
    (Volume.listable_of_faultless rfl _) listed (by decide) scanned

theorem exists_written : ∃ a ∈ written shared reflecting guarded survey, a.typeName = "A" := by
  have ends := Umbrella.endsIn_ofModule guarded reflecting
  have output : (Umbrella.ofModule guarded reflecting).outputDir = ⟨"/src/core/autogen"⟩ := by
    decide
  rw [output] at ends
  have fits : Volume.Fits (⟨"/src/core/autogen"⟩ : Path) := by constructor <;> decide
  have found : shared.dirOf? ⟨"/src/core/autogen"⟩ = some ["autogen", "core", "src"] := by decide
  have inside := Umbrella.inside_ofModule guarded reflecting
  have writable (header impl : String) : (Umbrella.ofModule guarded reflecting).Writable shared
      ["autogen", "core", "src"] header impl := by
    refine ⟨⟨⟨?_, ?_, rfl⟩, rfl⟩, ⟨⟨?_, ?_, rfl⟩, rfl⟩⟩
    · constructor <;> decide
    · decide
    · constructor <;> decide
    · decide
  obtain ⟨w, removed, log, ready, tends⟩ := Umbrella.exists_prepare (output ▸ ends) plain_shared
    (output ▸ fits) (output ▸ found) (Volume.listable_of_faultless rfl _) (writable _ _)
  obtain ⟨files, byHand⟩ := Umbrella.exists_collected
    (Volume.listable_of_faultless (v := shared) rfl) (Umbrella.ofModule guarded reflecting)
  rw [← Umbrella.collected_of_tends plain_shared tends (output ▸ ends) inside (output ▸ found)]
    at byHand
  -- only `A` is to have files
  have entries : survey.verdicts.entries = [("A", .reflectable)] := by decide
  have fine : survey.index.checkNestedCycles "A" = .ok () :=
    TypeIndex.checkNestedCycles_of_leaf (by decide +kernel)
  obtain ⟨decl, indexed⟩ : ∃ decl, survey.index.decl? "A" = some decl := ⟨_, rfl⟩
  obtain ⟨c, target⟩ := (Survey.exists_target?_iff (v := .reflectable) indexed).mpr ⟨rfl, fun _ => fine⟩
  have stem : (Stems.allocate { foldCase := reflecting.scan.caseRule.isInsensitive } decl).1 = "A" := by
    cases indexed
    decide
  obtain ⟨first, rest, generated, named, path⟩ : ∃ first rest,
      survey.artifacts reflecting ⟨"/src/core/autogen"⟩ = first :: rest ∧
        first.typeName = "A" ∧ first.path = Path.child ⟨"/src/core/autogen"⟩ "autogen_reflector_A.hpp" := by
    rw [Survey.artifacts, entries, Survey.artifactsFrom, target]
    refine ⟨_, _, rfl, TypeIndex.qualifiedName_of_decl? indexed, ?_⟩
    dsimp only
    rw [stem]
    rfl
  -- nothing of that name is there yet, so the file can be written
  have accepts : w.Accepts ⟨"/src/core/autogen"⟩ ["autogen", "core", "src"]
      "autogen_reflector_A.hpp" first.content :=
    tends.toKeeps.accepts_iff.mpr ⟨⟨by constructor <;> decide, by decide, rfl⟩, rfl⟩
  obtain ⟨result, wrote, whole⟩ := Volume.writeText_admitted tends.plain Path.isName_outputDirName
    ends (by constructor <;> decide : IsName "autogen_reflector_A.hpp")
    ((tends.toKeeps.dirOf? _).trans found) accepts.toAdmits first.content
  rw [whole.mpr accepts, ← path] at wrote
  refine ⟨first, ?_, named⟩
  rw [written_of_ok ready byHand, output, generated]
  exact Emission.mem_written wrote

theorem written_from_scanned_headers_survey :
    shared.Plain ∧
      (∃ log, Scan.ofModule shared guarded reflecting.scan.extensions =
        .ok ({ files := [⟨"/src/core/a.hpp"⟩], excluded := [⟨"/src/core/b.hpp"⟩] }, log)) ∧
      (∃ a ∈ written shared reflecting guarded survey, a.typeName = "A") ∧
      ∀ a ∈ written shared reflecting guarded survey, a.typeName ≠ "B" := by
  obtain ⟨log, scanned⟩ := scan_guarded
  obtain ⟨trees, -⟩ := written_from_scanned_headers shared reflecting guarded plain_shared
  have written := trees _ log (· == ·) derived ⟨[]⟩ scanned
  refine ⟨plain_shared, ⟨log, scanned⟩, exists_written, fun a mem => ?_⟩
  refine written.foreign "B" _ rfl (fun f among => ?_) a (written.order.subset mem)
  obtain rfl := List.mem_singleton.mp among
  decide

end Pass

end HeaderMeta
