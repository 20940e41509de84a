import HeaderMeta.Proofs.Bodies.Files
import HeaderMeta.Proofs.Scanning.Complete
import HeaderMeta.Proofs.Tally

/-! Where relative includes lead.

Behind the beginning that two paths share, the way from one to the other goes up once for each
component of the one and then down the other (`Path.difference_eq`). Read back behind the directory it
starts from, the steps up cancel what they were written for. A `..` could not be undone that way, so
the directory must have none behind the shared beginning.
-/

set_option autoImplicit false

namespace HeaderMeta

open HeaderMeta.Path (IsName)

namespace Path
variable {p d : Path}

section Parting
variable {as bs : List Component}

/-- What is left of two paths behind the longest beginning they share. -/
def parted : List Component → List Component → List Component × List Component
  | a :: as, b :: bs => if a = b then parted as bs else (a :: as, b :: bs)
  | as, bs => (as, bs)

theorem exists_shared (as bs : List Component) :
    ∃ cs, as = cs ++ (parted as bs).1 ∧ bs = cs ++ (parted as bs).2 := by
  fun_induction parted as bs with
  | case1 as b bs ih =>
    obtain ⟨cs, left, right⟩ := ih
    exact ⟨b :: cs, congrArg (b :: ·) left, congrArg (b :: ·) right⟩
  | case2 | case3 => exact ⟨[], rfl, rfl⟩

theorem parted_subset (as bs : List Component) : (parted as bs).1 ⊆ as ∧ (parted as bs).2 ⊆ bs := by
  obtain ⟨cs, left, right⟩ := exists_shared as bs
  constructor
  · conv_rhs => rw [left]
    exact List.subset_append_right cs _
  · conv_rhs => rw [right]
    exact List.subset_append_right cs _

theorem parted_append (cs as bs : List Component) :
    parted (cs ++ as) (cs ++ bs) = parted as bs := by
  induction cs with
  | nil => rfl
  | cons c cs ih => simpa [parted] using ih

theorem difference_eq (plain : ∀ c ∈ (parted as bs).2, c ≠ .current ∧ c ≠ .parent) :
    difference as bs false =
      some (List.replicate (parted as bs).2.length Component.parent ++ (parted as bs).1) := by
  fun_induction parted as bs with
  | case1 as b bs ih => simpa [difference] using ih plain
  | case2 a as b bs other =>
    obtain ⟨noCurrent, noParent⟩ := plain b List.mem_cons_self
    simp [difference, other, noCurrent, noParent, List.replicate_succ]
  | case3 as bs ended =>
    cases as with
    | nil => simp [difference]
    | cons a as =>
      cases bs with
      | nil => rfl
      | cons b bs => exact (ended a as b bs rfl rfl).elim

theorem foldl_reduceStep_back {names : List Component}
    (named : ∀ c ∈ names, ∃ name, c = .normal name) (kept : List Component) :
    (names ++ List.replicate names.length Component.parent).foldl reduceStep kept = kept := by
  induction names generalizing kept with
  | nil => rfl
  | cons c names ih =>
    obtain ⟨⟨name, rfl⟩, others⟩ := List.forall_mem_cons.mp named
    -- the first name is cancelled by the last step up, the others before that
    rw [List.length_cons, List.replicate_succ', List.cons_append, ← List.append_assoc,
      List.foldl_cons, List.foldl_append]
    change List.foldl reduceStep (List.foldl reduceStep (.normal name :: kept) _) _ = kept
    rw [ih others]
    rfl

end Parting

section Back

theorem front_eq_nil (steps : ∀ c ∈ p.components, c.IsStep) : p.front = [] := by
  have inside {c : Component} (mem : c ∈ p.front) : c.IsStep :=
    steps c (List.mem_append_left _ mem)
  rcases p.front_cases with ⟨-, root⟩ | ⟨-, dot | none⟩
  · exact absurd rfl (inside (root ▸ List.mem_singleton_self _)).ne_root
  · exact absurd rfl (inside (dot ▸ List.mem_singleton_self _)).ne_current
  · exact none

theorem IsNormal.exists_steps (normal : p.IsNormal) :
    ∃ steps, p.components = Component.start p.isAbsolute ++ steps ∧ ∀ c ∈ steps, c.IsStep := by
  refine ⟨p.parts.filterMap Component.ofPart?, ?_, fun c => isStep_of_mem_parts⟩
  rw [components]
  rcases p.front_cases with ⟨absolute, root⟩ | ⟨relative, dot | none⟩
  · rw [absolute, root]
    rfl
  · exact absurd (List.mem_append_left _ (dot ▸ List.mem_singleton_self _)) normal.noCurrent
  · rw [relative, none]
    rfl

theorem IsNormal.parted_eq (normalP : p.IsNormal) (normalD : d.IsNormal)
    (alike : p.isAbsolute = d.isAbsolute) :
    (∀ c ∈ (parted p.components d.components).1, c.IsStep) ∧
      ∀ c ∈ (parted p.components d.components).2, c.IsStep := by
  obtain ⟨steps, target, written⟩ := normalP.exists_steps
  obtain ⟨steps', base, written'⟩ := normalD.exists_steps
  rw [target, base, alike, parted_append]
  obtain ⟨left, right⟩ := parted_subset steps steps'
  exact ⟨fun c mem => written c (left mem), fun c mem => written' c (right mem)⟩

variable (normalP : p.IsNormal) (normalD : d.IsNormal) (alike : p.isAbsolute = d.isAbsolute)
  (descends : .parent ∉ (parted p.components d.components).2)
include normalP normalD alike descends

theorem IsNormal.named_of_parted :
    ∀ c ∈ (parted p.components d.components).2, ∃ name, c = .normal name := by
  intro c mem
  exact ((normalP.parted_eq normalD alike).2 c mem).exists_name fun same => descends (same ▸ mem)

/-- The way from a directory to a path goes up and then down. -/
theorem IsNormal.relativeTo_eq :
    p.relativeTo d = ofComponents (List.replicate (parted p.components d.components).2.length .parent ++
      (parted p.components d.components).1) := by
  have plain : ∀ c ∈ (parted p.components d.components).2, c ≠ .current ∧ c ≠ .parent := by
    intro c mem
    obtain ⟨name, rfl⟩ := normalP.named_of_parted normalD alike descends c mem
    exact ⟨nofun, nofun⟩
  rw [relativeTo, alike, bne_self_eq_false, if_neg Bool.false_ne_true, difference_eq plain]

/-- Behind the directory it leads back to the path. -/
theorem IsNormal.normalize_join_relativeTo : (d.join (p.relativeTo d)).normalize = p.normalize := by
  have way := normalP.relativeTo_eq normalD alike descends
  have named := normalP.named_of_parted normalD alike descends
  obtain ⟨down, -⟩ := normalP.parted_eq normalD alike
  obtain ⟨cs, target, base⟩ := exists_shared p.components d.components
  generalize parted p.components d.components = ways at *
  obtain ⟨downward, upward⟩ := ways
  have steps : ∀ c ∈ List.replicate upward.length Component.parent ++ downward, c.IsStep := by
    intro c mem
    rcases List.mem_append.mp mem with back | mem
    · rw [List.eq_of_mem_replicate back]
      exact isStep_parent
    · exact down c mem
  have read : (p.relativeTo d).components =
      List.replicate upward.length .parent ++ downward := by
    rw [way]
    exact components_ofComponents false steps
  have bare : (p.relativeTo d).front = [] := front_eq_nil (read ▸ steps)
  rw [normalize, normalize, components_join d bare, read]
  congr 1
  -- the names that the directory adds to what is shared are cancelled by as many steps up
  calc reduce (d.components ++ (List.replicate upward.length .parent ++ downward))
    _ = reduce (cs ++ ((upward ++ List.replicate upward.length .parent) ++ downward)) := by
      rw [base]
      simp only [List.append_assoc]
    _ = reduce (cs ++ downward) := by
      rw [reduce, reduce, List.foldl_append, List.foldl_append, foldl_reduceStep_back named,
        ← List.foldl_append]
    _ = reduce p.components := by rw [← target]

end Back

section Slashes

theorem mem_joinWith {sep : String} {c : Char} {parts : List String}
    (mem : c ∈ (Text.joinWith sep parts).toList) : c ∈ sep.toList ∨ ∃ part ∈ parts, c ∈ part.toList := by
  induction parts with
  | nil => cases mem
  | cons part parts ih =>
    cases parts with
    | nil => exact .inr ⟨part, List.mem_cons_self, mem⟩
    | cons next rest =>
      rw [Text.joinWith, String.toList_append, String.toList_append, List.mem_append,
        List.mem_append] at mem
      rcases mem with (own | between) | later
      · exact .inr ⟨part, List.mem_cons_self, own⟩
      · exact .inl between
      · refine (ih later).imp_right fun inner => ?_
        obtain ⟨other, among, inside⟩ := inner
        exact ⟨other, List.mem_cons_of_mem part among, inside⟩
      · exact List.cons_ne_nil _ _

theorem not_mem_text_ofComponents {cs : List Component} {c : Char} (other : c ≠ '/')
    (absent : ∀ x ∈ cs, c ∉ x.name.toList) : c ∉ (ofComponents cs).text.toList := by
  have joined (cs : List Component) (absent : ∀ x ∈ cs, c ∉ x.name.toList) :
      c ∉ (Text.joinWith "/" (cs.map Component.name)).toList := by
    intro mem
    rcases mem_joinWith mem with slash | ⟨part, among, inside⟩
    · exact other (List.mem_singleton.mp slash)
    · obtain ⟨x, here, rfl⟩ := List.mem_map.mp among
      exact absent x here inside
  unfold ofComponents
  split
  next cs =>
    have rest := joined cs fun x mem => absent x (List.mem_cons_of_mem _ mem)
    simpa [other] using rest
  next => exact joined cs absent

/-- A component has no characters but those of the path. -/
theorem not_mem_name {c : Char} (fixed : c ≠ '/' ∧ c ≠ '.') (absent : c ∉ p.text.toList) :
    ∀ x ∈ p.components, c ∉ x.name.toList := by
  intro x mem
  cases x with
  | root | current | parent => simp [Component.name, fixed]
  | normal name =>
    rcases List.mem_append.mp mem with first | later
    · rcases p.front_cases with ⟨-, root⟩ | ⟨-, dot | none⟩ <;> simp_all
    · obtain ⟨part, inside, read⟩ := List.mem_filterMap.mp later
      obtain ⟨piece, isPiece, rfl⟩ := List.mem_map.mp inside
      obtain rfl : String.ofList piece = name := by
        unfold Component.ofPart? at read
        split at read
        · cases read
        · split at read <;> cases read
          rfl
      intro here
      exact absent ((mem_pieces isPiece).2 c (by simpa [Component.name] using here))

end Slashes

/-- An include written in a directory leads back to what it was written for. -/
theorem IsNormal.include_back (normalP : p.IsNormal) (normalD : d.IsNormal)
    (alike : p.isAbsolute = d.isAbsolute)
    (descends : .parent ∉ (parted p.components d.components).2)
    (plain : ∀ c ∈ (parted p.components d.components).1, '\\' ∉ c.name.toList) :
    (d.join ⟨relativeInclude p d⟩).normalize.same p = true := by
  have way := normalP.relativeTo_eq normalD alike descends
  have back := normalP.normalize_join_relativeTo normalD alike descends
  have slashes : '\\' ∉ (p.relativeTo d).text.toList := by
    rw [way]
    refine not_mem_text_ofComponents (by decide) fun c mem => ?_
    rcases List.mem_append.mp mem with up | down
    · rw [List.eq_of_mem_replicate up]
      decide
    · exact plain c down
  rw [relativeInclude, slashed_of_not_mem slashes, back]
  exact same_normalize_iff.mpr normalP

section Descend
variable {name : String} {names : List String}

theorem components_foldl_child (p : Path) (named : ∀ name ∈ names, IsName name) :
    (names.foldl child p).components = p.components ++ names.map .normal := by
  induction names generalizing p with
  | nil => simp
  | cons name names ih =>
    obtain ⟨isName, others⟩ := List.forall_mem_cons.mp named
    rw [List.foldl_cons, ih (p.child name) others, components_child p isName]
    simp

theorem isAbsolute_foldl_child (p : Path) (named : ∀ name ∈ names, IsName name) :
    (names.foldl child p).isAbsolute = p.isAbsolute := by
  induction names generalizing p with
  | nil => rfl
  | cons name names ih =>
    obtain ⟨isName, others⟩ := List.forall_mem_cons.mp named
    rw [List.foldl_cons, ih (p.child name) others, isAbsolute_child p isName]

theorem reduce_append_names (cs : List Component) (names : List String) :
    reduce (cs ++ names.map .normal) = reduce cs ++ names.map .normal := by
  have plain : ∀ c ∈ names.map Component.normal, c ≠ .current ∧ c ≠ .parent := by simp
  rw [reduce, reduce, List.foldl_append, foldl_reduceStep_of_plain plain]
  simp

theorem IsNormal.child (normal : p.IsNormal) (isName : IsName name) : (p.child name).IsNormal := by
  have components := components_child p isName
  obtain ⟨noCurrent, n, rest, split, noParent⟩ := normal
  refine ⟨by simp [components, noCurrent], n, rest ++ [.normal name], ?_, by simp [noParent]⟩
  rw [components, split, isAbsolute_child p isName, List.append_assoc]

end Descend

end Path

namespace SourceModule
variable (m : SourceModule)

theorem components_outputDir :
    m.outputDir.normalize.components =
      Path.reduce m.sourceDir.components ++ [Path.Component.normal outputDirName] := by
  rw [Path.components_normalize, outputDir,
    Path.components_child m.sourceDir Path.isName_outputDirName, Path.reduce_concat]

/-- A header below the sources is included from the output directory by a path that leads back to it. -/
theorem include_header {dirs : List String} {name : String} {f : Path} (leads : Scan.Leads m dirs name f)
    (plain : ∀ n ∈ dirs ++ [name], '\\' ∉ n.toList) :
    (m.outputDir.normalize.join ⟨relativeInclude f.normalize m.outputDir.normalize⟩).normalize.same
      f.normalize = true := by
  have components : f.normalize.components =
      Path.reduce m.sourceDir.components ++ (dirs ++ [name]).map .normal := by
    rw [Path.components_normalize, leads.path, Path.components_foldl_child _ leads.named,
      Path.reduce_append_names]
  have alike : f.normalize.isAbsolute = m.outputDir.normalize.isAbsolute := by
    have output : m.outputDir.isAbsolute = m.sourceDir.isAbsolute :=
      Path.isAbsolute_child m.sourceDir Path.isName_outputDirName
    rw [Path.isAbsolute_normalize, Path.isAbsolute_normalize, leads.path, output,
      Path.isAbsolute_foldl_child _ leads.named]
  -- what the two share is at least the sources, so only names are left
  obtain ⟨left, right⟩ :=
    Path.parted_subset ((dirs ++ [name]).map Path.Component.normal) [.normal outputDirName]
  refine (Path.isNormal_normalize f).include_back (Path.isNormal_normalize _) alike ?_ ?_
  · rw [components, m.components_outputDir, Path.parted_append]
    exact fun mem => absurd (List.mem_singleton.mp (right mem)) nofun
  · rw [components, m.components_outputDir, Path.parted_append]
    intro c mem
    obtain ⟨n, inside, rfl⟩ := List.mem_map.mp (left mem)
    exact plain n inside

end SourceModule

theorem Artifact.include_back {a : Artifact} {d : Path} (normal : d.IsNormal) (placed : a.LiesIn d) :
    (d.join ⟨relativeInclude a.path d⟩).normalize.same a.path = true := by
  have components : a.path.components = d.components ++ [Path.Component.normal a.fileName] := by
    conv_lhs => rw [placed.path, Path.components_child d placed.isName]
  have parted : Path.parted a.path.components d.components = ([.normal a.fileName], []) := by
    have own := Path.parted_append d.components [.normal a.fileName] []
    rwa [List.append_nil, ← components] at own
  have isNormal : a.path.IsNormal := placed.path ▸ normal.child placed.isName
  have alike : a.path.isAbsolute = d.isAbsolute :=
    placed.path ▸ Path.isAbsolute_child d placed.isName
  refine isNormal.include_back normal alike (by simp [parted]) ?_
  rw [parted]
  simpa [Path.Component.name] using placed.noBackslash

namespace Code
variable {code : Code}

theorem infix_text {line : String} (filled : line ≠ "") (mem : .line line ∈ code) :
    line.toList ++ ['\n'] <:+: code.text.toList := by
  have lines (depth : Nat) :
      line.toList ++ ['\n'] <:+: (linesFrom depth code).flatMap (· ++ ['\n']) := by
    induction code generalizing depth with
    | nil => cases mem
    | cons step code ih =>
      rw [linesFrom, List.flatMap_cons]
      rcases List.mem_cons.mp mem with rfl | later
      · have own : CodeWriter.written depth (.line line) = CodeWriter.margin depth ++ line.toList := by
          rw [CodeWriter.written, if_neg filled]
        rw [own, List.append_assoc _ line.toList]
        exact ((List.suffix_append _ _).isInfix).trans (List.prefix_append _ _).isInfix
      · exact (ih later _).trans (List.suffix_append _ _).isInfix
  rw [text, toList_foldl_write]
  exact lines 0

end Code

theorem Artifact.infix_source {emit : EmitConfig} {dir : Path} {decl : TypeDecl} {verdict : Verdict}
    {c : Classification} {stem : String} {a : Artifact}
    (mem : a ∈ generate emit dir decl verdict c stem)
    (needed : a.kind.isHeader = false ∨ decl.isNested = true) :
    (Umbrella.includeLine (relativeInclude decl.path dir)).toList <:+: a.content.toList := by
  obtain ⟨kind, -, rfl⟩ := List.mem_map.mp mem
  have spelled (target : String) : (Umbrella.includeLine target).toList =
      ("#include \"" ++ target ++ "\"").toList ++ ['\n'] := by
    simp [Umbrella.includeLine]
  rw [spelled]
  refine Code.infix_text (by simp) ?_
  -- an implementation has the line below the one for its header, a header in place of a declaration
  cases kind with
  | reflectorHeader | prototypeHeader =>
    have nested := needed.resolve_left nofun
    simp [EmitTarget.code, Reflector.header, Prototype.header, EmitTarget.forwardDeclaration, nested]
  | reflectorImpl | prototypeImpl =>
    simp [EmitTarget.code, Reflector.implementation, Prototype.implementation]

namespace Umbrella
variable {u : Umbrella}

def text (u : Umbrella) (toHeader : Bool) : String :=
  if toHeader then u.headerText else u.implText

theorem infix_textOf (byHand : List Path) {files : List Artifact} {a : Artifact} (mem : a ∈ files) :
    (includeLine (relativeInclude a.path u.outputDir)).toList <:+:
      (u.textOf byHand files a.kind.isHeader).toList := by
  have line : includeLine (relativeInclude a.path u.outputDir) ∈
      u.overrideLines byHand a.kind.isHeader ++ u.generatedLines files a.kind.isHeader := by
    refine List.mem_append_right _ (List.mem_map.mpr ⟨a, ?_, rfl⟩)
    simp [mem]
  obtain ⟨before, after, split⟩ := List.append_of_mem line
  rw [textOf, split, String.toList_append, String.toList_join, List.flatMap_append,
    List.flatMap_cons]
  refine List.IsInfix.trans ?_ (List.suffix_append _ _).isInfix
  exact ⟨before.flatMap String.toList, after.flatMap String.toList, by simp⟩

end Umbrella

namespace Pass

/-- The includes in the files of a survey lead back to what they were written for. -/
structure LeadsBack (config : Config) (u : Umbrella) (s : Survey) : Prop where
  /-- The header of its type is included by every implementation file, and by every header of a
  nested type. -/
  source : ∀ a ∈ s.artifacts config u.outputDir, ∃ decl, s.index.decl? a.typeName = some decl ∧
    (u.outputDir.join ⟨relativeInclude decl.path u.outputDir⟩).normalize.same decl.path = true ∧
    (a.kind.isHeader = false ∨ decl.isNested = true →
      (Umbrella.includeLine (relativeInclude decl.path u.outputDir)).toList <:+: a.content.toList)
  /-- Every file that is written is included by an umbrella file. -/
  umbrella : ∀ (prepared : Volume),
    ∀ a ∈ (begun config u prepared).written (s.artifacts config u.outputDir),
      (u.outputDir.join ⟨relativeInclude a.path u.outputDir⟩).normalize.same a.path = true ∧
      (Umbrella.includeLine (relativeInclude a.path u.outputDir)).toList <:+:
        ((emitted config s u prepared).umbrella.text a.kind.isHeader).toList

theorem leadsBack_ofTree {v : Volume} {config : Config} {m : SourceModule} {scan : Scan} {log : Log}
    {root : Namespace} (texts : HeaderTexts) (named : v.Named)
    (scanned : Scan.ofModule v m config.scan.extensions = .ok (scan, log)) (spelled : root.Spelled)
    (plain : ∀ f ∈ scan.files, ∀ dirs name, Scan.Leads m dirs name f →
      ∀ n ∈ dirs ++ [name], '\\' ∉ n.toList) :
    LeadsBack config (.ofModule m config) (.ofTree config (· == ·) scan root texts) := by
  constructor
  · intro a mem
    obtain ⟨entry, entered, decl, c, stem, target, generated⟩ := Survey.exists_generated mem
    have indexed := Survey.decl?_of_target? target
    obtain ⟨kind, -, own⟩ := List.mem_map.mp generated
    have typeName : a.typeName = entry.1 :=
      (congrArg Artifact.typeName own).symm.trans (TypeIndex.qualifiedName_of_decl? indexed)
    obtain ⟨f, among, same⟩ := Survey.exists_candidate entered indexed
    obtain ⟨dirs, name, leads⟩ := Scan.leads_files named scanned f among
    have path : decl.path = f.normalize := by simpa using same
    -- the header of the type was scanned, so the way to it leads through named directories only
    refine ⟨decl, typeName ▸ indexed, ?_, Artifact.infix_source generated⟩
    rw [path, Umbrella.outputDir_ofModule]
    exact m.include_header leads (plain f among dirs name leads)
  · intro prepared a mem
    obtain ⟨frame, header, impl⟩ := texts_emitted config
      (.ofTree config (· == ·) scan root texts) prepared (Umbrella.side_ofModule m config)
    have placed := Survey.liesIn_of_mem
      (fun name decl found => (TypeIndex.spelled_ofRoot spelled found).1)
      ((Emission.written_sublist _ _).subset mem)
    refine ⟨?_, ?_⟩
    · rw [Umbrella.outputDir_ofModule] at placed ⊢
      exact Artifact.include_back (Path.isNormal_normalize _) placed
    · have line := Umbrella.infix_textOf (u := .ofModule m config)
        ((Umbrella.ofModule m config).overrides prepared) mem
      unfold Umbrella.text
      cases side : a.kind.isHeader with
      | true => rwa [if_pos rfl, header, ← side]
      | false => rwa [if_neg Bool.false_ne_true, impl, ← side]

/-- Relative includes lead back to their target. Behind a directory without `..` where it parts from a
path, the way to the path leads to it: both in lexical normal form, the path without backslashes. So
wherever its root is, the files of a module include the header of their type, and the umbrella files
include those files, as long as no name below the sources has a backslash. -/
theorem includes_lead_back :
    (∀ p d : Path, p.normalize.same p = true → d.normalize.same d = true →
      '\\' ∉ p.text.toList → p.isAbsolute = d.isAbsolute →
      .parent ∉ (Path.parted p.components d.components).2 →
        (d.join ⟨relativeInclude p d⟩).normalize.same p = true) ∧
    ∀ (v : Volume) (config : Config) (m : SourceModule) (scan : Scan) (scanned : Log), v.Named →
      Scan.ofModule v m config.scan.extensions = .ok (scan, scanned) →
      (∀ f ∈ scan.files, ∀ dirs name, Scan.Leads m dirs name f →
        ∀ n ∈ dirs ++ [name], '\\' ∉ n.toList) →
      (∀ (root : Namespace) (texts : HeaderTexts), root.Spelled →
        LeadsBack config (.ofModule m config) (.ofTree config (· == ·) scan root texts)) ∧
      ∀ follow s log, Survey.ofScan v config m follow scan = (.ok s, log) →
        LeadsBack config (.ofModule m config) s := by
  refine ⟨fun p d normalP normalD plain alike descends => ?_,
    fun v config m scan scanned named found plain => ?_⟩
  · refine (Path.same_normalize_iff.mp normalP).include_back (Path.same_normalize_iff.mp normalD) alike
      descends fun c mem => ?_
    exact Path.not_mem_name (by decide) plain c ((Path.parted_subset _ _).1 mem)
  · have trees (root : Namespace) (texts : HeaderTexts) (spelled : root.Spelled) :=
      leadsBack_ofTree texts named found spelled plain
    refine ⟨trees, fun follow s log surveyed => ?_⟩
    obtain ⟨tree, said, texts, read, rfl⟩ := Survey.exists_tree surveyed
    exact trees tree.root texts (HeaderTree.spelled_read read)

theorem spelled_derived : derived.Spelled := by
  refine ⟨fun type mem => ?_, List.forall_mem_nil _⟩
  have word (part : String) (among : part = "A" ∨ part = "B") : IsWord part := by
    rcases among with rfl | rfl <;> simp [IsWord, Lexeme.isWordPart]
  simp only [derived, List.mem_cons, List.not_mem_nil, or_false] at mem
  rcases mem with rfl | rfl <;> refine ⟨fun part mem => word part ?_, List.forall_mem_nil _⟩ <;>
    simp_all [TypeDecl.scope, TypeDecl.parentScope]

theorem includes_lead_back_derived :
    (Path.join ⟨"../a/b/c"⟩ ⟨relativeInclude ⟨"../a/x.hpp"⟩ ⟨"../a/b/c"⟩⟩).normalize.same
        ⟨"../a/x.hpp"⟩ = true ∧
      shared.Named ∧ derived.Spelled ∧
      (∃ a ∈ survey.artifacts reflecting (Umbrella.ofModule guarded reflecting).outputDir,
        a.typeName = "A") ∧
      LeadsBack reflecting (.ofModule guarded reflecting) survey := by
  obtain ⟨paths, modules⟩ := includes_lead_back
  obtain ⟨log, scanned⟩ := scan_guarded
  obtain ⟨a, wrote, typeName⟩ := exists_written
  have trees := (modules shared reflecting guarded _ log plain_shared.isNamed scanned ?_).1
  · exact ⟨paths _ _ (by decide) (by decide) (by decide) (by decide) (by decide),
      plain_shared.isNamed, spelled_derived, ⟨a, written_sublist.subset wrote, typeName⟩,
      trees derived ⟨[]⟩ spelled_derived⟩
  · intro f mem dirs name leads n inside
    obtain rfl := List.mem_singleton.mp mem
    have among : Path.Component.normal n ∈ (⟨"/src/core/a.hpp"⟩ : Path).components := by
      rw [leads.path, Path.components_foldl_child _ leads.named]
      exact List.mem_append_right _ (List.mem_map_of_mem inside)
    exact Path.not_mem_name (by decide) (by decide) _ among

section Slanted

def slantedHeader : Path := ⟨"/src/core/x\\y.hpp"⟩

def slanted : Volume where
  nodes := [(["src"], .dir), (["core", "src"], .dir), (["x\\y.hpp", "core", "src"], .file .empty)]

theorem plain_slanted : slanted.Plain where
  distinct := by decide
  noLinks := by simp [slanted]
  named := by
    intro n mem
    simp only [slanted, List.mem_cons, List.not_mem_nil, or_false] at mem
    rcases mem with rfl | rfl | rfl <;> exact ⟨_, _, rfl, by constructor <;> decide, by decide, rfl⟩

theorem scan_slanted : ∃ log, Scan.ofModule slanted (part "core") reflecting.scan.extensions =
    .ok ({ files := [slantedHeader] }, log) := by
  have ends : (part "core").sourceDir.EndsIn "core" := Path.endsIn_child _ isName_core
  have fits : Volume.Fits (part "core").sourceDir := by constructor <;> decide
  have found : slanted.dirOf? (part "core").sourceDir = some ["core", "src"] := by decide
  have header : (part "core").sourceDir.child "x\\y.hpp" = slantedHeader := by decide
  have listed : (slanted.namesAt ["core", "src"]).map (part "core").sourceDir.child = [slantedHeader] :=
    congrArg (fun p => [p]) header
  have leaf := Volume.leaf_child plain_slanted isName_core ends found header
    (by constructor <;> decide) (by constructor <;> decide) ⟨_, rfl⟩
  have extension : Scan.isHeader reflecting.scan.extensions slantedHeader = true := by
    decide +kernel
  have kept : (part "core").exclusions.matching? slantedHeader = none := rfl
  have depth : slanted.depthBound = 163 + 1 := rfl
  obtain ⟨log, scanned⟩ : ∃ log, Scan.scanEntries slanted (part "core") reflecting.scan.extensions
      slanted.depthBound [slantedHeader] = ({ files := [slantedHeader] }, log) := by
    rw [depth]
    simp [Scan.scanEntries, Scan.ofEntry, Scan.append, leaf, extension, kept]
  exact Scan.exists_ofModule_of_names plain_slanted isName_core fits found
    (Volume.listable_of_faultless rfl _) listed (List.pairwise_singleton _ _) scanned

def slantedSurvey : Survey :=
  .ofTree reflecting (· == ·) { files := [slantedHeader] }
    { types := [{ name := "A", key := .struct, path := slantedHeader }] } ⟨[]⟩

/-- The backslash is taken for a slash, so the include leads to a header of another directory. -/
theorem includes_miss_slanted :
    let u := Umbrella.ofModule (part "core") reflecting
    (∃ log, Scan.ofModule slanted (part "core") reflecting.scan.extensions =
      .ok ({ files := [slantedHeader] }, log)) ∧
    ∃ a ∈ slantedSurvey.artifacts reflecting u.outputDir,
      (slantedSurvey.index.decl? a.typeName).map (·.path) = some slantedHeader ∧
      "#include \"../x/y.hpp\"\n".toList <:+: a.content.toList ∧
      (u.outputDir.join ⟨"../x/y.hpp"⟩).normalize = ⟨"/src/core/x/y.hpp"⟩ := by
  have entries : slantedSurvey.verdicts.entries = [("A", .reflectable)] := by decide
  have fine : slantedSurvey.index.checkNestedCycles "A" = .ok () :=
    TypeIndex.checkNestedCycles_of_leaf (by decide +kernel)
  obtain ⟨decl, indexed, path⟩ : ∃ decl, slantedSurvey.index.decl? "A" = some decl ∧
      decl.path = slantedHeader := ⟨_, rfl, rfl⟩
  obtain ⟨c, target⟩ := (Survey.exists_target?_iff (v := .reflectable) indexed).mpr ⟨rfl, fun _ => fine⟩
  have among : ("A", Verdict.reflectable) ∈ slantedSurvey.verdicts.entries := by simp [entries]
  obtain ⟨a, mem, kind, named⟩ : ∃ a ∈ slantedSurvey.artifacts reflecting
      (Umbrella.ofModule (part "core") reflecting).outputDir, a.kind = .reflectorImpl ∧
        a.typeName = decl.qualifiedName := Survey.exists_artifact target among _ _
  have typeName : a.typeName = "A" := named.trans (TypeIndex.qualifiedName_of_decl? indexed)
  refine ⟨scan_slanted, a, mem, by rw [typeName, indexed, Option.map_some, path], ?_, by decide⟩
  obtain ⟨entry, entered, decl', c', stem, target', generated⟩ := Survey.exists_generated mem
  rw [entries, List.mem_singleton] at entered
  obtain rfl : decl = decl' := by
    have own := Survey.decl?_of_target? target'
    rw [entered] at own
    exact Option.some.inj (indexed.symm.trans own)
  have line := Artifact.infix_source generated (.inl (by rw [kind]; rfl))
  have target : relativeInclude decl.path (Umbrella.ofModule (part "core") reflecting).outputDir =
      "../x/y.hpp" := by
    rw [path]
    decide +kernel
  rwa [target] at line

end Slanted

end Pass

end HeaderMeta
