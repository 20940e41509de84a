import HeaderMeta.Proofs.Emission
import HeaderMeta.Proofs.Naming
import HeaderMeta.Proofs.Output.Paths
import Mathlib.Data.List.Perm.Subperm

/-! Names of generated files.

A stem is free when it is given out and consists of word characters, so the generated files of a pass
have distinct names that name a file, other than those of the umbrella files.
-/

set_option autoImplicit false

namespace HeaderMeta

open HeaderMeta.Path (IsName)

section Words
variable {a b : String}

theorem IsWord.append (left : IsWord a) (right : IsWord b) : IsWord (a ++ b) := by
  intro c mem
  rw [String.toList_append] at mem
  exact (List.mem_append.mp mem).elim (left c) (right c)

theorem isWord_toString (n : Nat) : IsWord (toString n) := by
  intro c mem
  rw [Nat.toString_eq_repr, Nat.toList_repr] at mem
  have digit := Nat.isDigit_of_mem_toDigits (by decide) (by decide) mem
  simp [Lexeme.isWordPart, Char.isAlphanum, digit]

theorem isWord_underscore : IsWord "_" := by
  simp [IsWord, Lexeme.isWordPart]

theorem isWord_joinWith {parts : List String} (words : ∀ part ∈ parts, IsWord part) :
    IsWord (Text.joinWith "_" parts) := by
  fun_induction Text.joinWith "_" parts with
  | case1 => exact isWord_empty
  | case2 part => exact words part List.mem_cons_self
  | case3 part parts _ ih =>
    have first := words part List.mem_cons_self
    have others := ih fun part mem => words part (List.mem_cons_of_mem _ mem)
    exact (first.append isWord_underscore).append others

theorem IsWord.not_mem (word : IsWord a) {c : Char} (other : Lexeme.isWordPart c = false) :
    c ∉ a.toList := by
  intro mem
  rw [word c mem] at other
  cases other

end Words

namespace Stems
variable {s : Stems} {decl : TypeDecl}

theorem toLower_of_isDigit {c : Char} (digit : c.isDigit = true) : c.toLower = c := by
  simp only [Char.isDigit, Bool.and_eq_true, decide_eq_true_eq] at digit
  refine dif_neg ?_
  rintro ⟨upper, -⟩
  exact absurd (UInt32.le_trans upper digit.2) (by decide)

theorem key_numbered_inj {base : String} {m n : Nat}
    (same : s.key (base ++ "_" ++ toString m) = s.key (base ++ "_" ++ toString n)) : m = n := by
  have digits (n : Nat) : (Nat.toDigits 10 n).map Char.toLower = Nat.toDigits 10 n := by
    refine (List.map_congr_left fun c mem => ?_).trans (List.map_id _)
    exact toLower_of_isDigit (Nat.isDigit_of_mem_toDigits (by decide) (by decide) mem)
  have spelled : Nat.toDigits 10 m = Nat.toDigits 10 n := by
    have chars := congrArg String.toList same
    unfold key Text.asciiLower at chars
    split at chars
    · simpa [Nat.toString_eq_repr, Nat.toList_repr, digits] using chars
    · simpa [Nat.toString_eq_repr, Nat.toList_repr] using chars
  have read := congrArg (Nat.ofDigitChars 10 · 0) spelled
  simpa [Nat.ofDigitChars_toDigits] using read

/-- More stems are tried than are in use, so one is free. -/
theorem exists_free (s : Stems) (decl : TypeDecl) : ∃ stem ∈ s.numbered decl, s.isFree stem = true := by
  by_contra none
  have taken (stem : String) (mem : stem ∈ s.numbered decl) : ¬ s.isFree stem = true :=
    fun free => none ⟨stem, mem, free⟩
  have used : (s.numbered decl).map s.key ⊆ s.used := by
    intro key mem
    obtain ⟨stem, among, rfl⟩ := List.mem_map.mp mem
    simpa [isFree] using taken stem among
  have distinct : ((s.numbered decl).map s.key).Nodup := by
    rw [numbered, List.map_map]
    refine List.Nodup.map_on (fun m _ n _ same => ?_) List.nodup_range
    exact Nat.add_right_cancel (key_numbered_inj same)
  have fits := (distinct.subperm used).length_le
  simp only [numbered, List.length_map, List.length_range] at fits
  omega

theorem choose_free (s : Stems) (decl : TypeDecl) :
    s.isFree (s.choose decl) = true ∧
      s.choose decl ∈ decl.name :: mangled decl :: s.numbered decl := by
  unfold choose
  cases found : (decl.name :: mangled decl :: s.numbered decl).find? s.isFree with
  | some stem => exact ⟨List.find?_some found, List.mem_of_find?_eq_some found⟩
  | none =>
    obtain ⟨stem, among, free⟩ := s.exists_free decl
    have taken := List.find?_eq_none.mp found stem
      (List.mem_cons_of_mem _ (List.mem_cons_of_mem _ among))
    exact absurd free taken

theorem isWord_choose (spelled : decl.Spelled) : IsWord (s.choose decl) := by
  have mangled : IsWord (mangled decl) := isWord_joinWith spelled.scope
  rcases List.mem_cons.mp (s.choose_free decl).2 with same | mem
  · rw [same]
    exact spelled.scope _ (by simp [TypeDecl.scope])
  · rcases List.mem_cons.mp mem with same | mem
    · rwa [same]
    · obtain ⟨n, -, same⟩ := List.mem_map.mp mem
      rw [← same]
      exact (mangled.append isWord_underscore).append (isWord_toString _)

theorem isFree_claim {stem other : String} (free : (s.claim stem).isFree other = true) :
    s.isFree other = true ∧ s.key other ≠ s.key stem := by
  have sameKey : (s.claim stem).key other = s.key other := rfl
  simp only [isFree, sameKey] at free ⊢
  simp only [claim, List.contains_cons, Bool.not_or, Bool.and_eq_true] at free
  exact ⟨free.2, by simpa using free.1⟩

def allocateAll : Stems → List TypeDecl → List String
  | _, [] => []
  | s, decl :: decls => (s.allocate decl).1 :: allocateAll (s.allocate decl).2 decls

theorem isFree_of_mem {stem : String} {decls : List TypeDecl} (mem : stem ∈ s.allocateAll decls) :
    s.isFree stem = true := by
  induction decls generalizing s with
  | nil => cases mem
  | cons decl decls ih =>
    rcases List.mem_cons.mp mem with rfl | later
    · exact (s.choose_free decl).1
    · exact (isFree_claim (ih later)).1

theorem nodup_keys (s : Stems) (decls : List TypeDecl) : ((s.allocateAll decls).map s.key).Nodup := by
  induction decls generalizing s with
  | nil => exact List.nodup_nil
  | cons decl decls ih =>
    refine List.nodup_cons.mpr ⟨fun taken => ?_, ih (s.allocate decl).2⟩
    obtain ⟨stem, later, same⟩ := List.mem_map.mp taken
    exact (isFree_claim (isFree_of_mem later)).2 same

end Stems

namespace ArtifactKind
variable {k l : ArtifactKind} {stem other : String}

theorem toList_fileName (k : ArtifactKind) (stem : String) :
    (k.fileName stem).toList =
      "autogen_".toList ++ k.family.toList ++ '_' :: stem.toList ++ '.' :: k.extension.toList := by
  simp [fileName, artifactLead]

theorem length_family (k : ArtifactKind) : k.family.toList.length = 9 := by
  cases k <;> simp [family]

theorem length_extension (k : ArtifactKind) : k.extension.toList.length = 3 := by
  cases k <;> simp [extension, isHeader]

theorem eq_of_parts (sameFamily : k.family = l.family) (sameExtension : k.extension = l.extension) :
    k = l := by
  cases k <;> cases l <;> first | rfl | simp [family, extension, isHeader] at sameFamily sameExtension

theorem fileName_inj (same : k.fileName stem = l.fileName other) : k = l ∧ stem = other := by
  have chars := congrArg String.toList same
  rw [toList_fileName, toList_fileName] at chars
  obtain ⟨front, tail⟩ := List.append_inj' chars (by simp [length_extension])
  obtain ⟨lead, stems⟩ := List.append_inj front (by simp [length_family])
  have family := String.toList_injective (List.append_cancel_left lead)
  have extension := String.toList_injective (List.cons.inj tail).2
  exact ⟨eq_of_parts family extension, String.toList_injective (List.cons.inj stems).2⟩

def fileNames (stems : List String) : List String :=
  stems.flatMap fun stem => all.map (·.fileName stem)

theorem nodup_fileNames {stems : List String} (distinct : stems.Nodup) : (fileNames stems).Nodup := by
  refine List.nodup_flatMap.mpr ⟨fun stem _ => ?_, distinct.imp fun {stem other} differ => ?_⟩
  · exact List.Nodup.map_on (fun _ _ _ _ same => (fileName_inj same).1) (by decide)
  · rintro name first second
    obtain ⟨k, -, rfl⟩ := List.mem_map.mp first
    obtain ⟨l, -, same⟩ := List.mem_map.mp second
    exact differ (fileName_inj same).2.symm

theorem asciiLower_fileName (k : ArtifactKind) (stem : String) :
    Text.asciiLower (k.fileName stem) = k.fileName (Text.asciiLower stem) := by
  apply String.toList_injective
  have family : k.family.toList.map Char.toLower = k.family.toList := by cases k <;> decide
  have extension : k.extension.toList.map Char.toLower = k.extension.toList := by cases k <;> decide
  have lead : "autogen_".toList.map Char.toLower = "autogen_".toList := by decide
  have marks : '_'.toLower = '_' ∧ '.'.toLower = '.' := by decide
  simp only [Text.asciiLower, String.toList_map, toList_fileName, List.map_append, List.map_cons,
    family, extension, lead, marks]

theorem key_fileNames (s : Stems) (stems : List String) :
    (fileNames stems).map s.key = fileNames (stems.map s.key) := by
  have each (k : ArtifactKind) (stem : String) : s.key (k.fileName stem) = k.fileName (s.key stem) := by
    unfold Stems.key
    split
    · exact asciiLower_fileName k stem
    · rfl
  simp only [fileNames, List.map_flatMap, List.flatMap_map, List.map_map, Function.comp_def, each]

theorem startsWith_fileName (k : ArtifactKind) (stem : String) :
    Text.startsWith (k.fileName stem) artifactLead = true := by
  refine Text.startsWith_iff.mpr ⟨'_' :: (k.family.toList ++ '_' :: stem.toList ++
    '.' :: k.extension.toList), ?_⟩
  rw [toList_fileName]
  simp [artifactLead]

theorem ne_of_head {name : String} (head : name.toList[7]? ≠ some '_') : k.fileName stem ≠ name := by
  rintro rfl
  rw [toList_fileName] at head
  simp at head

theorem fileName_ne_umbrella (k : ArtifactKind) (stem : String) (mode : ImplMode) :
    k.fileName stem ≠ umbrellaHeader ∧ k.fileName stem ≠ mode.umbrellaName :=
  ⟨ne_of_head (by decide), ne_of_head (by cases mode <;> decide)⟩

theorem not_mem_fileName (k : ArtifactKind) (word : IsWord stem) {c : Char}
    (other : Lexeme.isWordPart c = false) (noDot : c ≠ '.') : c ∉ (k.fileName stem).toList := by
  intro mem
  have fixed : c ∉ "autogen_".toList ++ k.family.toList ++ ['_'] ++ k.extension.toList := by
    have words : IsWord ("autogen_" ++ k.family ++ "_" ++ k.extension) := by
      cases k <;> simp [IsWord, ArtifactKind.family, extension, isHeader, Lexeme.isWordPart]
    simpa using words.not_mem other
  rw [toList_fileName] at mem
  have stems := word.not_mem other
  simp only [List.mem_append, List.mem_cons, noDot, stems] at mem fixed
  tauto

theorem isName_fileName (k : ArtifactKind) (word : IsWord stem) : IsName (k.fileName stem) where
  ne_empty := ne_of_head (by decide)
  ne_dot := ne_of_head (by decide)
  ne_dots := ne_of_head (by decide)
  noSlash := k.not_mem_fileName word (by decide) (by decide)
  noNull := k.not_mem_fileName word (by decide) (by decide)

end ArtifactKind

/-- A file of `dir` by its own name, which no umbrella file has. -/
structure Artifact.LiesIn (dir : Path) (a : Artifact) : Prop where
  path : a.path = dir.child a.fileName
  isName : IsName a.fileName
  lead : Text.startsWith a.fileName artifactLead = true
  noBackslash : '\\' ∉ a.fileName.toList
  ne_umbrella : ∀ mode : ImplMode, a.fileName ≠ umbrellaHeader ∧ a.fileName ≠ mode.umbrellaName

section Generate
variable {emit : EmitConfig} {p : Path} {decl : TypeDecl} {verdict : Verdict} {c : Classification}
variable {stem : String}

theorem Artifact.path_of_mem {a : Artifact} (mem : a ∈ generate emit p decl verdict c stem) :
    a.path = p.child (a.kind.fileName stem) := by
  obtain ⟨kind, -, rfl⟩ := List.mem_map.mp mem
  rfl

theorem Artifact.fileNames_generate (word : IsWord stem) :
    (generate emit p decl verdict c stem).map Artifact.fileName =
      ArtifactKind.all.map (·.fileName stem) := by
  rw [generate, List.map_map]
  refine List.map_congr_left fun kind _ => ?_
  rw [Function.comp_apply, Artifact.fileName]
  dsimp only
  rw [Path.fileName?_child _ (kind.isName_fileName word), Option.getD_some]

end Generate

namespace Survey
variable {s : Survey} {config : Config} {p : Path}

def targets (s : Survey) (entries : List (String × Verdict)) : List TypeDecl :=
  entries.filterMap fun entry => (s.target? entry).map Prod.fst

variable (spelled : ∀ name decl, s.index.decl? name = some decl → decl.Spelled)
include spelled

theorem stem_of_mem {stems : Stems} {entries : List (String × Verdict)} {a : Artifact}
    (mem : a ∈ s.artifactsFrom config p stems entries) :
    ∃ stem, IsWord stem ∧ stems.isFree stem = true ∧ a.path = p.child (a.kind.fileName stem) := by
  induction entries generalizing stems with
  | nil => cases mem
  | cons entry rest ih =>
    rw [artifactsFrom] at mem
    split at mem
    next => exact ih mem
    next decl c target =>
      rcases List.mem_append.mp mem with own | later
      · exact ⟨(stems.allocate decl).1, Stems.isWord_choose (spelled _ _ (decl?_of_target? target)),
          (stems.choose_free decl).1, Artifact.path_of_mem own⟩
      · obtain ⟨stem, word, free, path⟩ := ih later
        exact ⟨stem, word, (Stems.isFree_claim free).1, path⟩

theorem liesIn_of_mem {stems : Stems} {entries : List (String × Verdict)} {a : Artifact}
    (mem : a ∈ s.artifactsFrom config p stems entries) : a.LiesIn p := by
  obtain ⟨stem, word, -, path⟩ := stem_of_mem spelled mem
  have isName := a.kind.isName_fileName word
  have named : a.fileName = a.kind.fileName stem := by
    simp [Artifact.fileName, path, Path.fileName?_child _ isName]
  constructor
  case path => rw [named, path]
  case isName => rwa [named]
  case lead =>
    rw [named]
    exact a.kind.startsWith_fileName stem
  case noBackslash =>
    rw [named]
    exact a.kind.not_mem_fileName word (by decide) (by decide)
  case ne_umbrella =>
    intro mode
    rw [named]
    exact a.kind.fileName_ne_umbrella stem mode

theorem fileNames_artifactsFrom (stems : Stems) (entries : List (String × Verdict)) :
    (s.artifactsFrom config p stems entries).map Artifact.fileName =
      ArtifactKind.fileNames (stems.allocateAll (s.targets entries)) := by
  induction entries generalizing stems with
  | nil => rfl
  | cons entry rest ih =>
    rw [artifactsFrom, targets, List.filterMap_cons]
    split
    next passed =>
      rw [passed]
      exact ih stems
    next decl c target =>
      have word : IsWord (stems.allocate decl).1 :=
        Stems.isWord_choose (spelled _ _ (decl?_of_target? target))
      rw [target, List.map_append, Artifact.fileNames_generate word, ih]
      rfl

theorem nodup_fileNames (stems : Stems) (entries : List (String × Verdict)) :
    ((s.artifactsFrom config p stems entries).map Artifact.fileName).Nodup := by
  rw [fileNames_artifactsFrom spelled]
  exact ArtifactKind.nodup_fileNames (stems.nodup_keys _).of_map

end Survey

end HeaderMeta
