import HeaderMeta.Proofs.Output.Distant

/-! Generated files have names of their own.

A type tries its plain name, its scoped name and then numbered names, all drawn from one pool, until
one is free. Numbers tell candidates apart and only finitely many stems are in use, so the search ends.
What is given out differs in what counts of it, with or without case, and so do the four file names
made from each stem.
-/

set_option autoImplicit false

namespace HeaderMeta

open HeaderMeta.Path (IsName)

namespace Stems
variable (s : Stems) (decl : TypeDecl)

def candidate (decl : TypeDecl) : Nat → String
  | 0 => decl.name
  | 1 => mangled decl
  | n + 2 => mangled decl ++ "_" ++ toString (n + 2)

/-- The search of a type stops at `stem`: it is free, and nothing tried before it is. -/
def StopsAt (stem : String) : Prop :=
  ∃ n, stem = candidate decl n ∧ s.isFree stem = true ∧ ∀ m < n, s.isFree (candidate decl m) = false

/-- The stems that are looked at are the first of those a type would try. -/
theorem candidates_eq :
    decl.name :: mangled decl :: s.numbered decl =
      (List.range (s.used.length + 3)).map (candidate decl) := by
  rw [List.range_succ_eq_map, List.range_succ_eq_map]
  simp [numbered, candidate, Function.comp_def]

theorem stopsAt_choose : s.StopsAt decl (s.choose decl) := by
  have free := (s.choose_free decl).1
  unfold choose at free ⊢
  rw [candidates_eq, List.find?_map] at free ⊢
  cases found : (List.range (s.used.length + 3)).find? (s.isFree ∘ candidate decl) with
  | none =>
    -- more candidates are looked at than stems are in use
    obtain ⟨stem, among, isFree⟩ := s.exists_free decl
    have tried : stem ∈ (List.range (s.used.length + 3)).map (candidate decl) := by
      rw [← candidates_eq]
      exact List.mem_cons_of_mem _ (List.mem_cons_of_mem _ among)
    obtain ⟨n, inside, rfl⟩ := List.mem_map.mp tried
    exact absurd isFree (List.find?_eq_none.mp found n inside)
  | some n =>
    rw [found] at free
    obtain ⟨-, -, before⟩ := List.find?_range_eq_some.mp found
    exact ⟨n, rfl, free, fun m less => by simpa using before m less⟩

theorem length_allocateAll (decls : List TypeDecl) :
    (s.allocateAll decls).length = decls.length := by
  induction decls generalizing s with
  | nil => rfl
  | cons decl decls ih => rw [allocateAll, List.length_cons, ih, List.length_cons]

end Stems

def umbrellaNames : List String :=
  [umbrellaHeader, ImplMode.cpp.umbrellaName, ImplMode.inl.umbrellaName]

/-- File names that differ, also in lower case where case does not count, and none of which is the
name of an umbrella file. -/
structure NamesApart (foldCase : Bool) (names : List String) : Prop where
  distinct : names.Nodup
  folded : foldCase = true → (names.map Text.asciiLower).Nodup
  others : ∀ name ∈ names, name ∉ umbrellaNames ∧ Text.asciiLower name ∉ umbrellaNames

theorem ArtifactKind.fileName_not_mem_umbrellaNames (k : ArtifactKind) (stem : String) :
    k.fileName stem ∉ umbrellaNames := by
  have header := (k.fileName_ne_umbrella stem .cpp).1
  have impl (mode : ImplMode) := (k.fileName_ne_umbrella stem mode).2
  simp [umbrellaNames, header, impl]

theorem ArtifactKind.length_fileNames (stems : List String) :
    (fileNames stems).length = 4 * stems.length := by
  simp [fileNames, all, List.length_flatMap, Nat.mul_comm]

theorem Stems.namesApart (foldCase : Bool) (decls : List TypeDecl) :
    NamesApart foldCase (ArtifactKind.fileNames (allocateAll { foldCase } decls)) := by
  have distinct := nodup_keys { foldCase } decls
  constructor
  case distinct => exact ArtifactKind.nodup_fileNames distinct.of_map
  case folded =>
    rintro rfl
    have keys := ArtifactKind.nodup_fileNames distinct
    rwa [← ArtifactKind.key_fileNames] at keys
  case others =>
    intro name mem
    obtain ⟨stem, -, own⟩ := List.mem_flatMap.mp mem
    obtain ⟨kind, -, rfl⟩ := List.mem_map.mp own
    rw [ArtifactKind.asciiLower_fileName]
    exact ⟨kind.fileName_not_mem_umbrellaNames _, kind.fileName_not_mem_umbrellaNames _⟩

/-- Generated files never collide. Whatever stems are in use, the search for the stem of a type ends,
at the first that is free. Whatever types come one after another, the files made from their stems have
distinct names, distinct without case where case does not count, and none is the name of an umbrella
file. So in a pass over headers no generated file takes the place of another or of an umbrella file:
each lies in the output directory by its own name. -/
theorem Stems.files_never_collide (foldCase : Bool) (decls : List TypeDecl) :
    (∀ (s : Stems) (decl : TypeDecl), s.StopsAt decl (s.allocate decl).1) ∧
    (ArtifactKind.fileNames (allocateAll { foldCase } decls)).length = 4 * decls.length ∧
    NamesApart foldCase (ArtifactKind.fileNames (allocateAll { foldCase } decls)) ∧
    ∀ (v : Volume) (config : Config) (follow : Bool) (m : SourceModule) (scan : Scan) (s : Survey),
      (Survey.ofScan v config m follow scan).1 = .ok s →
        let dir := (Umbrella.ofModule m config).outputDir
        NamesApart config.scan.caseRule.isInsensitive
            ((s.artifacts config dir).map Artifact.fileName) ∧
          ∀ a ∈ s.artifacts config dir, IsName a.fileName ∧ a.path = dir.child a.fileName := by
  refine ⟨stopsAt_choose, ?_, namesApart foldCase decls, fun v config follow m scan s surveyed => ?_⟩
  · rw [ArtifactKind.length_fileNames, length_allocateAll]
  · have spelled := Pass.spelled_ofScan (Prod.ext surveyed rfl)
    refine ⟨?_, fun a mem => ?_⟩
    · rw [Survey.artifacts, Survey.fileNames_artifactsFrom spelled]
      exact namesApart _ _
    · have placed := Survey.liesIn_of_mem spelled mem
      exact ⟨placed.isName, placed.path⟩

def Stems.alike : List TypeDecl :=
  [{ name := "Item", key := .struct, path := ⟨"core/a.hpp"⟩ },
    { name := "item", key := .struct, path := ⟨"core/a.hpp"⟩ },
    { name := "ITEM_2", key := .struct, path := ⟨"core/a.hpp"⟩ },
    { name := "Item", namespaces := ["item"], key := .cls, path := ⟨"core/b.hpp"⟩ },
    { name := "item", enclosing := ["Item"], key := .cls, path := ⟨"core/b.hpp"⟩ }]

theorem Stems.files_never_collide_alike :
    (ArtifactKind.fileNames (allocateAll { foldCase := true } alike)).length = 20 ∧
      ((ArtifactKind.fileNames (allocateAll { foldCase := true } alike)).map
        Text.asciiLower).Nodup ∧
      ∃ s, (Survey.ofScan Pass.littered {} (Pass.distant 1) true {}).1 = .ok s ∧
        NamesApart false
          ((s.artifacts {} (Umbrella.ofModule (Pass.distant 1) {}).outputDir).map
            Artifact.fileName) := by
  obtain ⟨-, length, apart, passes⟩ := files_never_collide true alike
  obtain ⟨s, log, surveyed, -⟩ := Pass.ofScan_of_no_files Pass.littered {} (Pass.distant 1) true
  have read : (Survey.ofScan Pass.littered {} (Pass.distant 1) true {}).1 = .ok s := by rw [surveyed]
  exact ⟨length, apart.folded rfl, s, read, (passes _ _ _ _ _ s read).1⟩

end HeaderMeta
