import HeaderMeta.Proofs.Locations
import HeaderMeta.Scan

/-! What the scan of a module finds.

Entries are named by what lies in a directory, and output directories are not entered. So a file that
is found lies below the sources, and no directory on the way to it is an output directory.
-/

set_option autoImplicit false

namespace HeaderMeta

open HeaderMeta.Path (IsName)

namespace Volume
variable {v : Volume} {p q : Path}

theorem Plain.linkFree (plain : v.Plain) : v.LinkFree :=
  plain.noLinks

def Named (v : Volume) : Prop :=
  ∀ n ∈ v.nodes, ∀ name ∈ n.1.head?, IsName name

theorem Plain.isNamed (plain : v.Plain) : v.Named := by
  intro n mem name first
  obtain ⟨own, dir, same, isName, -⟩ := plain.named n mem
  rw [same] at first
  cases first
  exact isName

theorem Named.exists_child (named : v.Named) (mem : q ∈ v.entries p) :
    ∃ name, IsName name ∧ q = p.child name := by
  unfold entries at mem
  split at mem
  · split at mem
    next loc _ =>
      obtain ⟨name, inside, rfl⟩ := List.mem_map.mp mem
      obtain ⟨node, got⟩ := mem_namesAt.mp inside
      exact ⟨name, named _ (mem_of_get? got) name rfl, rfl⟩
    next => cases mem
  · cases mem

theorem place_descend (v : Volume) (p : Path) {names : List String}
    (named : ∀ name ∈ names, IsName name) :
    v.place (names.foldl Path.child p) = names.reverse ++ v.place p := by
  induction names generalizing p with
  | nil => rfl
  | cons name names ih =>
    rw [List.foldl_cons, ih (p.child name) fun n mem => named n (List.mem_cons_of_mem name mem),
      v.place_child p (named name List.mem_cons_self)]
    simp

end Volume

namespace Scan
variable {v : Volume} {m : SourceModule} {extensions : List String} {p q : Path}

/-- A path to an entry below the sources of a module: the names of the directories on the way, none of
them an output directory, and its own. -/
structure Leads (m : SourceModule) (dirs : List String) (name : String) (p : Path) : Prop where
  path : p = (dirs ++ [name]).foldl Path.child m.sourceDir
  named : ∀ n ∈ dirs ++ [name], IsName n
  apart : outputDirName ∉ dirs

structure Found (v : Volume) (m : SourceModule) (extensions : List String) (p : Path) : Prop where
  isHeader : Scan.isHeader extensions p = true
  lies : ∃ src dirs name bytes, v.locate m.sourceDir = .ok src ∧ Leads m dirs name p ∧
    v.locate p = .ok (name :: (dirs.reverse ++ src)) ∧
    v.get? (name :: (dirs.reverse ++ src)) = some (.file bytes)

structure Sound (v : Volume) (m : SourceModule) (extensions : List String) (scan : Scan) : Prop where
  files : ∀ p ∈ scan.files, Found v m extensions p ∧
    ∀ glob ∈ m.exclusions.globs, Glob.excludes m.exclusions.foldCase glob p = false
  excluded : ∀ p ∈ scan.excluded, Found v m extensions p

theorem Sound.empty : Sound v m extensions {} :=
  ⟨nofun, nofun⟩

theorem Sound.append {a b : Scan} (left : Sound v m extensions a) (right : Sound v m extensions b) :
    Sound v m extensions (a.append b) :=
  ⟨fun p mem => (List.mem_append.mp mem).elim (left.files p) (right.files p),
    fun p mem => (List.mem_append.mp mem).elim (left.excluded p) (right.excluded p)⟩

/-- What a scan sees of a directory: nothing when it cannot be listed. -/
def sortedEntries (v : Volume) (p : Path) : List Path :=
  (readSorted v p).toOption.getD []

theorem readSorted_of_list {entries : List (Except FileError Path)} (listing : v.list p = .ok entries) :
    readSorted v p = .ok ((entries.filterMap Except.toOption).mergeSort Path.le) := by
  rw [readSorted, listing]
  rfl

theorem readSorted_eq {d : Location} (listable : v.Listable d) (isDir : v.isDir p = true)
    (located : v.locate p = .ok d) :
    readSorted v p = .ok ((v.entries p).mergeSort Path.le) := by
  have shown : ((v.entries p).map (Except.ok (ε := FileError))).filterMap Except.toOption =
      v.entries p := by
    rw [List.filterMap_map]
    exact List.filterMap_some
  rw [readSorted_of_list (listable.list_eq isDir located), shown]

theorem mem_sortedEntries_iff :
    q ∈ sortedEntries v p ↔ ∃ entries, v.list p = .ok entries ∧ .ok q ∈ entries := by
  cases listing : v.list p with
  | error e => simp [sortedEntries, readSorted, listing, Except.map, Except.toOption]
  | ok entries =>
    have shown (x : Except FileError Path) : x.toOption = some q ↔ x = .ok q := by
      cases x <;> simp [Except.toOption]
    rw [sortedEntries, readSorted_of_list listing]
    change q ∈ (entries.filterMap Except.toOption).mergeSort Path.le ↔ _
    simp [List.mem_mergeSort, shown]

theorem mem_entries_of_sortedEntries (mem : q ∈ sortedEntries v p) : q ∈ v.entries p := by
  obtain ⟨entries, listing, mem⟩ := mem_sortedEntries_iff.mp mem
  exact Volume.mem_entries_of_list listing mem

/-- A name in a directory that is entered. -/
theorem Leads.child {dirs : List String} {name inner : String} (leads : Leads m dirs name p)
    (entered : p.fileName? ≠ some outputDirName) (isName : IsName inner) :
    Leads m (dirs ++ [name]) inner (p.child inner) := by
  -- the directory is now on the way, and it is no output directory because it was entered
  have other : outputDirName ≠ name := by
    rintro rfl
    rw [leads.path, List.foldl_append] at entered
    exact entered (Path.fileName?_child _ (leads.named _ (by simp)))
  refine ⟨?_, ?_, by simp [leads.apart, other]⟩
  · rw [List.foldl_append, ← leads.path]
    rfl
  · simpa [or_imp, forall_and, isName] using leads.named

theorem leads_sortedEntries (named : v.Named) {dirs : List String} {name : String} (leads : Leads m dirs name p)
    (entered : p.fileName? ≠ some outputDirName) :
    ∀ q ∈ sortedEntries v p, ∃ dirs name, Leads m dirs name q := by
  intro q mem
  obtain ⟨inner, isName, rfl⟩ := named.exists_child (mem_entries_of_sortedEntries mem)
  exact ⟨_, _, leads.child entered isName⟩

theorem leads_sources (named : v.Named) (m : SourceModule) :
    ∀ p ∈ sortedEntries v m.sourceDir, ∃ dirs name, Leads m dirs name p := by
  intro p mem
  obtain ⟨name, isName, rfl⟩ := named.exists_child (mem_entries_of_sortedEntries mem)
  exact ⟨[], name, rfl, by simpa using isName, List.not_mem_nil⟩

section Entries
variable (plain : v.Plain) {src : Location} (located : v.locate m.sourceDir = .ok src)
include plain located

theorem found_of_isFile {dirs : List String} {name : String} (leads : Leads m dirs name p)
    (header : isHeader extensions p = true) (isFile : v.isFile p = true) :
    Found v m extensions p := by
  obtain ⟨node, there, kind⟩ := Option.any_eq_true _ _ |>.mp isFile
  obtain ⟨loc, reached, got⟩ := Volume.locate_of_node? there
  -- there are no links, so the names on the way are where the file lies
  have placed : loc = name :: (dirs.reverse ++ src) := by
    rw [Volume.eq_place_of_locate plain.linkFree reached, leads.path,
      v.place_descend m.sourceDir leads.named, Volume.eq_place_of_locate plain.linkFree located]
    simp
  subst placed
  refine ⟨header, src, dirs, name, ?_⟩
  cases node with
  | file bytes => exact ⟨bytes, located, leads, reached, got⟩
  | dir | link target => cases kind

theorem sound_ofEntry {dirs : List String} {name : String} (leads : Leads m dirs name p) :
    Sound v m extensions (ofEntry v m extensions p).1 := by
  unfold ofEntry
  split
  · exact .empty
  next header =>
    split
    · exact ⟨nofun, nofun⟩
    next isFile =>
      have found := found_of_isFile plain located leads (by simpa using header) (by simpa using isFile)
      split
      · exact ⟨nofun, fun q mem => List.mem_singleton.mp mem ▸ found⟩
      next unmatched =>
        refine ⟨fun q mem => ?_, nofun⟩
        obtain rfl := List.mem_singleton.mp mem
        exact ⟨found, fun glob among => by simpa using List.find?_eq_none.mp unmatched glob among⟩

theorem sound_scanEntries (depth : Nat) (entries : List Path)
    (leads : ∀ p ∈ entries, ∃ dirs name, Leads m dirs name p) :
    Sound v m extensions (scanEntries v m extensions depth entries).1 := by
  match entries with
  | [] =>
    rw [scanEntries]
    exact .empty
  | p :: rest =>
    obtain ⟨dirs, name, own⟩ := leads p List.mem_cons_self
    unfold scanEntries
    have others := sound_scanEntries depth rest fun q mem => leads q (List.mem_cons_of_mem p mem)
    refine Sound.append ?_ others
    split
    · cases depth with
      | zero => exact .empty
      | succ depth =>
        dsimp only
        split
        · exact .empty
        next entered =>
          have inner := leads_sortedEntries plain.isNamed own entered
          unfold sortedEntries at inner
          split
          next entries listed =>
            rw [listed] at inner
            exact sound_scanEntries depth entries inner
          next => exact .empty
    · exact sound_ofEntry plain located own
termination_by (depth, entries.length)

end Entries

theorem exists_of_ofModule {scan : Scan} {log : Log}
    (scanned : ofModule v m extensions = .ok (scan, log)) :
    ∃ src entries, v.locate m.sourceDir = .ok src ∧ v.isDir m.sourceDir = true ∧
      v.faults.closed src = none ∧ readSorted v m.sourceDir = .ok entries ∧
      sortedEntries v m.sourceDir = entries ∧
      scan = (scanEntries v m extensions v.depthBound entries).1 := by
  unfold ofModule at scanned
  split at scanned
  · cases scanned
  next isDir =>
    split at scanned
    · cases scanned
    next entries sorted =>
      cases scanned
      cases listing : v.list m.sourceDir with
      | error e =>
        rw [readSorted, listing] at sorted
        cases sorted
      | ok all =>
        obtain ⟨src, located, isDir, isOpen, -⟩ := Volume.list_ok listing
        exact ⟨src, entries, located, isDir, isOpen, sorted, by rw [sortedEntries, sorted]; rfl, rfl⟩

theorem locate_of_ofModule {scan : Scan} {log : Log}
    (scanned : ofModule v m extensions = .ok (scan, log)) :
    ∃ src, v.locate m.sourceDir = .ok src :=
  let ⟨src, _, located, _⟩ := exists_of_ofModule scanned
  ⟨src, located⟩

/-- A scan finds headers of the module and nothing else. -/
theorem sound_ofModule (plain : v.Plain) {scan : Scan} {log : Log}
    (scanned : ofModule v m extensions = .ok (scan, log)) : Sound v m extensions scan := by
  obtain ⟨src, entries, located, -, -, -, seen, rfl⟩ := exists_of_ofModule scanned
  exact sound_scanEntries plain located _ _ (seen ▸ leads_sources plain.isNamed m)

end Scan

end HeaderMeta
