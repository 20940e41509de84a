import HeaderMeta.Proofs.Output.Distant
import HeaderMeta.Proofs.Scanning.Lookup

/-! The scan of a module finds all its headers, in path order.

A scan passes over the entries that are no directories (`Scan.leaves`) one after another. Two entries of
a directory part at their names, and so do a path below the one and a path below the other
(`Path.Before`). So it is enough to sort each directory for the whole scan to be sorted, and because
sorting forgets how the entries were listed, so does the scan.
-/

set_option autoImplicit false

namespace HeaderMeta

open HeaderMeta.Path (IsName)

namespace Path
variable {p q : Path}

section Order

/-- One path comes before another at the first component where they part. -/
def Before (p q : Path) : Prop :=
  ∃ cs a b as bs, p.components = cs ++ a :: as ∧ q.components = cs ++ b :: bs ∧ a.compare b = .lt

theorem compareComponents_append (cs as bs : List Component) :
    compareComponents (cs ++ as) (cs ++ bs) = compareComponents as bs := by
  induction cs with
  | nil => rfl
  | cons c cs ih =>
    have same : c.compare c = .eq := by
      rw [Component.compare_eq]
      exact Std.ReflCmp.compare_self
    rw [List.cons_append, List.cons_append, compareComponents, same, ih]
    rfl

theorem Before.compare_eq_lt (before : p.Before q) : p.compare q = .lt := by
  obtain ⟨cs, a, b, as, bs, left, right, less⟩ := before
  rw [Path.compare, left, right, compareComponents_append, compareComponents, less]
  rfl

theorem compare_asymm (less : p.compare q = .lt) : q.compare p ≠ .lt := by
  have swap : compareComponents p.components q.components =
      (compareComponents q.components p.components).swap := Std.OrientedCmp.eq_swap
  intro more
  rw [Path.compare] at less more
  rw [less, more] at swap
  cases swap

theorem eq_of_ordered {ps qs : List Path} (left : ps.Pairwise fun p q => p.compare q = .lt)
    (right : qs.Pairwise fun p q => p.compare q = .lt) (same : ∀ p, p ∈ ps ↔ p ∈ qs) : ps = qs := by
  have distinct {ps : List Path} (ordered : ps.Pairwise fun p q => p.compare q = .lt) : ps.Nodup :=
    ordered.imp fun {a b} less same => by
      subst same
      exact compare_asymm less less
  refine List.Perm.eq_of_pairwise (fun a b _ _ before after => ?_) left right
    ((List.perm_ext_iff_of_nodup (distinct left) (distinct right)).mpr same)
  exact absurd after (compare_asymm before)

theorem Before.below (before : p.Before q) {p' q' : Path} (left : p.components <+: p'.components)
    (right : q.components <+: q'.components) : p'.Before q' := by
  obtain ⟨cs, a, b, as, bs, own, other, less⟩ := before
  obtain ⟨more, left⟩ := left
  obtain ⟨more', right⟩ := right
  refine ⟨cs, a, b, as ++ more, bs ++ more', ?_, ?_, less⟩
  · rw [← left, own]
    simp
  · rw [← right, other]
    simp

theorem child_injective {a b : String} (isName : IsName a) (isName' : IsName b)
    (same : p.child a = p.child b) : a = b := by
  have components := congrArg components same
  rw [components_child p isName, components_child p isName'] at components
  simpa using components

theorem before_child {a b : String} (isName : IsName a) (isName' : IsName b)
    (le : (p.child a).le (p.child b) = true) (other : a ≠ b) : (p.child a).Before (p.child b) := by
  refine ⟨p.components, .normal a, .normal b, [], [], components_child p isName,
    components_child p isName', ?_⟩
  rw [le_eq, components_child p isName, components_child p isName', compareComponents_append,
    compareComponents, compareComponents, Ordering.then_eq] at le
  change Ord.compare a b = .lt
  cases order : Ord.compare a b with
  | lt => rfl
  | eq => exact absurd (Std.LawfulEqCmp.eq_of_compare order) other
  | gt =>
    change (Ord.compare a b).isLE = true at le
    rw [order] at le
    cases le

end Order

section Extension

theorem pieces_eq_singleton_nil_iff {sep : Char} {cs : List Char} :
    pieces sep cs = [[]] ↔ cs = [] := by
  cases cs with
  | nil => simp [pieces]
  | cons c cs =>
    cases rest : pieces sep cs with
    | nil => exact absurd rest (pieces_ne_nil _ _)
    | cons part parts => by_cases same : c = sep <;> simp [pieces, rest, same]

theorem splitName_of_dotted {name : String} {before after : List Char}
    (dotted : name.toList = before ++ '.' :: after) (noDot : '.' ∉ after) :
    (splitName name).2 = if before = [] then none else some (String.ofList after) := by
  obtain ⟨stem, stems, reversed⟩ :=
    List.exists_cons_of_ne_nil (mt List.reverse_eq_nil_iff.mp (pieces_ne_nil '.' before))
  have parts : (pieces '.' name.toList).reverse = after :: stem :: stems := by
    rw [dotted, pieces_append, pieces_of_not_mem noDot, List.reverse_append, reversed]
    rfl
  have bare : (stem.isEmpty && stems.isEmpty) = true ↔ before = [] := by
    have single : pieces '.' before = [[]] ↔ stem :: stems = [[]] := by
      rw [← reversed, List.reverse_eq_iff, List.reverse_singleton]
    rw [← pieces_eq_singleton_nil_iff, single]
    simp
  rw [splitName, parts]
  dsimp only
  by_cases empty : before = []
  · rw [if_pos (bare.mpr empty), if_pos empty]
  · rw [if_neg (mt bare.mp empty), if_neg empty]

theorem exists_last_dot {cs : List Char} (dot : '.' ∈ cs) :
    ∃ before after, cs = before ++ '.' :: after ∧ '.' ∉ after := by
  obtain ⟨after, before, dotted, noDot⟩ :=
    List.eq_append_cons_of_mem (List.mem_reverse.mpr dot)
  exact ⟨before.reverse, after.reverse, by simpa using congrArg List.reverse dotted,
    by simpa using noDot⟩

theorem splitName_eq_some_iff {name ext : String} :
    (splitName name).2 = some ext ↔
      ∃ stem : String, stem ≠ "" ∧ '.' ∉ ext.toList ∧ name = stem ++ "." ++ ext := by
  constructor
  · intro found
    by_cases dot : '.' ∈ name.toList
    · obtain ⟨before, after, dotted, noDot⟩ := exists_last_dot dot
      rw [splitName_of_dotted dotted noDot] at found
      split at found
      · cases found
      next filled =>
        cases found
        refine ⟨String.ofList before, ?_, by simpa using noDot, ?_⟩
        · simpa [← String.toList_inj] using filled
        · simp [← String.toList_inj, dotted]
    · rw [splitName, pieces_of_not_mem dot] at found
      cases found
  · rintro ⟨stem, filled, noDot, rfl⟩
    have dotted : (stem ++ "." ++ ext).toList = stem.toList ++ '.' :: ext.toList := by simp
    rw [splitName_of_dotted dotted noDot]
    simp [filled]

end Extension

end Path

namespace Scan
variable {v w : Volume} {m : SourceModule} {extensions : List String} {p q : Path}

/-- The entries a scan comes to that are no directories, in the order in which it does. -/
def leaves (v : Volume) : (depth : Nat) → List Path → List Path
  | _, [] => []
  | depth, p :: rest =>
    (if v.isDir p then
      match depth with
      | 0 => []
      | depth + 1 =>
        if p.fileName? = some outputDirName then [] else leaves v depth (sortedEntries v p)
    else [p]) ++ leaves v depth rest

section Leaves

theorem leaves_cons (v : Volume) (depth : Nat) (p : Path) (rest : List Path) :
    leaves v depth (p :: rest) = leaves v depth [p] ++ leaves v depth rest := by
  cases depth <;> simp [leaves]

theorem leaves_of_not_isDir (noDir : v.isDir p = false) (depth : Nat) :
    leaves v depth [p] = [p] := by
  cases depth <;> simp [leaves, noDir]

theorem leaves_of_isDir (isDir : v.isDir p = true) (entered : p.fileName? ≠ some outputDirName)
    (depth : Nat) : leaves v (depth + 1) [p] = leaves v depth (sortedEntries v p) := by
  simp [leaves, isDir, entered]

theorem mem_leaves_of_mem (depth : Nat) {ps : List Path} (mem : p ∈ ps)
    (inside : q ∈ leaves v depth [p]) : q ∈ leaves v depth ps := by
  induction ps with
  | nil => cases mem
  | cons first rest ih =>
    rw [leaves_cons]
    rcases List.mem_cons.mp mem with rfl | later
    · exact List.mem_append_left _ inside
    · exact List.mem_append_right _ (ih later)

/-- What holds of entries and goes down with them holds of all that a scan comes to. -/
theorem forall_leaves {P Q : Path → Prop} (own : ∀ p, P p → v.isDir p = false → Q p)
    (entries : ∀ p, P p → v.isDir p = true → p.fileName? ≠ some outputDirName →
      ∀ q ∈ sortedEntries v p, P q)
    (depth : Nat) (ps : List Path) (all : ∀ p ∈ ps, P p) : ∀ q ∈ leaves v depth ps, Q q := by
  match ps with
  | [] => simp [leaves]
  | p :: rest =>
    obtain ⟨first, others⟩ := List.forall_mem_cons.mp all
    rw [leaves_cons, List.forall_mem_append]
    refine ⟨?_, forall_leaves own entries depth rest others⟩
    cases isDir : v.isDir p with
    | false => simpa [leaves_of_not_isDir isDir] using own p first isDir
    | true =>
      cases depth with
      | zero => simp [leaves, isDir]
      | succ depth =>
        by_cases entered : p.fileName? = some outputDirName
        · simp [leaves, isDir, entered]
        · rw [leaves_of_isDir isDir entered]
          exact forall_leaves own entries depth _ (entries p first isDir entered)
termination_by (depth, ps.length)

theorem exists_above (named : v.Named) {depth : Nat} {ps : List Path}
    (mem : q ∈ leaves v depth ps) : ∃ p ∈ ps, p.components <+: q.components := by
  refine forall_leaves (P := fun q => ∃ p ∈ ps, p.components <+: q.components) (fun _ below _ => below)
    ?_ depth ps (fun p mem => ⟨p, mem, List.prefix_refl _⟩) q mem
  rintro q ⟨p, mem, above⟩ - - r inside
  obtain ⟨name, isName, rfl⟩ := named.exists_child (mem_entries_of_sortedEntries inside)
  refine ⟨p, mem, above.trans ?_⟩
  rw [Path.components_child q isName]
  exact List.prefix_append _ _

theorem leads_leaves (named : v.Named) {depth : Nat} {ps : List Path}
    (leads : ∀ p ∈ ps, ∃ dirs name, Leads m dirs name p) :
    ∀ q ∈ leaves v depth ps, ∃ dirs name, Leads m dirs name q := by
  refine forall_leaves (fun _ leads _ => leads) ?_ depth ps leads
  rintro p ⟨dirs, name, own⟩ - entered
  exact leads_sortedEntries named own entered

theorem filterMap_listed (v : Volume) (p : Path) (d : Location) (names : List String) :
    (names.map (v.listed p d)).filterMap Except.toOption =
      (names.filter fun name => (v.faults.broken (name :: d)).isNone).map p.child := by
  induction names with
  | nil => rfl
  | cons name names ih =>
    rw [List.map_cons, List.filterMap_cons, ih, List.filter_cons, Volume.listed]
    cases v.faults.broken (name :: d) <;> rfl

/-- The entries of a directory part at their names. -/
theorem before_sortedEntries (plain : v.Plain) (p : Path) :
    (sortedEntries v p).Pairwise Path.Before := by
  cases listing : v.list p with
  | error e => simp [sortedEntries, readSorted, listing, Except.map, Except.toOption]
  | ok entries =>
    obtain ⟨d, -, -, -, shown⟩ := Volume.list_ok listing
    have seen : sortedEntries v p =
        ((((v.namesAt d).filter fun name => (v.faults.broken (name :: d)).isNone).map
          p.child).mergeSort Path.le) := by
      rw [sortedEntries, readSorted_of_list listing, shown, filterMap_listed]
      rfl
    have isName {name : String} (mem : name ∈ v.namesAt d) : IsName name := by
      obtain ⟨node, there⟩ := Volume.mem_namesAt.mp mem
      exact plain.isName there
    have distinct := ((plain.nodup_namesAt d).filter fun name =>
      (v.faults.broken (name :: d)).isNone).map_on fun a mem b mem' =>
        Path.child_injective (p := p) (isName (List.mem_filter.mp mem).1)
          (isName (List.mem_filter.mp mem').1)
    rw [seen]
    have sorted := List.pairwise_mergeSort Path.le_trans Path.le_total
      (((v.namesAt d).filter fun name => (v.faults.broken (name :: d)).isNone).map p.child)
    have apart := sorted.and ((List.mergeSort_perm _ Path.le).nodup_iff.mpr distinct)
    refine apart.imp_of_mem fun {a b} first second ordered => ?_
    obtain ⟨name, inside, rfl⟩ := List.mem_map.mp (List.mem_mergeSort.mp first)
    obtain ⟨name', inside', rfl⟩ := List.mem_map.mp (List.mem_mergeSort.mp second)
    exact Path.before_child (isName (List.mem_filter.mp inside).1)
      (isName (List.mem_filter.mp inside').1) ordered.1 fun same => ordered.2 (same ▸ rfl)

/-- Where the entries part, so does what lies below them. -/
theorem before_leaves (plain : v.Plain) (depth : Nat) (ps : List Path)
    (apart : ps.Pairwise Path.Before) : (leaves v depth ps).Pairwise Path.Before := by
  match ps with
  | [] => simp [leaves]
  | p :: rest =>
    obtain ⟨first, others⟩ := List.pairwise_cons.mp apart
    rw [leaves_cons, List.pairwise_append]
    refine ⟨?_, before_leaves plain depth rest others, fun a inFirst b later => ?_⟩
    -- inside the first entry by the order of its own entries, across entries because those part
    · cases isDir : v.isDir p with
      | false => simp [leaves_of_not_isDir isDir]
      | true =>
        cases depth with
        | zero => simp [leaves, isDir]
        | succ depth =>
          by_cases entered : p.fileName? = some outputDirName
          · simp [leaves, isDir, entered]
          · rw [leaves_of_isDir isDir entered]
            exact before_leaves plain depth _ (before_sortedEntries plain p)
    · obtain ⟨own, mem, above⟩ := exists_above plain.isNamed inFirst
      obtain rfl := List.mem_singleton.mp mem
      obtain ⟨other, mem', above'⟩ := exists_above plain.isNamed later
      exact (first other mem').below above above'
termination_by (depth, ps.length)

end Leaves

section Sorting

/-- A file with an extension that is asked for, where a path can reach it. -/
def isFound (v : Volume) (extensions : List String) (p : Path) : Bool :=
  isHeader extensions p && v.isFile p

def ofLeaves (v : Volume) (m : SourceModule) (extensions : List String) (ps : List Path) : Scan where
  files := ps.filter fun p => isFound v extensions p && !m.exclusions.excludes p
  excluded := ps.filter fun p => isFound v extensions p && m.exclusions.excludes p
  missing := ps.filter fun p => isHeader extensions p && !v.isFile p

theorem ofLeaves_append (ps qs : List Path) :
    ofLeaves v m extensions (ps ++ qs) =
      (ofLeaves v m extensions ps).append (ofLeaves v m extensions qs) := by
  simp [ofLeaves, append]

theorem ofEntry_eq (v : Volume) (m : SourceModule) (extensions : List String) (p : Path) :
    (ofEntry v m extensions p).1 = ofLeaves v m extensions [p] := by
  unfold ofEntry ofLeaves isFound GlobSet.excludes
  by_cases header : isHeader extensions p = true
  · by_cases isFile : v.isFile p = true
    · cases excluded : m.exclusions.matching? p <;> simp [header, isFile, excluded]
    · simp [header, isFile]
  · simp [header]

theorem scanEntries_eq (v : Volume) (m : SourceModule) (extensions : List String) (depth : Nat)
    (ps : List Path) :
    (scanEntries v m extensions depth ps).1 = ofLeaves v m extensions (leaves v depth ps) := by
  match ps with
  | [] => simp [scanEntries, leaves, ofLeaves]
  | p :: rest =>
    unfold scanEntries
    dsimp only
    rw [scanEntries_eq v m extensions depth rest, leaves_cons, ofLeaves_append]
    congr 1
    cases isDir : v.isDir p with
    | false =>
      rw [leaves_of_not_isDir isDir, ← ofEntry_eq]
      rfl
    | true =>
      cases depth with
      | zero => simp [leaves, isDir, ofLeaves]
      | succ depth =>
        by_cases entered : p.fileName? = some outputDirName
        · simp [leaves, isDir, entered, ofLeaves]
        · rw [leaves_of_isDir isDir entered, ← scanEntries_eq v m extensions depth, sortedEntries]
          simp only [entered, if_true, if_false]
          cases readSorted v p with
          | error e => simp [Except.toOption, scanEntries]
          | ok entries => rfl
termination_by (depth, ps.length)

theorem exists_ofModule {src : Location} (located : v.locate m.sourceDir = .ok src)
    (sources : v.isDir m.sourceDir = true) (isOpen : v.faults.closed src = none)
    (extensions : List String) :
    ∃ log, ofModule v m extensions =
      .ok (ofLeaves v m extensions (leaves v v.depthBound (sortedEntries v m.sourceDir)), log) := by
  have here : v.isDirAt src = true := (Volume.isDir_of_locate located).symm.trans sources
  have sorted := readSorted_of_list (Volume.list_of_locate located here isOpen)
  rw [← scanEntries_eq, sortedEntries, sorted]
  exact exists_ofModule_of_sorted sources sorted rfl

theorem leads_files (named : v.Named) {scan : Scan} {log : Log}
    (scanned : ofModule v m extensions = .ok (scan, log)) :
    ∀ f ∈ scan.files, ∃ dirs name, Leads m dirs name f := by
  obtain ⟨src, entries, -, -, -, -, seen, rfl⟩ := exists_of_ofModule scanned
  rw [scanEntries_eq]
  intro f mem
  exact leads_leaves named (seen ▸ leads_sources named m) f (List.mem_of_mem_filter mem)

theorem isHeader_iff {dirs : List String} {name : String} (leads : Leads m dirs name p) :
    isHeader extensions p = true ↔
      ∃ stem ext : String, stem ≠ "" ∧ '.' ∉ ext.toList ∧ name = stem ++ "." ++ ext ∧
        ∃ wanted ∈ extensions, Text.asciiLower wanted = Text.asciiLower ext := by
  have own : p.extension? = (Path.splitName name).2 := by
    have isName := leads.named name (by simp)
    rw [leads.path, List.foldl_append]
    exact congrArg (Option.bind · _) (Path.fileName?_child _ isName)
  rw [isHeader, own, Option.any_eq_true]
  simp only [Path.splitName_eq_some_iff, List.any_eq_true, decide_eq_true_eq]
  constructor
  · rintro ⟨ext, ⟨stem, filled, noDot, spelled⟩, wanted⟩
    exact ⟨stem, ext, filled, noDot, spelled, wanted⟩
  · rintro ⟨stem, ext, filled, noDot, spelled, wanted⟩
    exact ⟨ext, ⟨stem, filled, noDot, spelled⟩, wanted⟩

end Sorting

section Completeness

/-- The names are shown one below the other, down from the directory at a location: none of the
directories on the way is closed, and no listing fails at the next name. -/
def Shows (v : Volume) : (d : Location) → (names : List String) → Prop
  | _, [] => True
  | d, name :: names =>
    v.faults.closed d = none ∧ v.faults.broken (name :: d) = none ∧ Shows v (name :: d) names

theorem shows_concat {d : Location} {names : List String} {name : String} :
    Shows v d (names ++ [name]) ↔ Shows v d names ∧ v.faults.closed (names.reverse ++ d) = none ∧
      v.faults.broken (name :: (names.reverse ++ d)) = none := by
  induction names generalizing d with
  | nil => simp [Shows]
  | cons first names ih => simp [Shows, ih, and_assoc]

/-- An entry below the sources at `src` that listings lead to. -/
def IsListed (v : Volume) (m : SourceModule) (src : Location) (p : Path) : Prop :=
  ∃ dirs name, Leads m dirs name p ∧ Shows v src (dirs ++ [name])

/-- An entry is found under one name, on one way. -/
theorem Leads.unique {dirs dirs' : List String} {name name' : String} (leads : Leads m dirs name p)
    (leads' : Leads m dirs' name' p) : dirs' ++ [name'] = dirs ++ [name] := by
  have placed := Volume.place_descend {} m.sourceDir leads.named
  rw [← leads.path, leads'.path, Volume.place_descend {} m.sourceDir leads'.named] at placed
  exact List.reverse_injective (List.append_cancel_right placed)

variable (plain : v.Plain)
include plain

theorem Leads.place_eq {src : Location} (located : v.locate m.sourceDir = .ok src)
    {dirs : List String} {name : String} (leads : Leads m dirs name p) :
    v.place p = (dirs ++ [name]).reverse ++ src := by
  rw [leads.path, v.place_descend m.sourceDir leads.named,
    Volume.eq_place_of_locate plain.linkFree located]

theorem exists_of_mem_sortedEntries {d : Location} (placed : v.place p = d)
    (mem : q ∈ sortedEntries v p) :
    ∃ name, IsName name ∧ q = p.child name ∧ v.faults.closed d = none ∧
      v.faults.broken (name :: d) = none := by
  obtain ⟨entries, listing, mem⟩ := mem_sortedEntries_iff.mp mem
  obtain ⟨e, located, -, isOpen, rfl⟩ := Volume.list_ok listing
  obtain rfl : e = d := (Volume.eq_place_of_locate plain.linkFree located).trans placed
  obtain ⟨name, inside, seen⟩ := List.mem_map.mp mem
  obtain ⟨whole, rfl⟩ := Volume.listed_ok seen
  obtain ⟨node, there⟩ := Volume.mem_namesAt.mp inside
  exact ⟨name, plain.isName there, rfl, isOpen, whole⟩

theorem child_mem_sortedEntries {d : Location} {name : String} {node : Node}
    (isDir : v.isDir p = true) (found : v.dirOf? p = some d) (isOpen : v.faults.closed d = none)
    (whole : v.faults.broken (name :: d) = none) (there : v.get? (name :: d) = some node) :
    p.child name ∈ sortedEntries v p := by
  obtain ⟨fits, written, -⟩ := (Volume.isDir_iff_dirOf? plain).mp isDir
  have listing := Volume.list_of_locate (Volume.locate_of_fits fits written found)
    (Volume.isDirAt_dirAt found) isOpen
  refine mem_sortedEntries_iff.mpr ⟨_, listing, List.mem_map.mpr ⟨name, ?_, ?_⟩⟩
  · exact Volume.mem_namesAt.mpr ⟨node, there⟩
  · rw [Volume.listed, whole]

theorem isListed_leaves {src : Location} (located : v.locate m.sourceDir = .ok src) (depth : Nat) :
    ∀ q ∈ leaves v depth (sortedEntries v m.sourceDir), IsListed v m src q := by
  refine forall_leaves (fun _ listed _ => listed) ?_ depth _ fun p mem => ?_
  · rintro p ⟨dirs, name, leads, shows⟩ - entered q inside
    have placed := leads.place_eq plain located
    obtain ⟨inner, isName, rfl, isOpen, whole⟩ := exists_of_mem_sortedEntries plain placed inside
    exact ⟨_, inner, leads.child entered isName, shows_concat.mpr ⟨shows, isOpen, whole⟩⟩
  · have placed := (Volume.eq_place_of_locate plain.linkFree located).symm
    obtain ⟨name, isName, rfl, isOpen, whole⟩ := exists_of_mem_sortedEntries plain placed mem
    exact ⟨[], name, ⟨rfl, by simpa using isName, List.not_mem_nil⟩, isOpen, whole, trivial⟩

/-- Around a node there are directories all the way. -/
theorem isDirAt_above {inner : Location} {d : Location} {node : Node} (inside : inner ≠ [])
    (there : v.get? (inner ++ d) = some node) : v.isDirAt d = true := by
  induction inner generalizing node with
  | nil => exact absurd rfl inside
  | cons name inner ih =>
    have around := plain.isDirAt_of_get? there
    cases inner with
    | nil => exact around
    | cons next inner => exact ih (List.cons_ne_nil next inner) (Volume.get?_of_isDirAt around)

/-- A file below a directory is come to when there are levels enough for what lies there. -/
theorem mem_leaves_of_lies {dirs : List String} {name : String} {bytes : ByteArray} {d : Location}
    {depth : Nat} (isDir : v.isDir p = true) (found : v.dirOf? p = some d)
    (named : ∀ n ∈ dirs ++ [name], IsName n) (apart : outputDirName ∉ dirs)
    (shows : Shows v d (dirs ++ [name]))
    (there : v.get? (name :: (dirs.reverse ++ d)) = some (.file bytes))
    (fits : Volume.Fits ((dirs ++ [name]).foldl Path.child p)) (room : (v.below d).length ≤ depth) :
    (dirs ++ [name]).foldl Path.child p ∈ leaves v depth (sortedEntries v p) ∧
      v.isFile ((dirs ++ [name]).foldl Path.child p) = true := by
  obtain ⟨-, written, -⟩ := (Volume.isDir_iff_dirOf? plain).mp isDir
  -- by the directories on the way; each of them leaves fewer nodes below it than there were
  induction dirs generalizing p d depth with
  | nil =>
    have isName := named name (by simp)
    obtain ⟨isOpen, whole, -⟩ := shows
    have entry := child_mem_sortedEntries plain isDir found isOpen whole there
    have located := Volume.locate_child plain isName written fits found there
    rw [List.reverse_nil, List.nil_append] at there
    have noDir : v.isDir (p.child name) = false := by
      rw [Volume.isDir_of_locate located, Volume.isDirAt, there]
      rfl
    refine ⟨mem_leaves_of_mem depth entry ?_, ?_⟩
    · rw [leaves_of_not_isDir noDir]
      exact List.mem_singleton_self _
    · refine (Volume.isFile_of_locate located).trans ?_
      rw [there]
      rfl
  | cons dir dirs ih =>
    have isName := named dir (by simp)
    have here : v.isDirAt (dir :: d) = true :=
      isDirAt_above plain (List.cons_ne_nil name dirs.reverse) (by simpa using there)
    have node := Volume.get?_of_isDirAt here
    have down : v.dirOf? (p.child dir) = some (dir :: d) := by
      rw [Volume.dirOf?_child isName written, found, Option.bind_some,
        if_pos ⟨plain.size_name node, here⟩]
    have fewer := Volume.length_below_lt node
    obtain ⟨depth, rfl⟩ : ∃ k, depth = k + 1 := Nat.exists_eq_add_one_of_ne_zero (by omega)
    have isDir' : v.isDir (p.child dir) = true := by
      refine (Volume.isDir_iff_dirOf? plain).mpr ⟨?_, ?_, _, down⟩
      · refine Volume.Fits.of_foldl_child (p := p.child dir) fits fun n mem => ?_
        exact named n (List.mem_cons_of_mem dir mem)
      · exact Path.text_ne_empty isName (p.endsIn_child isName)
    have entered : (p.child dir).fileName? ≠ some outputDirName := by
      rw [Path.fileName?_child p isName]
      rintro ⟨rfl⟩
      exact apart List.mem_cons_self
    obtain ⟨isOpen, whole, below⟩ := shows
    have entry := child_mem_sortedEntries plain isDir found isOpen whole node
    have room : (v.below (dir :: d)).length ≤ depth := by omega
    obtain ⟨inside, isFile⟩ := ih isDir' down (fun n mem => named n (List.mem_cons_of_mem dir mem))
      (fun mem => apart (List.mem_cons_of_mem dir mem)) below (by simpa using there) fits room
      (Path.text_ne_empty isName (p.endsIn_child isName))
    exact ⟨mem_leaves_of_mem (depth + 1) entry (leaves_of_isDir isDir' entered depth ▸ inside), isFile⟩

end Completeness

section Reordering
variable (plain : v.Plain) (reordered : w.Reordered v)
include plain reordered

theorem readSorted_reordered (p : Path) : readSorted w p = readSorted v p := by
  rcases reordered.list plain p with ⟨e, other, own⟩ | ⟨entries, entries', other, own, perm⟩
  · rw [readSorted, readSorted, other, own]
  · have sorted {u : Volume} {entries : List (Except FileError Path)} (plain : u.Plain)
        (listing : u.list p = .ok entries) :
        ((entries.filterMap Except.toOption).mergeSort Path.le).Pairwise fun p q =>
          p.compare q = .lt := by
      have before := before_sortedEntries plain p
      rw [sortedEntries, readSorted_of_list listing] at before
      exact before.imp Path.Before.compare_eq_lt
    rw [readSorted_of_list other, readSorted_of_list own]
    -- a strict order leaves only one way to sort the same entries
    refine congrArg Except.ok (Path.eq_of_ordered (sorted (reordered.plain plain) other)
      (sorted plain own) fun q => ?_)
    rw [List.mem_mergeSort, List.mem_mergeSort, (perm.filterMap _).mem_iff]

/-- A scan does not depend on the order in which directories are listed. -/
theorem scanEntries_reordered (m : SourceModule) (extensions : List String) (depth : Nat)
    (ps : List Path) :
    scanEntries w m extensions depth ps = scanEntries v m extensions depth ps := by
  match ps with
  | [] => simp [scanEntries]
  | p :: rest =>
    have entry : ofEntry w m extensions p = ofEntry v m extensions p := by
      rw [ofEntry, ofEntry, reordered.isFile plain]
    unfold scanEntries
    rw [scanEntries_reordered m extensions depth rest, reordered.isDir plain, entry]
    cases depth with
    | zero => rfl
    | succ depth =>
      dsimp only
      rw [readSorted_reordered plain reordered]
      cases readSorted v p with
      | error e => rfl
      | ok entries => simp only [scanEntries_reordered m extensions depth entries]
termination_by (depth, ps.length)

theorem ofModule_reordered (m : SourceModule) (extensions : List String) :
    ofModule w m extensions = ofModule v m extensions := by
  rw [ofModule, ofModule, reordered.isDir plain, readSorted_reordered plain reordered,
    reordered.depthBound]
  simp only [scanEntries_reordered plain reordered]

end Reordering

/-- A file below the sources of a module at `src`, reached through no output directory, with an
extension that is asked for, whatever the case of its ASCII letters. -/
def IsHeaderBelow (v : Volume) (m : SourceModule) (extensions : List String) (src : Location)
    (p : Path) : Prop :=
  ∃ dirs name bytes, Leads m dirs name p ∧
    v.get? (name :: (dirs.reverse ++ src)) = some (.file bytes) ∧
    ∃ stem ext : String, stem ≠ "" ∧ '.' ∉ ext.toList ∧ name = stem ++ "." ++ ext ∧
      ∃ wanted ∈ extensions, Text.asciiLower wanted = Text.asciiLower ext

structure Complete (m : SourceModule) (isHeader : Path → Prop) (scan : Scan) : Prop where
  files : scan.files.Pairwise fun p q => p.compare q = .lt
  excluded : scan.excluded.Pairwise fun p q => p.compare q = .lt
  disjoint : scan.files.Disjoint scan.excluded
  listed : ∀ p, p ∈ scan.files ∨ p ∈ scan.excluded ↔ isHeader p
  guarded : ∀ p, isHeader p → (p ∈ scan.excluded ↔
    ∃ glob ∈ m.exclusions.globs, Glob.excludes m.exclusions.foldCase glob p = true)

/-- Which of the entries a scan comes to are found. -/
theorem isFound_leaves_iff (plain : v.Plain) (sources : v.isDir m.sourceDir = true) {src : Location}
    (located : v.locate m.sourceDir = .ok src) :
    p ∈ leaves v v.depthBound (sortedEntries v m.sourceDir) ∧ isFound v extensions p = true ↔
      IsHeaderBelow v m extensions src p ∧ IsListed v m src p ∧
        p.text.utf8ByteSize ≤ Volume.maxPath := by
  rw [isFound, Bool.and_eq_true]
  constructor
  · rintro ⟨mem, header, isFile⟩
    obtain ⟨dirs, name, leads, -⟩ := isListed_leaves plain located _ p mem
    obtain ⟨-, src', dirs, name, bytes, located', leads, reached, there⟩ :=
      found_of_isFile plain located leads header isFile
    obtain rfl : src' = src := Except.ok.inj (located'.symm.trans located)
    obtain ⟨⟨-, short⟩, -⟩ := Volume.walk_of_spot (Volume.spot_of_locate reached)
    exact ⟨⟨dirs, name, bytes, leads, there, (isHeader_iff leads).mp header⟩,
      isListed_leaves plain located _ p mem, short⟩
  · rintro ⟨⟨dirs, name, bytes, leads, there, header⟩, ⟨dirs', name', leads', shows⟩, short⟩
    rw [leads.unique leads'] at shows
    obtain ⟨⟨noNull, -⟩, -⟩ := (Volume.isDir_iff_dirOf? plain).mp sources
    have fits : Volume.Fits p :=
      ⟨leads.path ▸ Volume.not_hasNull_foldl_child noNull leads.named, short⟩
    -- the search goes deeper than the volume has nodes
    have room : (v.below src).length ≤ v.depthBound := by
      have few : (v.below src).length ≤ v.nodes.length := List.length_filter_le _ _
      unfold Volume.depthBound Volume.maxLinks
      omega
    obtain ⟨mem, isFile⟩ := mem_leaves_of_lies plain sources
      (Volume.dirOf?_of_locate plain sources located) leads.named leads.apart shows there
      (leads.path ▸ fits) room
    rw [← leads.path] at mem isFile
    exact ⟨mem, (isHeader_iff leads).mpr header, isFile⟩

/-- The scan of a module is complete, in path order and always the same, whatever the order in which
directories are listed. When the sources cannot be listed, it fails for that. Otherwise it finds the
headers below them that listings lead to and a path can reach; those that some glob matches are left
out and the others are kept, both in path order. -/
theorem ofModule_complete (v : Volume) (m : SourceModule) (extensions : List String)
    (plain : v.Plain) (sources : v.isDir m.sourceDir = true) :
    ∃ src, v.locate m.sourceDir = .ok src ∧
      (∀ e, v.faults.closed src = some e → ∀ w : Volume, w.Reordered v →
        ofModule w m extensions = .error (.readDir m.sourceDir e)) ∧
      (v.faults.closed src = none → ∃ scan log,
        (∀ w : Volume, w.Reordered v → ofModule w m extensions = .ok (scan, log)) ∧
        Complete m (fun p => IsHeaderBelow v m extensions src p ∧ IsListed v m src p ∧
          p.text.utf8ByteSize ≤ Volume.maxPath) scan) := by
  obtain ⟨node, there, -⟩ := Option.any_eq_true _ _ |>.mp sources
  obtain ⟨src, located, -⟩ := Volume.locate_of_node? there
  have here : v.isDirAt src = true := (Volume.isDir_of_locate located).symm.trans sources
  refine ⟨src, located, fun e closed w reordered => ?_, fun isOpen => ?_⟩
  · rw [ofModule_reordered plain reordered, ofModule, sources, readSorted,
      Volume.list_of_closed located here closed]
    rfl
  obtain ⟨log, scanned⟩ := exists_ofModule located sources isOpen extensions
  let all := leaves v v.depthBound (sortedEntries v m.sourceDir)
  have ordered : all.Pairwise fun p q => p.compare q = .lt :=
    (before_leaves plain _ _ (before_sortedEntries plain m.sourceDir)).imp fun before =>
      before.compare_eq_lt
  have found (p : Path) : p ∈ all ∧ isFound v extensions p = true ↔
      IsHeaderBelow v m extensions src p ∧ IsListed v m src p ∧
        p.text.utf8ByteSize ≤ Volume.maxPath :=
    isFound_leaves_iff plain sources located
  -- the order of the files does not depend on the order in which the entries are listed
  refine ⟨ofLeaves v m extensions all, log, fun w reordered => ?_, ?_, ?_, ?_, fun p => ?_,
    fun p isHeader => ?_⟩
  · rw [ofModule_reordered plain reordered, scanned]
  · exact ordered.filter _
  · exact ordered.filter _
  · intro p kept left
    simp only [ofLeaves, List.mem_filter, Bool.and_eq_true] at kept left
    simp [left.2.2] at kept
  · rw [← found]
    cases excluded : m.exclusions.excludes p <;> simp [ofLeaves, excluded]
  · obtain ⟨mem, isFound⟩ := (found p).mpr isHeader
    have matched : m.exclusions.excludes p = true ↔
        ∃ glob ∈ m.exclusions.globs, Glob.excludes m.exclusions.foldCase glob p = true := by
      rw [GlobSet.excludes, GlobSet.matching?, List.find?_isSome]
    simp [ofLeaves, mem, isFound, matched]

section Roundabout

open HeaderMeta.Pass (littered roundabout distant)

def longName : String := "a_header_with_a_long_name.hpp"

/-- Two headers among the sources, and one in a directory whose name the shorter of them starts with. -/
def shelved : Volume :=
  { littered with nodes := ([longName, "core", "src"], .file .empty) ::
      (["a.h", "core", "src"], .file .empty) :: (["a", "core", "src"], .dir) ::
      (["b.h", "a", "core", "src"], .file .empty) :: littered.nodes }

def selective (n : Nat) : SourceModule :=
  { distant n with exclusions := { globs := ["*/a_header*"] } }

theorem isName_header : IsName longName := by constructor <;> decide

theorem plain_shelved : shelved.Plain where
  distinct := by decide
  noLinks := by simp [shelved, littered]
  named := by
    intro n mem
    simp only [shelved, littered, List.mem_cons, List.not_mem_nil, or_false] at mem
    rcases mem with rfl | rfl | rfl | rfl | rfl | rfl | rfl | rfl <;>
      exact ⟨_, _, rfl, by constructor <;> decide, by decide, rfl⟩

variable {n : Nat}

theorem source_shelved (reach : 3 * n + 28 ≤ Volume.maxPath) :
    shelved.isDir (distant n).sourceDir = true ∧
      shelved.locate (distant n).sourceDir = .ok ["core", "src"] := by
  have sources := Volume.locate_of_dirOf? plain_shelved Pass.isName_core (Pass.source_endsIn n)
    (Pass.fits_source reach) (Pass.dirOf?_source n rfl rfl rfl)
  exact ⟨sources.2, sources.1⟩

def shelvedPlaces : List (List String × String) :=
  [(["a"], "b.h"), ([], "a.h"), ([], longName)]

def shelvedPath (n : Nat) (place : List String × String) : Path :=
  (place.1 ++ [place.2]).foldl Path.child (distant n).sourceDir

theorem leads_shelved (n : Nat) {place : List String × String} (among : place ∈ shelvedPlaces) :
    Leads (selective n) place.1 place.2 (shelvedPath n place) := by
  have dir : IsName "a" := by constructor <;> decide
  have inner : IsName "b.h" := by constructor <;> decide
  have outer : IsName "a.h" := by constructor <;> decide
  simp only [shelvedPlaces, List.mem_cons, List.not_mem_nil, or_false] at among
  rcases among with rfl | rfl | rfl
  · exact ⟨rfl, by simp [dir, inner], by decide⟩
  · exact ⟨rfl, by simp [outer], by decide⟩
  · exact ⟨rfl, by simp [isName_header], by decide⟩

theorem shelved_cases {dirs : List String} {name : String} {bytes : ByteArray}
    (there : shelved.get? (name :: (dirs.reverse ++ ["core", "src"])) = some (.file bytes))
    (apart : outputDirName ∉ dirs) : (dirs, name) ∈ shelvedPlaces := by
  have mem := Volume.mem_of_get? there
  have below (above : List String) (same : dirs.reverse ++ ["core", "src"] = above ++ ["core", "src"]) :
      dirs = above.reverse := by
    rw [← List.append_cancel_right same, List.reverse_reverse]
  simp only [shelved, littered, List.mem_cons, Prod.mk.injEq, List.cons.injEq, List.not_mem_nil,
    or_false, reduceCtorEq, and_false, false_or] at mem
  rcases mem with ⟨⟨rfl, same⟩, -⟩ | ⟨⟨rfl, same⟩, -⟩ | ⟨⟨rfl, same⟩, -⟩ | ⟨⟨rfl, same⟩, -⟩
  · simp [shelvedPlaces, below [] same]
  · simp [shelvedPlaces, below [] same]
  · simp [shelvedPlaces, below ["a"] same]
  · exact absurd (below ["autogen"] same ▸ List.mem_singleton_self _) apart

theorem isHeaderBelow_shelved (p : Path) :
    IsHeaderBelow shelved (selective n) ["HPP", "h"] ["core", "src"] p ↔
      p ∈ shelvedPlaces.map (shelvedPath n) := by
  rw [List.mem_map]
  constructor
  · rintro ⟨dirs, name, bytes, leads, there, -⟩
    exact ⟨_, shelved_cases there leads.apart, leads.path.symm⟩
  · rintro ⟨place, among, rfl⟩
    have leads := leads_shelved n among
    simp only [shelvedPlaces, List.mem_cons, List.not_mem_nil, or_false] at among
    rcases among with rfl | rfl | rfl
    · exact ⟨_, _, .empty, leads, rfl, "b", "h", by decide, by decide, by decide, "h", by simp, rfl⟩
    · exact ⟨_, _, .empty, leads, rfl, "a", "h", by decide, by decide, by decide, "h", by simp, rfl⟩
    · exact ⟨_, _, .empty, leads, rfl, "a_header_with_a_long_name", "hpp", by decide, by decide,
        by decide, "HPP", by simp, by simp [Text.asciiLower, ← String.toList_inj]⟩

theorem longName_mem (n : Nat) :
    (distant n).sourceDir.child longName ∈ shelvedPlaces.map (shelvedPath n) :=
  List.mem_map.mpr ⟨([], longName), by simp [shelvedPlaces], rfl⟩

theorem isListed_shelved {p : Path} (mem : p ∈ shelvedPlaces.map (shelvedPath n)) :
    IsListed shelved (selective n) ["core", "src"] p := by
  have allOpen (d : Location) (names : List String) : Shows shelved d names := by
    induction names generalizing d with
    | nil => trivial
    | cons name names ih => exact ⟨rfl, rfl, ih _⟩
  obtain ⟨place, among, rfl⟩ := List.mem_map.mp mem
  exact ⟨_, _, leads_shelved n among, allOpen _ _⟩

theorem size_header (n : Nat) :
    ((distant n).sourceDir.child longName).text.utf8ByteSize = 3 * n + 38 := by
  have tail : ("/" ++ longName).utf8ByteSize = 30 ∧ "/core".utf8ByteSize = 5 := by decide
  rw [Path.text_child Pass.isName_core (Pass.source_endsIn n) isName_header, Pass.text_sourceDir,
    String.append_assoc, String.utf8ByteSize_append, String.utf8ByteSize_append,
    Pass.size_roundabout, tail.1, tail.2]

theorem ofModule_complete_shelved :
    shelved.Plain ∧ shelved.isDir (selective 1).sourceDir = true ∧
      ∃ scan log, ofModule shelved (selective 1) ["HPP", "h"] = .ok (scan, log) ∧
        scan.files = [⟨"../src/core/a/b.h"⟩, ⟨"../src/core/a.h"⟩] ∧
        scan.excluded = [⟨"../src/core/a_header_with_a_long_name.hpp"⟩] := by
  obtain ⟨sources, located⟩ := source_shelved (n := 1) (by decide)
  obtain ⟨src, located', -, complete⟩ :=
    ofModule_complete shelved (selective 1) ["HPP", "h"] plain_shelved sources
  obtain rfl : ["core", "src"] = src := Except.ok.inj (located.symm.trans located')
  obtain ⟨scan, log, same, complete⟩ := complete rfl
  have headers : shelvedPlaces.map (shelvedPath 1) = [⟨"../src/core/a/b.h"⟩, ⟨"../src/core/a.h"⟩,
      ⟨"../src/core/a_header_with_a_long_name.hpp"⟩] := by decide
  have isHeader (p : Path) : (IsHeaderBelow shelved (selective 1) ["HPP", "h"] ["core", "src"] p ∧
      IsListed shelved (selective 1) ["core", "src"] p ∧ p.text.utf8ByteSize ≤ Volume.maxPath) ↔
        p ∈ shelvedPlaces.map (shelvedPath 1) := by
    have short : ∀ p ∈ shelvedPlaces.map (shelvedPath 1), p.text.utf8ByteSize ≤ Volume.maxPath := by
      rw [headers]
      decide
    rw [isHeaderBelow_shelved]
    exact ⟨And.left, fun mem => ⟨mem, isListed_shelved mem, short p mem⟩⟩
  rw [headers] at isHeader
  -- of the three the glob matches the last one
  have guarded (p : Path) (mem : p ∈ [(⟨"../src/core/a/b.h"⟩ : Path), ⟨"../src/core/a.h"⟩,
      ⟨"../src/core/a_header_with_a_long_name.hpp"⟩]) :
      p ∈ scan.excluded ↔ p = ⟨"../src/core/a_header_with_a_long_name.hpp"⟩ := by
    rw [complete.guarded p ((isHeader p).mpr mem)]
    revert p
    decide +kernel
  have excluded (p : Path) : p ∈ scan.excluded ↔
      p ∈ [(⟨"../src/core/a_header_with_a_long_name.hpp"⟩ : Path)] := by
    rw [List.mem_singleton]
    refine ⟨fun left => (guarded p ?_).mp left, ?_⟩
    · exact (isHeader p).mp ((complete.listed p).mp (.inr left))
    · rintro rfl
      exact (guarded _ (by decide)).mpr rfl
  have files (p : Path) : p ∈ scan.files ↔
      p ∈ [(⟨"../src/core/a/b.h"⟩ : Path), ⟨"../src/core/a.h"⟩] := by
    constructor
    · intro kept
      have mem := (isHeader p).mp ((complete.listed p).mp (.inl kept))
      have other := mt (guarded p mem).mpr (complete.disjoint kept)
      simpa [other] using mem
    · intro mem
      refine ((complete.listed p).mpr ((isHeader p).mpr ?_)).resolve_right fun left => ?_
      · exact List.mem_append_left [_] mem
      · rw [List.mem_singleton.mp ((excluded p).mp left)] at mem
        exact absurd mem (by decide)
  exact ⟨plain_shelved, sources, scan, log, same shelved ⟨.refl _, rfl, rfl⟩,
    Path.eq_of_ordered complete.files (by decide) files,
    Path.eq_of_ordered complete.excluded (by decide) excluded⟩

/-- A header that lies there is not found when its path is longer than paths may be. -/
theorem ofModule_misses_distant :
    shelved.Plain ∧ shelved.isDir (selective 1355).sourceDir = true ∧
      shelved.locate (selective 1355).sourceDir = .ok ["core", "src"] ∧
      ∃ scan log, ofModule shelved (selective 1355) ["HPP", "h"] = .ok (scan, log) ∧
        ¬ Complete (selective 1355)
          (IsHeaderBelow shelved (selective 1355) ["HPP", "h"] ["core", "src"]) scan := by
  obtain ⟨sources, located⟩ := source_shelved (n := 1355) (by decide)
  obtain ⟨log, scanned⟩ := exists_ofModule (m := selective 1355) located sources rfl ["HPP", "h"]
  refine ⟨plain_shelved, sources, located, _, log, scanned, fun complete => ?_⟩
  have listed := (complete.listed _).mpr ((isHeaderBelow_shelved _).mpr (longName_mem 1355))
  simp only [ofLeaves, List.mem_filter, Bool.and_eq_true] at listed
  -- were it listed, it would have been found, and what is found has a short path
  have found := listed.elim (fun kept => And.intro kept.1 kept.2.1) fun left => ⟨left.1, left.2.1⟩
  have short := ((isFound_leaves_iff plain_shelved sources located).mp found).2.2
  rw [size_header] at short
  exact absurd short (by decide)

end Roundabout

end Scan

end HeaderMeta
