import HeaderMeta.Proofs.Output.Clearing
import Mathlib.Data.List.Basic

/-! The hand-written files of a module are the same before and after its files are generated.

They lie in a directory of their own below the output directory, so what is written into the output
directory itself does not touch them, nor whether they can be listed. How deep the search goes does not
matter either, because every directory on the way down is a node of the volume.
-/

set_option autoImplicit false

namespace HeaderMeta

open HeaderMeta.Path (IsName EndsIn)

namespace Path

theorem isName_overrideDirName : IsName overrideDirName := by
  constructor <;> decide

theorem ofComponents_concat (cs : List Component) (name last : String) :
    (ofComponents (cs ++ [Component.normal name] ++ [Component.normal last])).text =
      (ofComponents (cs ++ [Component.normal name])).text ++ "/" ++ last := by
  have joined (ds : List Component) :
      Text.joinWith "/" ((ds ++ [Component.normal name] ++ [Component.normal last]).map Component.name) =
        Text.joinWith "/" ((ds ++ [Component.normal name]).map Component.name) ++ "/" ++ last := by
    rw [List.map_append, List.map_singleton, Text.joinWith_concat, if_neg (by simp)]
    rfl
  cases cs with
  | nil => exact joined []
  | cons c cs =>
    cases c with
    | root =>
      have tail := joined cs
      simp only [List.cons_append, ofComponents, String.append_assoc] at tail ⊢
      rw [tail]
    | current | parent | normal => exact joined (_ :: cs)

/-- The hand-written files are looked for in the output directory. -/
theorem normalize_overrideDir (m : SourceModule) :
    m.overrideDir.normalize = m.outputDir.normalize.child overrideDirName := by
  have out := endsIn_child m.sourceDir isName_outputDirName
  obtain ⟨before, split⟩ := components_of_endsIn isName_outputDirName out
  have components := components_child (m.sourceDir.child outputDirName) isName_overrideDirName
  have text := text_child isName_outputDirName (outputDir_endsIn m) isName_overrideDirName
  suffices m.overrideDir.normalize.text = (m.outputDir.normalize.child overrideDirName).text by
    cases left : m.overrideDir.normalize
    cases right : m.outputDir.normalize.child overrideDirName
    simp_all
  rw [text, normalize, normalize, SourceModule.overrideDir, SourceModule.outputDir, components, split,
    reduce_concat, reduce_concat, ofComponents_concat]

section Order

def Component.label : Component → String
  | .normal name => name
  | _ => ""

theorem Component.compare_eq :
    Component.compare =
      compareLex (compareOn Component.rank) (compareOn Component.label) := by
  funext a b
  cases a <;> cases b <;> rfl

theorem compareComponents_eq : compareComponents = List.compareLex Component.compare := by
  funext as bs
  fun_induction compareComponents as bs with
  | case1 | case2 | case3 => rfl
  | case4 a as b bs ih => rw [List.compareLex_cons_cons, ih]

instance : Std.TransCmp compareComponents := by
  rw [compareComponents_eq, Component.compare_eq]
  infer_instance

theorem le_eq (p q : Path) : p.le q = (compareComponents p.components q.components).isLE := by
  rw [le, compare]
  cases compareComponents p.components q.components <;> rfl

theorem le_trans (p q r : Path) (first : p.le q = true) (second : q.le r = true) :
    p.le r = true := by
  rw [le_eq] at first second ⊢
  exact Std.TransCmp.isLE_trans first second

theorem le_total (p q : Path) : (p.le q || q.le p) = true := by
  have swap : compareComponents p.components q.components =
      (compareComponents q.components p.components).swap := Std.OrientedCmp.eq_swap
  rw [le_eq, le_eq, swap]
  cases compareComponents q.components p.components <;> rfl

end Order

end Path

namespace Volume
variable {v w : Volume} {p : Path} {name dir : String} {d e : Location}

theorem isDir_iff (plain : v.Plain) (isDir : IsName dir) (ends : p.EndsIn dir) :
    v.isDir p = true ↔ Fits p ∧ ∃ d, v.dirOf? p = some d := by
  rw [isDir_iff_dirOf? plain, and_iff_right (Path.text_ne_empty isDir ends)]

theorem entries_of_dirOf? (plain : v.Plain) (isDir : IsName dir) (ends : p.EndsIn dir)
    (fits : Fits p) (found : v.dirOf? p = some d) : v.entries p = (v.namesAt d).map p.child := by
  obtain ⟨located, there⟩ := locate_of_dirOf? plain isDir ends fits found
  rw [entries, there, located]
  rfl

theorem exists_child_of_mem_entries (plain : v.Plain) {q : Path} (mem : q ∈ v.entries p) :
    ∃ e name node, v.dirOf? p = some e ∧ v.get? (name :: e) = some node ∧ IsName name ∧
      q = p.child name := by
  cases there : v.isDir p with
  | false => simp [Volume.entries, there] at mem
  | true =>
    obtain ⟨e, found, entries⟩ := exists_entries plain there
    rw [entries] at mem
    obtain ⟨name, inside, rfl⟩ := List.mem_map.mp mem
    obtain ⟨node, got⟩ := mem_namesAt.mp inside
    exact ⟨e, name, node, found, got, plain.isName got, rfl⟩

def below (v : Volume) (e : Location) : List (Location × Node) :=
  v.nodes.filter fun n => decide (e <:+ n.1 ∧ n.1 ≠ e)

theorem length_below_lt {node : Node} (there : v.get? (name :: e) = some node) :
    (v.below (name :: e)).length < (v.below e).length := by
  have inner : v.below (name :: e) =
      (v.below e).filter fun n => decide (name :: e <:+ n.1 ∧ n.1 ≠ name :: e) := by
    rw [below, below, List.filter_filter]
    refine List.filter_congr fun n _ => ?_
    have deeper (suffix : name :: e <:+ n.1) : e <:+ n.1 ∧ n.1 ≠ e := by
      refine ⟨(List.suffix_cons name e).trans suffix, fun same => ?_⟩
      have longer := suffix.length_le
      rw [same, List.length_cons] at longer
      omega
    by_cases suffix : name :: e <:+ n.1
    · simp [suffix, deeper suffix]
    · simp [suffix]
  rw [inner, List.length_filter_lt_length_iff_exists]
  refine ⟨(name :: e, node), List.mem_filter.mpr ⟨mem_of_get? there, ?_⟩, by simp⟩
  simp

/-- A directory has enough levels for what lies below it. -/
def Roomy (v : Volume) (depth : Nat) (p : Path) : Prop :=
  (∃ name, IsName name ∧ p.EndsIn name) ∧ ∀ e, v.dirOf? p = some e → (v.below e).length < depth

theorem Roomy.entries (plain : v.Plain) {depth : Nat} (roomy : v.Roomy (depth + 1) p) :
    ∀ q ∈ v.entries p, v.Roomy depth q := by
  obtain ⟨⟨last, isLast, ends⟩, room⟩ := roomy
  intro q mem
  obtain ⟨e, name, node, found, there, isName, rfl⟩ :=
    exists_child_of_mem_entries plain mem
  refine ⟨⟨name, isName, Path.child_endsIn isLast ends isName⟩, fun f reached => ?_⟩
  rw [dirOf?_child isName (Path.text_ne_empty isLast ends), found, Option.bind_some] at reached
  split at reached
  · cases reached
    have enough := room e found
    have fewer := length_below_lt there
    omega
  · cases reached

theorem roomy_of_endsIn (isDir : IsName dir) (ends : p.EndsIn dir) {depth : Nat}
    (deep : v.nodes.length < depth) : v.Roomy depth p :=
  ⟨⟨dir, isDir, ends⟩, fun _ _ => Nat.lt_of_le_of_lt (List.length_filter_le _ _) deep⟩

end Volume

namespace Umbrella

open Volume
variable {v w : Volume} {d : Location}

def overrides (u : Umbrella) (v : Volume) : List Path :=
  (u.collected v).toOption.getD []

theorem overrides_of_ok {u : Umbrella} {files : List Path} (all : u.collected v = .ok files) :
    u.overrides v = files := by
  rw [overrides, all]
  rfl

/-- The files of one entry, which are those below it when it is a directory. -/
def collectAt (v : Volume) (depth : Nat) (p : Path) : Except OutputError (List Path) :=
  if v.isDir p then
    match depth with
    | 0 => .ok []
    | depth + 1 =>
      match v.list p with
      | .error e => .error (.override p e)
      | .ok entries => collect v depth p entries
  else .ok [p]

theorem collect_cons (v : Volume) (depth : Nat) (dir p : Path) (rest : List (Except FileError Path)) :
    collect v depth dir (.ok p :: rest) = (do
      let files ← collectAt v depth p
      let more ← collect v depth dir rest
      .ok (files ++ more)) := by
  cases isDir : v.isDir p with
  | false => cases depth <;> simp only [collect, collectAt, isDir, Bool.false_eq_true, if_false]
  | true =>
    cases depth with
    | zero => simp only [collect, collectAt, isDir, if_true]
    | succ depth =>
      simp only [collect, collectAt, isDir, if_true]
      cases v.list p <;> rfl

theorem collectAt_of_not_isDir {p : Path} (noDir : v.isDir p = false) (depth : Nat) :
    collectAt v depth p = .ok [p] := by
  cases depth <;> simp [collectAt, noDir]

theorem collectAt_of_list {p : Path} {entries : List (Except FileError Path)}
    (isDir : v.isDir p = true) (listing : v.list p = .ok entries) (depth : Nat) :
    collectAt v (depth + 1) p = collect v depth p entries := by
  rw [collectAt, if_pos isDir, listing]

theorem collect_congr {m n : Nat} {dir : Path} {entries : List (Except FileError Path)}
    (same : ∀ p, .ok p ∈ entries → collectAt w m p = collectAt v n p) :
    collect w m dir entries = collect v n dir entries := by
  induction entries with
  | nil => rw [collect, collect]
  | cons entry rest ih =>
    cases entry with
    | error e => rw [collect, collect]
    | ok p =>
      rw [collect_cons, collect_cons, same p List.mem_cons_self,
        ih fun q later => same q (List.mem_cons_of_mem _ later)]

/-- With enough levels the number of levels does not matter. -/
theorem collect_eq_of_roomy (plain : v.Plain) {m n : Nat} {dir : Path}
    {entries : List (Except FileError Path)} (few : ∀ p, .ok p ∈ entries → v.Roomy m p)
    (many : ∀ p, .ok p ∈ entries → v.Roomy n p) :
    collect v m dir entries = collect v n dir entries := by
  induction m generalizing n dir entries with
  | zero =>
    refine collect_congr fun p mem => ?_
    obtain ⟨⟨last, isLast, ends⟩, room⟩ := few p mem
    cases isDir : v.isDir p with
    | false => rw [collectAt_of_not_isDir isDir, collectAt_of_not_isDir isDir]
    | true =>
      obtain ⟨-, e, found⟩ := (isDir_iff plain isLast ends).mp isDir
      exact absurd (room e found) (Nat.not_lt_zero _)
  | succ m ih =>
    refine collect_congr fun p mem => ?_
    obtain ⟨⟨last, isLast, ends⟩, room⟩ := many p mem
    cases isDir : v.isDir p with
    | false => rw [collectAt_of_not_isDir isDir, collectAt_of_not_isDir isDir]
    | true =>
      obtain ⟨-, e, found⟩ := (isDir_iff plain isLast ends).mp isDir
      obtain ⟨n, rfl⟩ : ∃ k, n = k + 1 := Nat.exists_eq_add_one_of_ne_zero (by have := room e found; omega)
      cases listing : v.list p with
      | error failure => simp only [collectAt, isDir, listing, if_true]
      | ok inner =>
        rw [collectAt_of_list isDir listing, collectAt_of_list isDir listing]
        exact ih (fun q inside => (few p mem).entries plain q (mem_entries_of_list listing inside))
          fun q inside => (many p mem).entries plain q (mem_entries_of_list listing inside)

/-- A path that leads to no directory but those below `d`. -/
def Deeper (v : Volume) (d : Location) (p : Path) : Prop :=
  (∃ name, IsName name ∧ p.EndsIn name) ∧ ∀ e, v.dirOf? p = some e → d.length < e.length

theorem deeper_child {p : Path} {dir name : String} (isDir : IsName dir) (ends : p.EndsIn dir)
    (isName : IsName name) (around : ∀ e, v.dirOf? p = some e → d.length ≤ e.length) :
    Deeper v d (p.child name) := by
  refine ⟨⟨name, isName, Path.child_endsIn isDir ends isName⟩, fun f reached => ?_⟩
  rw [dirOf?_child isName (Path.text_ne_empty isDir ends)] at reached
  obtain ⟨e, found, step⟩ := Option.bind_eq_some_iff.mp reached
  split at step
  · cases step
    exact Nat.lt_succ_of_le (around e found)
  · cases step

theorem Deeper.entries (plain : v.Plain) {p : Path} (deeper : Deeper v d p) :
    ∀ q ∈ v.entries p, Deeper v d q := by
  obtain ⟨⟨last, isLast, ends⟩, below⟩ := deeper
  intro q mem
  obtain ⟨e, name, node, found, there, isName, rfl⟩ :=
    exists_child_of_mem_entries plain mem
  exact deeper_child isLast ends isName fun f reached => Nat.le_of_lt (below f reached)

section Frame
variable (plain : v.Plain) (tends : Tends d v w)
include plain tends

theorem isDir_of_tends {p : Path} {dir : String} (isDir : IsName dir) (ends : p.EndsIn dir) :
    w.isDir p = v.isDir p := by
  rw [Bool.eq_iff_iff, isDir_iff plain isDir ends, isDir_iff tends.plain isDir ends,
    tends.toKeeps.dirOf?]

theorem list_of_tends {p : Path} (deeper : Deeper v d p) (isDir : v.isDir p = true) :
    w.list p = v.list p := by
  obtain ⟨⟨last, isLast, ends⟩, below⟩ := deeper
  obtain ⟨fits, e, found⟩ := (isDir_iff plain isLast ends).mp isDir
  have written := Path.text_ne_empty isLast ends
  have other : e ≠ d := fun same => Nat.lt_irrefl _ (same ▸ below e found)
  have located := locate_of_fits fits written found
  have located' := locate_of_fits fits written ((tends.toKeeps.dirOf? p).trans found)
  have same (name : String) : w.listed p e name = v.listed p e name := by
    rw [Volume.listed, Volume.listed, tends.faults]
  cases closed : v.faults.closed e with
  | some failure =>
    rw [list_of_closed located (isDirAt_dirAt found) closed, list_of_closed located'
      ((tends.isDirAt e).trans (isDirAt_dirAt found)) (tends.faults ▸ closed)]
  | none =>
    rw [list_of_locate located (isDirAt_dirAt found) closed, list_of_locate located'
      ((tends.isDirAt e).trans (isDirAt_dirAt found)) (tends.faults ▸ closed), tends.names e other]
    exact congrArg Except.ok (List.map_congr_left fun name _ => same name)

theorem collect_of_tends (depth : Nat) {dir : Path} {entries : List (Except FileError Path)}
    (deeper : ∀ p, .ok p ∈ entries → Deeper v d p) :
    collect w depth dir entries = collect v depth dir entries := by
  induction depth generalizing dir entries with
  | zero =>
    refine collect_congr fun p mem => ?_
    obtain ⟨last, isLast, ends⟩ := (deeper p mem).1
    rw [collectAt, collectAt, isDir_of_tends plain tends isLast ends]
  | succ depth ih =>
    refine collect_congr fun p mem => ?_
    obtain ⟨last, isLast, ends⟩ := (deeper p mem).1
    have same := isDir_of_tends plain tends isLast ends
    cases isDir : v.isDir p with
    | false => rw [collectAt_of_not_isDir isDir, collectAt_of_not_isDir (same.trans isDir)]
    | true =>
      rw [collectAt, collectAt, same, list_of_tends plain tends (deeper p mem) isDir]
      simp only [isDir, if_true]
      cases listing : v.list p with
      | error failure => rfl
      | ok inner =>
        exact ih fun q inside => (deeper p mem).entries plain q (mem_entries_of_list listing inside)

/-- What comes and goes in the output directory does not change what is hand-written. -/
theorem collected_of_tends {u : Umbrella} (ends : u.outputDir.EndsIn outputDirName)
    (inside : u.overrideDir = u.outputDir.child overrideDirName)
    (found : v.dirOf? u.outputDir = some d) : u.collected w = u.collected v := by
  have deeper : Deeper v d u.overrideDir := by
    rw [inside]
    refine deeper_child Path.isName_outputDirName ends Path.isName_overrideDirName fun e same => ?_
    rw [found] at same
    cases same
    exact Nat.le_refl _
  obtain ⟨last, isLast, ends'⟩ := deeper.1
  have same := isDir_of_tends plain tends isLast ends'
  cases isDir : v.isDir u.overrideDir with
  | false => simp [collected, same, isDir]
  | true =>
    rw [collected, collected, same, isDir, list_of_tends plain tends deeper isDir]
    cases listing : v.list u.overrideDir with
    | error failure => rfl
    | ok entries =>
      -- both volumes are searched to one depth that is enough for either
      let levels := max w.depthBound v.depthBound
      have listing' := (list_of_tends plain tends deeper isDir).trans listing
      have roomy (x : Volume) (plain : x.Plain) (listing : x.list u.overrideDir = .ok entries)
          {depth : Nat} (deep : x.depthBound ≤ depth) (p : Path) (mem : .ok p ∈ entries) :
          x.Roomy depth p := by
        have enough : x.nodes.length < depth + 1 := by
          unfold depthBound maxLinks at deep
          omega
        exact (roomy_of_endsIn isLast ends' enough).entries plain p (mem_entries_of_list listing mem)
      have files : collect w w.depthBound u.overrideDir entries =
          collect v v.depthBound u.overrideDir entries :=
        calc collect w w.depthBound u.overrideDir entries
            = collect w levels u.overrideDir entries :=
              collect_eq_of_roomy tends.plain (roomy w tends.plain listing' (Nat.le_refl _))
                (roomy w tends.plain listing' (Nat.le_max_left _ _))
          _ = collect v levels u.overrideDir entries :=
              collect_of_tends plain tends levels fun p mem =>
                deeper.entries plain p (mem_entries_of_list listing mem)
          _ = collect v v.depthBound u.overrideDir entries :=
              collect_eq_of_roomy plain (roomy v plain listing (Nat.le_max_right _ _))
                (roomy v plain listing (Nat.le_refl _))
      simp only [files]

end Frame

theorem collected_of_absent (plain : v.Plain) {u : Umbrella}
    (absent : v.dirOf? u.overrideDir = none) : u.collected v = .ok [] := by
  have noDir : v.isDir u.overrideDir = false := by
    rw [Bool.eq_false_iff, ne_eq, isDir_iff_dirOf? plain, absent]
    simp
  rw [collected, noDir]
  rfl

theorem exists_collect (listable : ∀ d, v.Listable d) (depth : Nat) (dir : Path) (ps : List Path) :
    ∃ files, collect v depth dir (ps.map .ok) = .ok files := by
  have level {depth : Nat} (below : ∀ p, ∃ found, collectAt v depth p = .ok found) (dir : Path)
      (ps : List Path) : ∃ files, collect v depth dir (ps.map .ok) = .ok files := by
    induction ps with
    | nil => exact ⟨[], by rw [List.map_nil, collect]⟩
    | cons p ps ih =>
      obtain ⟨found, own⟩ := below p
      obtain ⟨more, later⟩ := ih
      exact ⟨found ++ more, by rw [List.map_cons, collect_cons, own, later]; rfl⟩
  induction depth generalizing dir ps with
  | zero =>
    refine level (fun p => ?_) dir ps
    rw [collectAt]
    split <;> exact ⟨_, rfl⟩
  | succ depth ih =>
    refine level (fun p => ?_) dir ps
    cases isDir : v.isDir p with
    | false => exact ⟨_, collectAt_of_not_isDir isDir _⟩
    | true =>
      obtain ⟨d, located⟩ := exists_locate_of_isDir isDir
      rw [collectAt_of_list isDir ((listable d).list_eq isDir located)]
      exact ih p _

theorem exists_collected (listable : ∀ d, v.Listable d) (u : Umbrella) :
    ∃ files, u.collected v = .ok files := by
  cases isDir : v.isDir u.overrideDir with
  | false => exact ⟨[], by rw [collected, isDir]; rfl⟩
  | true =>
    obtain ⟨d, located⟩ := exists_locate_of_isDir isDir
    obtain ⟨found, all⟩ := exists_collect listable v.depthBound u.overrideDir (v.entries u.overrideDir)
    rw [collected, isDir, (listable d).list_eq isDir located]
    exact ⟨found.mergeSort Path.le, congrArg (Except.map _) all⟩

theorem exists_of_collected {u : Umbrella} {files : List Path} (all : u.collected v = .ok files) :
    files = [] ∨ ∃ entries found, v.list u.overrideDir = .ok entries ∧
      collect v v.depthBound u.overrideDir entries = .ok found ∧ files = found.mergeSort Path.le := by
  unfold collected at all
  split at all
  · cases all
    exact .inl rfl
  · split at all
    · cases all
    next entries listing =>
      cases below : collect v v.depthBound u.overrideDir entries with
      | error e =>
        rw [below] at all
        cases all
      | ok found =>
        rw [below] at all
        cases all
        exact .inr ⟨entries, found, listing, below, rfl⟩

theorem pairwise_overrides (u : Umbrella) (v : Volume) :
    (u.overrides v).Pairwise fun p q => p.le q = true := by
  cases all : u.collected v with
  | error e =>
    rw [overrides, all]
    exact .nil
  | ok files =>
    rw [overrides_of_ok all]
    rcases exists_of_collected all with rfl | ⟨_, found, -, -, rfl⟩
    · exact .nil
    · exact List.pairwise_mergeSort Path.le_trans Path.le_total _

section Includes
variable {u : Umbrella}

theorem forall_collect {P : Path → Prop} (entries : ∀ p, P p → ∀ q ∈ v.entries p, P q)
    {depth : Nat} {dir : Path} {top : List (Except FileError Path)} {files : List Path}
    (all : ∀ p, .ok p ∈ top → P p) (done : collect v depth dir top = .ok files) :
    ∀ p ∈ files, P p := by
  -- level by level, and entry by entry in each
  have level {depth : Nat} (below : ∀ p found, P p → collectAt v depth p = .ok found → ∀ q ∈ found, P q)
      {dir : Path} {top : List (Except FileError Path)} {files : List Path}
      (all : ∀ p, .ok p ∈ top → P p) (done : collect v depth dir top = .ok files) :
      ∀ p ∈ files, P p := by
    induction top generalizing files with
    | nil =>
      rw [collect] at done
      cases done
      exact List.forall_mem_nil _
    | cons entry rest ih =>
      cases entry with
      | error e =>
        rw [collect] at done
        cases done
      | ok q =>
        rw [collect_cons] at done
        obtain ⟨first, own, done⟩ := ok_of_bind done
        obtain ⟨more, later, done⟩ := ok_of_bind done
        cases done
        intro p mem
        rcases List.mem_append.mp mem with mem | mem
        · exact below q first (all q List.mem_cons_self) own p mem
        · exact ih (fun p mem => all p (List.mem_cons_of_mem _ mem)) later p mem
  induction depth generalizing dir top files with
  | zero =>
    refine level (fun p found own here => ?_) all done
    rw [collectAt] at here
    split at here <;> cases here
    · exact List.forall_mem_nil _
    · simpa using own
  | succ depth ih =>
    refine level (fun p found own here => ?_) all done
    rw [collectAt] at here
    split at here
    · split at here
      · cases here
      next inner listing =>
        exact ih (fun q inside => entries p own q (mem_entries_of_list listing inside)) here
    · cases here
      simpa using own

/-- A path of the output directory with a name in it, and `more` names behind that. -/
structure Through (u : Umbrella) (more : List Path.Component) (p : Path) : Prop where
  named : ∃ name, IsName name ∧ p.EndsIn name
  isAbsolute : p.isAbsolute = u.outputDir.isAbsolute
  components : ∃ first, p.components = u.outputDir.components ++ .normal first :: more

theorem through_child {more : List Path.Component} {p : Path} {name : String}
    (through : u.Through more p) (isName : IsName name) :
    u.Through (more ++ [.normal name]) (p.child name) := by
  obtain ⟨⟨last, isLast, ends⟩, isAbsolute, first, components⟩ := through
  refine ⟨⟨name, isName, Path.child_endsIn isLast ends isName⟩,
    (Path.isAbsolute_child p isName).trans isAbsolute, first, ?_⟩
  rw [Path.components_child p isName, components, List.append_assoc, List.cons_append]

theorem slash_mem_relativeInclude {more : List Path.Component} {p : Path}
    (through : u.Through more p) (long : more ≠ []) :
    '/' ∈ (relativeInclude p u.outputDir).toList := by
  obtain ⟨-, isAbsolute, first, components⟩ := through
  obtain ⟨second, rest, rfl⟩ := List.exists_cons_of_ne_nil long
  have seen : p.relativeTo u.outputDir =
      Path.ofComponents (.normal first :: second :: rest) := by
    rw [Path.relativeTo, isAbsolute, components, Path.difference_append]
    simp
  rw [relativeInclude, seen, Path.slashed, Text.replaceChar, String.toList_map]
  refine List.mem_map.mpr ⟨'/', ?_, rfl⟩
  simp [Path.ofComponents, Text.joinWith]

/-- A hand-written file is included from below the output directory. -/
theorem slash_mem_override (plain : v.Plain) (ends : u.outputDir.EndsIn outputDirName)
    (inside : u.overrideDir = u.outputDir.child overrideDirName) :
    ∀ p ∈ u.overrides v, '/' ∈ (relativeInclude p u.outputDir).toList := by
  have around : u.Through [] u.overrideDir := by
    rw [inside]
    exact ⟨⟨_, Path.isName_overrideDirName,
        Path.child_endsIn Path.isName_outputDirName ends Path.isName_overrideDirName⟩,
      Path.isAbsolute_child _ Path.isName_overrideDirName, _,
      Path.components_child _ Path.isName_overrideDirName⟩
  have entries (more : List Path.Component) (p : Path) (through : u.Through more p) (q : Path)
      (mem : q ∈ v.entries p) : ∃ more, more ≠ [] ∧ u.Through more q := by
    obtain ⟨last, isLast, ends⟩ := through.named
    obtain ⟨e, name, node, -, -, isName, rfl⟩ := exists_child_of_mem_entries plain mem
    exact ⟨_, by simp, through_child through isName⟩
  have deeper (p : Path) (found : ∃ more, more ≠ [] ∧ u.Through more p) (q : Path)
      (mem : q ∈ v.entries p) : ∃ more, more ≠ [] ∧ u.Through more q := by
    obtain ⟨more, -, through⟩ := found
    exact entries more p through q mem
  intro p mem
  cases all : u.collected v with
  | error e => simp [overrides, all, Except.toOption] at mem
  | ok files =>
    rw [overrides_of_ok all] at mem
    rcases exists_of_collected all with rfl | ⟨top, found, listing, below, rfl⟩
    · cases mem
    · obtain ⟨more, long, through⟩ := forall_collect deeper
        (fun p mem => entries [] _ around p (mem_entries_of_list listing mem)) below p
        ((List.mergeSort_perm _ _).mem_iff.mp mem)
      exact slash_mem_relativeInclude through long

end Includes

end Umbrella

end HeaderMeta
