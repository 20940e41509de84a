import HeaderMeta.Proofs.Output.Edits
import Mathlib.Data.List.Basic

/-! An output directory is made, cleared and given its umbrella files. -/

set_option autoImplicit false

namespace HeaderMeta

open HeaderMeta.Path (IsName EndsIn)

theorem Path.mem_pieces {sep : Char} {cs part : List Char} (mem : part ∈ pieces sep cs) :
    sep ∉ part ∧ ∀ c ∈ part, c ∈ cs := by
  induction cs generalizing part with
  | nil =>
    obtain rfl := List.mem_singleton.mp mem
    exact ⟨List.not_mem_nil, nofun⟩
  | cons c cs ih =>
    rw [pieces] at mem
    have old {part : List Char} (mem : part ∈ pieces sep cs) :
        sep ∉ part ∧ ∀ d ∈ part, d ∈ c :: cs :=
      ⟨(ih mem).1, fun d here => List.mem_cons_of_mem c ((ih mem).2 d here)⟩
    split at mem
    next none => exact absurd none (pieces_ne_nil sep cs)
    next first others split =>
      have firstOld := old (split ▸ List.mem_cons_self : first ∈ pieces sep cs)
      have otherOld (later : part ∈ others) := old (split ▸ List.mem_cons_of_mem first later)
      split at mem
      · rcases List.mem_cons.mp mem with rfl | mem
        · exact ⟨List.not_mem_nil, nofun⟩
        · rcases List.mem_cons.mp mem with rfl | later
          · exact firstOld
          · exact otherOld later
      next other =>
        rcases List.mem_cons.mp mem with rfl | later
        · refine ⟨by simp [firstOld.1, Ne.symm other], fun d here => ?_⟩
          rcases List.mem_cons.mp here with rfl | inside
          · exact List.mem_cons_self
          · exact firstOld.2 d inside
        · exact otherOld later

namespace Volume

theorem Plain.nodup_namesAt {v : Volume} (plain : v.Plain) (d : Location) : (v.namesAt d).Nodup := by
  have distinct := plain.distinct
  unfold namesAt
  generalize v.nodes = ns at distinct
  induction ns with
  | nil => exact List.nodup_nil
  | cons n ns ih =>
    obtain ⟨fresh, distinct⟩ := List.nodup_cons.mp distinct
    rw [List.filterMap_cons]
    split
    · exact ih distinct
    next name own =>
      refine List.nodup_cons.mpr ⟨fun later => fresh ?_, ih distinct⟩
      obtain ⟨m, mem, same⟩ := List.mem_filterMap.mp later
      have location {n : Location × Node} (own : childName? d n.1 = some name) : n.1 = name :: d := by
        obtain ⟨loc, node⟩ := n
        cases loc with
        | nil => cases own
        | cons first rest =>
          simp only [childName?] at own
          split at own
          next here =>
            cases own
            rw [here]
          next => cases own
      exact List.mem_map.mpr ⟨m, mem, (location same).trans (location own).symm⟩

section Making
variable {v w : Volume} {p : Path}

structure Free (v : Volume) (place : Location) (name : String) (d : Location) : Prop where
  place : place = name :: d
  isName : IsName name
  short : name.utf8ByteSize ≤ maxName
  around : v.isDirAt d = true
  none : v.get? (name :: d) = none

theorem walk_vacant (plain : v.Plain) {purpose : Purpose} {links : Nat} {loc place : Location}
    {parts : List String} {slash : Bool}
    (clean : ∀ part ∈ parts, '/' ∉ part.toList ∧ '\x00' ∉ part.toList)
    (free : v.walk purpose links loc parts = .ok (.vacant place slash)) :
    ∃ name d, v.Free place name d := by
  induction parts generalizing loc with
  | nil => simp [walk] at free
  | cons part rest ih =>
    obtain ⟨⟨noSlash, noNull⟩, others⟩ := List.forall_mem_cons.mp clean
    obtain ⟨isDir, walked⟩ := walked_of_walk plain.get?_ne_link free
    cases walked with
    | blank _ walked | up walked | down _ _ walked => exact ih others walked
    | vacant step short none =>
      exact ⟨part, loc, rfl, ⟨step.1, step.2.1, step.2.2, noSlash, noNull⟩, short, isDir, none⟩

theorem spot_vacant (plain : v.Plain) {purpose : Purpose} {place : Location} {slash : Bool}
    (free : v.spot purpose p = .ok (.vacant place slash)) : ∃ name d, v.Free place name d := by
  obtain ⟨⟨noNull, -⟩, -, walked⟩ := walk_of_spot free
  refine walk_vacant plain (fun part mem => ?_) walked
  obtain ⟨piece, among, rfl⟩ := List.mem_map.mp mem
  obtain ⟨noSlash, inside⟩ := Path.mem_pieces among
  rw [String.toList_ofList]
  refine ⟨noSlash, fun here => ?_⟩
  simp [Path.hasNull, inside _ here] at noNull

theorem exists_of_walk (plain : v.Plain) {purpose : Purpose} {links : Nat} {loc place : Location}
    {parts : List String} (start : parts = [] → (v.get? loc).isSome = true)
    (found : v.walk purpose links loc parts = .ok (.node place)) :
    (v.get? place).isSome = true := by
  have there {loc : Location} (isDir : v.isDirAt loc = true) : (v.get? loc).isSome = true := by
    obtain ⟨node, got, -⟩ := Option.any_eq_true _ _ |>.mp isDir
    exact got ▸ rfl
  induction parts generalizing loc with
  | nil =>
    rw [walk] at found
    cases found
    exact start rfl
  | cons part rest ih =>
    obtain ⟨isDir, walked⟩ := walked_of_walk plain.get?_ne_link found
    cases walked with
    | blank _ walked => exact ih (fun _ => there isDir) walked
    | up walked =>
      -- what a directory lies in is one itself
      refine ih (fun _ => there ?_) walked
      cases loc with
      | nil => exact isDir
      | cons name d =>
        obtain ⟨node, got⟩ := Option.isSome_iff_exists.mp (there isDir)
        exact plain.isDirAt_of_get? got
    | down _ named walked => exact ih (fun _ => named) walked

theorem Plain.put_target (plain : v.Plain) {loc : Location} (found : v.target p = .ok loc)
    (bytes : ByteArray) : (v.put loc (.file bytes)).Plain := by
  unfold target at found
  obtain ⟨spot, spotted, found⟩ := ok_of_bind found
  cases spot with
  | node loc =>
    dsimp only at found
    split at found
    · cases found
    next noDir =>
      cases found
      obtain ⟨-, -, walked⟩ := walk_of_spot spotted
      have some : p.parts ≠ [] := fun none =>
        Path.pieces_ne_nil '/' p.text.toList (List.map_eq_nil_iff.mp none)
      obtain ⟨node, got⟩ := Option.isSome_iff_exists.mp
        (exists_of_walk plain (fun none => absurd none some) walked)
      cases loc with
      | nil => exact absurd rfl noDir
      | cons name d =>
        obtain ⟨isName, short, around⟩ := plain.of_get? got
        exact plain.put isName short around nofun fun isDir => absurd isDir noDir
  | vacant place slash =>
    cases found
    obtain ⟨name, d, rfl, isName, short, around, none⟩ := spot_vacant plain spotted
    exact plain.put isName short around nofun fun isDir => by simp [isDirAt, none] at isDir

theorem Plain.writeText (plain : v.Plain) (p : Path) (text : String) :
    (v.writeText p text).1.Plain := by
  rw [Volume.writeText, write]
  split
  · exact plain
  next loc found =>
    split
    · exact plain.put_target found _
    · exact plain.put_target found _

/-- Directories were added and all else is as it was. -/
structure Grows (v w : Volume) : Prop where
  plain : w.Plain
  keeps : ∀ loc node, v.get? loc = some node → w.get? loc = some node
  faults : w.faults = v.faults

theorem Grows.refl (plain : v.Plain) : Grows v v :=
  ⟨plain, fun _ _ => id, rfl⟩

theorem Grows.trans {u : Volume} (first : Grows u v) (second : Grows v w) : Grows u w :=
  ⟨second.plain, fun loc node => second.keeps loc node ∘ first.keeps loc node,
    second.faults.trans first.faults⟩

/-- A directory that is made takes a free place. -/
theorem makeDir_ok (plain : v.Plain) (made : v.makeDir p = .ok w) :
    ∃ name d, v.Free (name :: d) name d ∧ w = v.put (name :: d) .dir := by
  unfold makeDir at made
  obtain ⟨spot, found, rest⟩ := ok_of_bind made
  cases spot with
  | node loc => cases rest
  | vacant place slash =>
    cases rest
    obtain ⟨name, d, free⟩ := spot_vacant plain found
    obtain rfl := free.place
    exact ⟨name, d, free, rfl⟩

theorem grows_makeDir (plain : v.Plain) (made : v.makeDir p = .ok w) : Grows v w := by
  obtain ⟨name, d, ⟨-, isName, short, around, none⟩, rfl⟩ := makeDir_ok plain made
  refine ⟨plain.put isName short around nofun fun _ => rfl, fun loc node got => ?_, rfl⟩
  rw [get?_put, if_neg, got]
  rintro rfl
  rw [none] at got
  cases got

/-- Directories are made one at a time: what holds of each holds of all that are made. -/
theorem makeDirs_induction {R : Volume → Volume → Prop} (refl : ∀ v, R v v)
    (trans : ∀ {u v w}, R u v → R v w → R u w)
    (step : ∀ {v p w}, makeDir v p = .ok w → R v w) (v : Volume) (p : Path) :
    R v (v.makeDirs p).1 := by
  have ensured (v : Volume) (p : Path) : R v (v.ensureDir p).1 := by
    unfold ensureDir
    split
    next made => exact step made
    next => exact refl v
  have within (fuel : Nat) (p : Path) : R v (v.makeDirsWithin fuel p).1 := by
    induction fuel generalizing p with
    | zero => exact ensured v p
    | succ fuel ih =>
      unfold makeDirsWithin
      split
      · exact refl v
      · split
        next parent _ _ =>
          have before := ih parent
          split
          next around made =>
            rw [made] at before
            exact trans before (ensured around p)
          next failed => exact before
        next => exact ensured v p
  exact within _ p

theorem grows_makeDirs (plain : v.Plain) (p : Path) : Grows v (v.makeDirs p).1 :=
  makeDirs_induction (R := fun v w => v.Plain → Grows v w) (fun _ => .refl)
    (fun first second plain => (first plain).trans (second (first plain).plain))
    (fun made plain => grows_makeDir plain made) v p plain

end Making

structure Tends (d : Location) (v w : Volume) : Prop extends Keeps v w where
  plain : w.Plain
  names : ∀ e, e ≠ d → w.namesAt e = v.namesAt e

section Tends
variable {u v w : Volume} {d : Location} {name : String}

theorem Tends.refl (plain : v.Plain) : Tends d v v :=
  ⟨.refl v, plain, fun _ _ => rfl⟩

theorem Tends.trans (first : Tends d u v) (second : Tends d v w) : Tends d u w :=
  ⟨first.toKeeps.trans second.toKeeps, second.plain, fun e other =>
    (second.names e other).trans (first.names e other)⟩

theorem namesAt_put {e : Location} (other : e ≠ d) (node : Node) :
    (v.put (name :: d) node).namesAt e = v.namesAt e := by
  have outside : childName? e (name :: d) = none := by simp [childName?, Ne.symm other]
  unfold namesAt put
  generalize v.nodes = ns
  induction ns with
  | nil => simp [putIn, outside]
  | cons n ns ih =>
    rw [putIn]
    split
    next same => simp [same, outside]
    next => simp only [List.filterMap_cons, ih]

theorem namesAt_erase {e : Location} (other : e ≠ d) :
    (v.erase (name :: d)).namesAt e = v.namesAt e := by
  have outside : childName? e (name :: d) = none := by simp [childName?, Ne.symm other]
  rw [namesAt, namesAt, erase, List.filterMap_filter]
  refine List.filterMap_congr fun n _ => ?_
  by_cases same : n.1 = name :: d <;> simp [same, outside]

theorem Plain.tends_erase (plain : v.Plain) (noDir : v.isDirAt (name :: d) = false) :
    Tends d v (v.erase (name :: d)) :=
  ⟨keeps_erase noDir, plain.erase noDir, fun _ other => namesAt_erase other⟩

theorem Plain.tends_put (plain : v.Plain) (isName : IsName name)
    (short : name.utf8ByteSize ≤ maxName) (around : v.isDirAt d = true)
    (noDir : v.isDirAt (name :: d) = false) (bytes : ByteArray) :
    Tends d v (v.put (name :: d) (.file bytes)) :=
  ⟨keeps_put_file noDir bytes, plain.put isName short around nofun (by simp [noDir]),
    fun _ other => namesAt_put other _⟩

end Tends

section Writing
variable {v w : Volume} {p : Path} {name dir text : String} {d : Location}

/-- Writing a file, in the directory where it is looked for: it fails before anything changes, or it
puts there as much of the text as there is room for. -/
theorem Plain.tends_writeText (plain : v.Plain) (isDir : IsName dir) (ends : p.EndsIn dir)
    (isName : IsName name) {result : Except FileError Unit}
    (wrote : v.writeText (p.child name) text = (w, result)) :
    (w = v ∧ ∃ e, result = .error e) ∨ ∃ d, v.dirOf? p = some d ∧ Tends d v w ∧
      (result = .ok () ↔ v.Accepts p d name text) ∧
      ∀ key, w.get? key =
        if key = name :: d then some (.file (v.taken (name :: d) text.toUTF8)) else v.get? key := by
  rcases writeText_child plain isDir ends isName wrote with failed | ⟨d, found, admits, rfl, whole⟩
  · exact .inl failed
  · exact .inr ⟨d, found, plain.tends_put isName admits.short (isDirAt_dirAt found) admits.noDir _,
      whole, fun key => get?_put v name d key _⟩

theorem Plain.tends_writeText_ok (plain : v.Plain) (isDir : IsName dir) (ends : p.EndsIn dir)
    (isName : IsName name) (wrote : v.writeText (p.child name) text = (w, .ok ())) :
    ∃ d, v.dirOf? p = some d ∧ v.Accepts p d name text ∧ Tends d v w ∧
      ∀ key, w.get? key = if key = name :: d then some (.file text.toUTF8) else v.get? key := by
  rcases plain.tends_writeText isDir ends isName wrote with
    ⟨-, e, failed⟩ | ⟨d, found, tends, whole, got⟩
  · cases failed
  · have accepts := whole.mp rfl
    rw [accepts.taken_eq] at got
    exact ⟨d, found, accepts, tends, got⟩

end Writing

section Listing
variable {v : Volume} {p : Path} {d : Location}

/-- What the listing of the directory at `d` shows of a name in it. -/
def listed (v : Volume) (p : Path) (d : Location) (name : String) : Except FileError Path :=
  match v.faults.broken (name :: d) with
  | some e => .error e
  | none => .ok (p.child name)

theorem listed_ok {name : String} {q : Path} (seen : v.listed p d name = .ok q) :
    v.faults.broken (name :: d) = none ∧ q = p.child name := by
  unfold listed at seen
  split at seen
  · cases seen
  next whole =>
    cases seen
    exact ⟨whole, rfl⟩

structure Listable (v : Volume) (d : Location) : Prop where
  closed : v.faults.closed d = none
  whole : ∀ name ∈ v.namesAt d, v.faults.broken (name :: d) = none

theorem Listable.map_listed (listable : v.Listable d) :
    (v.namesAt d).map (v.listed p d) = (v.namesAt d).map fun name => .ok (p.child name) := by
  refine List.map_congr_left fun name mem => ?_
  rw [listed, listable.whole name mem]

theorem exists_locate_of_isDir (isDir : v.isDir p = true) : ∃ d, v.locate p = .ok d := by
  obtain ⟨node, found, -⟩ := Option.any_eq_true _ _ |>.mp isDir
  obtain ⟨d, located, -⟩ := locate_of_node? found
  exact ⟨d, located⟩

theorem listable_of_faultless (none : v.faults = {}) (d : Location) : v.Listable d :=
  ⟨by rw [none], fun _ _ => by rw [none]⟩

theorem list_ok {entries : List (Except FileError Path)} (done : v.list p = .ok entries) :
    ∃ d, v.locate p = .ok d ∧ v.isDir p = true ∧ v.faults.closed d = none ∧
      entries = (v.namesAt d).map (v.listed p d) := by
  unfold list at done
  obtain ⟨d, located, done⟩ := ok_of_bind done
  split at done
  · cases done
  next here =>
    split at done
    · cases done
    next isOpen =>
      cases done
      exact ⟨d, located, (isDir_of_locate located).trans (by simpa using here), isOpen, rfl⟩

theorem Plain.list_ok (plain : v.Plain) {entries : List (Except FileError Path)}
    (done : v.list p = .ok entries) :
    ∃ d, Fits p ∧ v.dirOf? p = some d ∧ v.faults.closed d = none ∧
      entries = (v.namesAt d).map (v.listed p d) := by
  obtain ⟨d, located, isDir, isOpen, shown⟩ := Volume.list_ok done
  exact ⟨d, ((isDir_iff_dirOf? plain).mp isDir).1, dirOf?_of_locate plain isDir located, isOpen, shown⟩

theorem mem_entries_of_list {entries : List (Except FileError Path)} {q : Path}
    (done : v.list p = .ok entries) (mem : .ok q ∈ entries) : q ∈ v.entries p := by
  obtain ⟨d, located, isDir, -, rfl⟩ := Volume.list_ok done
  obtain ⟨name, inside, seen⟩ := List.mem_map.mp mem
  obtain ⟨-, rfl⟩ := listed_ok seen
  rw [Volume.entries, if_pos isDir, located]
  exact List.mem_map_of_mem inside

theorem list_of_closed {e : FileError} (located : v.locate p = .ok d) (isDir : v.isDirAt d = true)
    (closed : v.faults.closed d = some e) : v.list p = .error e := by
  rw [list, located]
  change (if !v.isDirAt d then _ else _) = _
  rw [isDir, closed]
  rfl

theorem list_of_locate (located : v.locate p = .ok d) (isDir : v.isDirAt d = true)
    (closed : v.faults.closed d = none) : v.list p = .ok ((v.namesAt d).map (v.listed p d)) := by
  rw [list, located]
  change (if !v.isDirAt d then _ else _) = _
  rw [isDir, closed]
  rfl

theorem Listable.list_eq (listable : v.Listable d) (isDir : v.isDir p = true)
    (located : v.locate p = .ok d) : v.list p = .ok ((v.entries p).map .ok) := by
  have here : v.isDirAt d = true := (isDir_of_locate located).symm.trans isDir
  rw [list_of_locate located here listable.closed, listable.map_listed, entries, if_pos isDir, located]
  simp

end Listing

section Fits
variable {v : Volume} {p : Path}

theorem fits_of_isFile (isFile : v.isFile p = true) : Fits p := by
  obtain ⟨node, found, -⟩ := Option.any_eq_true _ _ |>.mp isFile
  obtain ⟨loc, located, -⟩ := locate_of_node? found
  exact (walk_of_spot (spot_of_locate located)).1

end Fits

end Volume

namespace Umbrella

open Volume

theorem isName_umbrellaHeader : IsName umbrellaHeader := by
  constructor <;> decide

theorem isName_umbrellaName (mode : ImplMode) : IsName mode.umbrellaName := by
  cases mode <;> constructor <;> decide

variable {u : Umbrella} {d : Location}
variable (ends : u.outputDir.EndsIn outputDirName)
include ends

theorem fits_outputDir {name : String} (isName : IsName name)
    (fits : Fits (u.outputDir.child name)) : Fits u.outputDir := by
  obtain ⟨noNull, short⟩ := fits
  have text := Path.text_child Path.isName_outputDirName ends isName
  constructor
  · simp_all [Path.hasNull]
  · rw [text, String.utf8ByteSize_append] at short
    simp only [String.utf8ByteSize_append] at short
    omega

/-- A name in the output directory that stands for an earlier file: a path reaches it. -/
structure Earlier (u : Umbrella) (v : Volume) (d : Location) (name : String) : Prop where
  lead : Text.startsWith name artifactLead = true
  fits : Fits (u.outputDir.child name)
  file : ∃ bytes, v.get? (name :: d) = some (.file bytes)

theorem isStale_child {v : Volume} {name : String} (plain : v.Plain) (isName : IsName name)
    (found : v.dirOf? u.outputDir = some d) :
    isStale v (u.outputDir.child name) = true ↔ u.Earlier v d name := by
  have isFile := isFile_child plain Path.isName_outputDirName ends isName found
  rw [isStale, Path.fileName?_child u.outputDir isName, Option.any_some, Bool.and_eq_true]
  constructor
  · rintro ⟨lead, there⟩
    have fits := fits_of_isFile there
    exact ⟨lead, fits, (isFile fits).mp there⟩
  · rintro ⟨lead, fits, there⟩
    exact ⟨lead, (isFile fits).mpr there⟩

omit ends in
theorem Earlier.of_erase {v : Volume} {name other : String}
    (earlier : u.Earlier (v.erase (name :: d)) d other) : u.Earlier v d other := by
  obtain ⟨lead, fits, bytes, there⟩ := earlier
  rw [get?_erase] at there
  split at there
  · cases there
  · exact ⟨lead, fits, bytes, there⟩

omit ends in
theorem Earlier.erase {v : Volume} {name other : String} (earlier : u.Earlier v d other)
    (apart : other ≠ name) : u.Earlier (v.erase (name :: d)) d other := by
  obtain ⟨lead, fits, bytes, there⟩ := earlier
  refine ⟨lead, fits, bytes, ?_⟩
  rw [get?_erase, if_neg (by simpa using apart), there]

structure Cleared (u : Umbrella) (d : Location) (v w : Volume) : Prop extends Tends d v w where
  others : ∀ key, (∀ name, key = name :: d → ¬ u.Earlier v d name) → w.get? key = v.get? key

omit ends in
/-- A file that goes first is no earlier file for the rest. -/
theorem Cleared.cons {v w : Volume} {name : String} (earlier : u.Earlier v d name)
    (first : Tends d v (v.erase (name :: d))) (rest : u.Cleared d (v.erase (name :: d)) w) :
    u.Cleared d v w ∧ w.get? (name :: d) = none := by
  refine ⟨⟨first.trans rest.toTends, fun key free => ?_⟩, ?_⟩
  · rw [rest.others key fun n same here => free n same here.of_erase, get?_erase, if_neg]
    exact fun same => free name same earlier
  · rw [rest.others _ fun n same here => ?_, get?_erase, if_pos rfl]
    cases same
    obtain ⟨bytes, there⟩ := here.file
    simp [get?_erase] at there

/-- Clearing removes earlier files only, and all of them when it goes through. -/
theorem cleared_clear {v w : Volume} (plain : v.Plain) (found : v.dirOf? u.outputDir = some d)
    {seen : Volume} {names : List String} (named : ∀ name ∈ names, IsName name)
    {result : Except OutputError Nat}
    (cleared : u.clear v (names.map (seen.listed u.outputDir d)) = (w, result)) :
    u.Cleared d v w ∧ ∀ removed, result = .ok removed →
      ∀ name ∈ names, u.Earlier v d name → w.get? (name :: d) = none := by
  induction names generalizing v result with
  | nil =>
    cases cleared
    exact ⟨⟨.refl plain, fun _ _ => rfl⟩, fun _ _ name mem => nomatch mem⟩
  | cons name names ih =>
    obtain ⟨isName, named⟩ := List.forall_mem_cons.mp named
    have stopped : u.Cleared d v v := ⟨.refl plain, fun _ _ => rfl⟩
    rw [List.map_cons] at cleared
    cases own : seen.listed u.outputDir d name with
    | error e =>
      rw [own, clear] at cleared
      cases cleared
      exact ⟨stopped, nofun⟩
    | ok p =>
      obtain ⟨-, rfl⟩ := listed_ok own
      have stale := isStale_child ends plain isName found
      rw [own, clear] at cleared
      split at cleared
      next there =>
        have earlier := stale.mp there
        split at cleared
        · cases cleared
          exact ⟨stopped, nofun⟩
        next unlinked =>
          obtain ⟨d', found', noDir, rfl⟩ := unlink_child plain Path.isName_outputDirName ends isName
            unlinked
          obtain rfl : d' = d := Option.some_inj.mp (found'.symm.trans found)
          have first := plain.tends_erase noDir
          dsimp only at cleared
          generalize rest : u.clear (v.erase (name :: d')) _ = after at cleared
          obtain ⟨x, count⟩ := after
          cases cleared
          obtain ⟨second, gone⟩ := ih first.plain ((first.toKeeps.dirOf? _).trans found) named rest
          obtain ⟨whole, absent⟩ := Cleared.cons earlier first second
          refine ⟨whole, fun removed done other mem earlier' => ?_⟩
          obtain ⟨k, counted⟩ : ∃ k, count = .ok k := by
            cases count with
            | error e => cases done
            | ok k => exact ⟨k, rfl⟩
          by_cases same : other = name
          · rw [same, absent]
          · have later := (List.mem_cons.mp mem).resolve_left same
            exact gone k counted other later (earlier'.erase same)
      next fresh =>
        obtain ⟨first, gone⟩ := ih plain found named cleared
        refine ⟨first, fun removed done other mem earlier => ?_⟩
        rcases List.mem_cons.mp mem with rfl | later
        · exact absurd (stale.mpr earlier) fresh
        · exact gone removed done other later earlier

structure Writable (u : Umbrella) (v : Volume) (d : Location) (header impl : String) : Prop where
  header : v.Accepts u.outputDir d umbrellaHeader header
  impl : v.Accepts u.outputDir d u.implMode.umbrellaName impl

omit ends in
theorem Writable.of_keeps {v w : Volume} {header impl : String}
    (writable : u.Writable v d header impl) (keeps : Keeps v w) : u.Writable w d header impl :=
  ⟨keeps.accepts_iff.mpr writable.header, keeps.accepts_iff.mpr writable.impl⟩

theorem putBoth_ok {v w : Volume} {header impl : String} (plain : v.Plain)
    (put : u.putBoth v header impl = (w, none)) :
    ∃ d, v.dirOf? u.outputDir = some d ∧ u.Writable v d header impl ∧ Tends d v w ∧
      ∀ key, w.get? key =
        if key = u.implMode.umbrellaName :: d then some (.file impl.toUTF8)
        else if key = umbrellaHeader :: d then some (.file header.toUTF8)
        else v.get? key := by
  unfold putBoth at put
  split at put
  next first written =>
    unfold Umbrella.put at put written
    split at written
    next wrote =>
      cases written
      obtain ⟨d, found, accepts, tends, got⟩ :=
        plain.tends_writeText_ok Path.isName_outputDirName ends isName_umbrellaHeader wrote
      split at put
      next wrote' =>
        cases put
        obtain ⟨d', found', accepts', tends', got'⟩ :=
          tends.plain.tends_writeText_ok Path.isName_outputDirName ends (isName_umbrellaName _) wrote'
        obtain rfl : d' = d :=
          Option.some_inj.mp (found'.symm.trans ((tends.toKeeps.dirOf? _).trans found))
        exact ⟨d', found, ⟨accepts, tends.toKeeps.accepts_iff.mp accepts'⟩, tends.trans tends',
          fun key => by rw [got', got]⟩
      next => cases put
    next => cases written
  next failed => exact (failed w put).elim

/-- A directory at `d` that could be prepared: it was listed, earlier files were removed and the
placeholders were put. -/
structure Prepared (u : Umbrella) (v w : Volume) (d : Location) : Prop extends Tends d v w where
  found : v.dirOf? u.outputDir = some d
  isOpen : v.faults.closed d = none
  writable : u.Writable v d (u.placeholder umbrellaHeader) (u.placeholder u.implMode.umbrellaName)
  /-- It holds no earlier file that a path reaches. -/
  clean : ∀ name bytes, Text.startsWith name artifactLead = true → Fits (u.outputDir.child name) →
    w.get? (name :: d) = some (.file bytes) → name = umbrellaHeader ∨ name = u.implMode.umbrellaName
  /-- What no path reaches is left as it was. -/
  beyond : ∀ name, ¬ Fits (u.outputDir.child name) → w.get? (name :: d) = v.get? (name :: d)

theorem prepare_ok {v w : Volume} {removed : Nat} {log : Log} (plain : v.Plain)
    (prepared : u.prepare v = (w, .ok removed, log)) :
    ∃ made d, v.makeDirs u.outputDir = (made, .ok ()) ∧ Grows v made ∧ u.Prepared made w d := by
  unfold prepare at prepared
  have grown := grows_makeDirs plain u.outputDir
  split at prepared
  · cases prepared
  next made dirs =>
    rw [dirs] at grown
    split at prepared
    · cases prepared
    next entries listing =>
      obtain ⟨d, -, found, isOpen, rfl⟩ := grown.plain.list_ok listing
      have named (name : String) (mem : name ∈ made.namesAt d) : IsName name := by
        obtain ⟨_, got⟩ := mem_namesAt.mp mem
        exact grown.plain.isName got
      split at prepared
      · cases prepared
      next cleared count clearing =>
        obtain ⟨emptied, gone⟩ := cleared_clear ends grown.plain found named clearing
        dsimp only at prepared
        split at prepared
        · cases prepared
        next final put =>
          cases prepared
          obtain ⟨d', found', writable, tends, got⟩ := putBoth_ok ends emptied.plain put
          obtain rfl : d' = d :=
            Option.some_inj.mp (found'.symm.trans ((emptied.toKeeps.dirOf? _).trans found))
          have writable' : u.Writable made d' _ _ :=
            ⟨emptied.accepts_iff.mp writable.header, emptied.accepts_iff.mp writable.impl⟩
          refine ⟨made, d', dirs, grown, emptied.toTends.trans tends, found, isOpen, writable', ?_, ?_⟩
          · intro name bytes lead fits there
            rw [got] at there
            by_cases impl : name = u.implMode.umbrellaName
            · exact .inr impl
            by_cases header : name = umbrellaHeader
            · exact .inl header
            simp only [List.cons.injEq, impl, header, false_and, if_false] at there
            -- what is still there was an earlier file, and those are gone
            by_cases earlier : u.Earlier made d' name
            · obtain ⟨_, old⟩ := earlier.file
              rw [gone removed rfl name (mem_namesAt.mpr ⟨_, old⟩) earlier] at there
              cases there
            · rw [emptied.others _ fun n same => List.head_eq_of_cons_eq same ▸ earlier] at there
              exact absurd ⟨lead, fits, bytes, there⟩ earlier
          · intro name unfit
            have free (n : String) (same : name :: d' = n :: d') : ¬ u.Earlier made d' n :=
              fun earlier => unfit (List.head_eq_of_cons_eq same ▸ earlier.fits)
            rw [got, if_neg, if_neg, emptied.others _ free]
            · exact fun same => unfit (List.head_eq_of_cons_eq same ▸ writable.header.fits)
            · exact fun same => unfit (List.head_eq_of_cons_eq same ▸ writable.impl.fits)

end Umbrella

end HeaderMeta
