import HeaderMeta.Proofs.Output.Places

/-! Writing and removing files in a directory of a volume without links. -/

set_option autoImplicit false

namespace HeaderMeta.Volume

open HeaderMeta.Path (IsName EndsIn)

/-- The same directories, seen from the same place and with the same faults. -/
structure Keeps (v w : Volume) : Prop where
  here : w.here = v.here
  isDirAt : ∀ loc, w.isDirAt loc = v.isDirAt loc
  faults : w.faults = v.faults

section Keeps
variable {u v w : Volume}

theorem Keeps.refl (v : Volume) : Keeps v v :=
  ⟨rfl, fun _ => rfl, rfl⟩

theorem Keeps.trans (first : Keeps u v) (second : Keeps v w) : Keeps u w :=
  ⟨second.here.trans first.here, fun loc => (second.isDirAt loc).trans (first.isDirAt loc),
    second.faults.trans first.faults⟩

theorem Keeps.symm (keeps : Keeps v w) : Keeps w v :=
  ⟨keeps.here.symm, fun loc => (keeps.isDirAt loc).symm, keeps.faults.symm⟩

theorem Keeps.dirOf? (keeps : Keeps v w) (p : Path) : w.dirOf? p = v.dirOf? p := by
  rw [Volume.dirOf?, Volume.dirOf?, startOf, startOf, keeps.here]
  exact dirAt_congr keeps.isDirAt _ _

end Keeps

section Nodes
variable {v : Volume} {name : String} {d : Location}

theorem locations_putIn (loc : Location) (node : Node) (ns : List (Location × Node)) :
    (putIn loc node ns).map (·.1) =
      if loc ∈ ns.map (·.1) then ns.map (·.1) else ns.map (·.1) ++ [loc] := by
  induction ns with
  | nil => rfl
  | cons n ns ih =>
    by_cases same : n.1 = loc
    · simp [putIn, same]
    · simp only [putIn, same, if_false, List.map_cons, ih, List.mem_cons, Ne.symm same, false_or]
      split <;> simp

theorem mem_putIn {loc : Location} {node : Node} {ns : List (Location × Node)}
    {n : Location × Node} (mem : n ∈ putIn loc node ns) : n = (loc, node) ∨ n ∈ ns := by
  induction ns with
  | nil => exact .inl (List.mem_singleton.mp mem)
  | cons m ns ih =>
    rw [putIn] at mem
    split at mem
    · rcases List.mem_cons.mp mem with same | later
      · exact .inl same
      · exact .inr (List.mem_cons_of_mem m later)
    · rcases List.mem_cons.mp mem with same | later
      · exact .inr (same ▸ List.mem_cons_self)
      · exact (ih later).imp_right (List.mem_cons_of_mem m)

theorem Plain.put (plain : v.Plain) (isName : IsName name) (short : name.utf8ByteSize ≤ maxName)
    (around : v.isDirAt d = true) {node : Node} (noLink : ∀ target, node ≠ .link target)
    (stays : v.isDirAt (name :: d) = true → node = .dir) : (v.put (name :: d) node).Plain := by
  have dirs (loc : Location) (isDir : v.isDirAt loc = true) :
      (v.put (name :: d) node).isDirAt loc = true := by
    unfold isDirAt
    rw [get?_put]
    split
    next same => rw [stays (same ▸ isDir)]; rfl
    next => exact isDir
  constructor
  case distinct =>
    rw [Volume.put, locations_putIn]
    split
    · exact plain.distinct
    next fresh =>
      refine List.nodup_append.mpr ⟨plain.distinct, by simp, ?_⟩
      rintro a mem b here rfl
      exact fresh (List.mem_singleton.mp here ▸ mem)
  case noLinks =>
    intro n mem target
    rcases mem_putIn mem with rfl | old
    · exact noLink target
    · exact plain.noLinks n old target
  case named =>
    intro n mem
    rcases mem_putIn mem with rfl | old
    · exact ⟨name, d, rfl, isName, short, dirs d around⟩
    · obtain ⟨name', dir, same, isName', short', isDir⟩ := plain.named n old
      exact ⟨name', dir, same, isName', short', dirs dir isDir⟩

theorem keeps_put_file (noDir : v.isDirAt (name :: d) = false) (bytes : ByteArray) :
    Keeps v (v.put (name :: d) (.file bytes)) := by
  refine ⟨rfl, fun loc => ?_, rfl⟩
  unfold isDirAt at noDir ⊢
  rw [get?_put]
  split
  next same => rw [same, noDir]; rfl
  next => rfl

theorem keeps_erase (noDir : v.isDirAt (name :: d) = false) : Keeps v (v.erase (name :: d)) := by
  refine ⟨rfl, fun loc => ?_, rfl⟩
  unfold isDirAt at noDir ⊢
  rw [get?_erase]
  split
  next same => rw [same, noDir]; rfl
  next => rfl

theorem Plain.erase (plain : v.Plain) (noDir : v.isDirAt (name :: d) = false) :
    (v.erase (name :: d)).Plain := by
  have keeps := keeps_erase noDir
  constructor
  case distinct => exact plain.distinct.sublist (List.filter_sublist.map _)
  case noLinks =>
    intro n mem target
    exact plain.noLinks n (List.mem_filter.mp mem).1 target
  case named =>
    intro n mem
    obtain ⟨name', dir, same, isName, short, isDir⟩ := plain.named n (List.mem_filter.mp mem).1
    exact ⟨name', dir, same, isName, short, (keeps.isDirAt dir).trans isDir⟩

theorem mem_namesAt : name ∈ v.namesAt d ↔ ∃ node, v.get? (name :: d) = some node := by
  have lookup {node : Node} (mem : (name :: d, node) ∈ v.nodes) :
      ∃ node, v.get? (name :: d) = some node := by
    cases found : v.nodes.find? (·.1 = name :: d) with
    | none => exact absurd (decide_eq_true rfl) (List.find?_eq_none.mp found _ mem)
    | some n => exact ⟨n.2, by simp [get?, found]⟩
  constructor
  · intro mem
    obtain ⟨⟨loc, node⟩, here, child⟩ := List.mem_filterMap.mp mem
    cases loc with
    | nil => cases child
    | cons first rest =>
      simp only [childName?] at child
      split at child
      next same =>
        cases child
        exact lookup (same ▸ here)
      next => cases child
  · rintro ⟨node, found⟩
    exact List.mem_filterMap.mpr ⟨_, mem_of_get? found, by simp [childName?]⟩

end Nodes

/-- A file can be put under a name in the directory at `d`, which `p` leads to. -/
structure Admits (v : Volume) (p : Path) (d : Location) (name : String) : Prop where
  fits : Fits (p.child name)
  short : name.utf8ByteSize ≤ maxName
  noDir : v.isDirAt (name :: d) = false

/-- A text is admitted and there is room for all of it. -/
structure Accepts (v : Volume) (p : Path) (d : Location) (name text : String) : Prop
    extends Admits v p d name where
  room : v.faults.room (name :: d) text.toUTF8 = none

/-- How much of a content a file takes. -/
def taken (v : Volume) (loc : Location) (bytes : ByteArray) : ByteArray :=
  match v.faults.room loc bytes with
  | none => bytes
  | some n => bytes.extract 0 n

theorem Keeps.admits_iff {v w : Volume} (keeps : Keeps v w) {p : Path} {d : Location}
    {name : String} : w.Admits p d name ↔ v.Admits p d name := by
  have same := keeps.isDirAt (name :: d)
  exact ⟨fun ⟨fits, short, noDir⟩ => ⟨fits, short, same.symm.trans noDir⟩,
    fun ⟨fits, short, noDir⟩ => ⟨fits, short, same.trans noDir⟩⟩

theorem Keeps.accepts_iff {v w : Volume} (keeps : Keeps v w) {p : Path} {d : Location}
    {name text : String} : w.Accepts p d name text ↔ v.Accepts p d name text :=
  ⟨fun ⟨admits, room⟩ => ⟨keeps.admits_iff.mp admits, keeps.faults ▸ room⟩,
    fun ⟨admits, room⟩ => ⟨keeps.admits_iff.mpr admits, keeps.faults ▸ room⟩⟩

theorem Accepts.taken_eq {v : Volume} {p : Path} {d : Location} {name text : String}
    (accepts : v.Accepts p d name text) : v.taken (name :: d) text.toUTF8 = text.toUTF8 := by
  rw [taken, accepts.room]

theorem ok_of_bind {ε α β : Type} {x : Except ε α} {f : α → Except ε β} {b : β}
    (done : (x >>= f) = .ok b) : ∃ a, x = .ok a ∧ f a = .ok b := by
  cases x with
  | error e => cases done
  | ok a => exact ⟨a, rfl, done⟩

section Files
variable {v w : Volume} {p : Path} {name dir : String} {d : Location}
variable (plain : v.Plain) (isDir : IsName dir) (ends : p.EndsIn dir) (isName : IsName name)
include plain isDir ends isName

theorem spot_child_ok {purpose : Purpose} {spot : Spot}
    (found : v.spot purpose (p.child name) = .ok spot) :
    ∃ d, v.dirOf? p = some d ∧ Fits (p.child name) ∧ name.utf8ByteSize ≤ maxName ∧
      (v.get? (name :: d) = none ∧ spot = .vacant (name :: d) false ∨
        (∃ node, v.get? (name :: d) = some node) ∧ spot = .node (name :: d)) := by
  have written := Path.text_ne_empty isDir ends
  -- a spot is found only where the path fits and its directory is there
  have lost (why : ¬ Fits (p.child name) ∨ v.dirOf? p = none) : False := by
    obtain ⟨e, failed⟩ := spot_child_error isName plain written purpose why
    rw [found] at failed
    cases failed
  by_cases fits : Fits (p.child name)
  · cases around : v.dirOf? p with
    | none => exact (lost (.inr around)).elim
    | some d =>
      rw [spot_child isName plain written purpose fits around] at found
      refine ⟨d, rfl, fits, ?_⟩
      split at found
      · cases found
      next short =>
        refine ⟨Nat.not_lt.mp short, ?_⟩
        cases got : v.get? (name :: d) with
        | none =>
          simp only [got, Option.isNone_none, if_true] at found
          cases found
          exact .inl ⟨rfl, rfl⟩
        | some node =>
          simp only [got, Option.isNone_some] at found
          cases found
          exact .inr ⟨⟨node, rfl⟩, rfl⟩
  · exact (lost (.inl fits)).elim

theorem target_child {loc : Location} (found : v.target (p.child name) = .ok loc) :
    ∃ d, v.dirOf? p = some d ∧ v.Admits p d name ∧ loc = name :: d := by
  unfold target at found
  obtain ⟨spot, spotted, rest⟩ := ok_of_bind found
  obtain ⟨d, around, fits, short, ⟨none, rfl⟩ | ⟨-, rfl⟩⟩ :=
    spot_child_ok plain isDir ends isName spotted
  · cases rest
    exact ⟨d, around, ⟨fits, short, by simp [isDirAt, none]⟩, rfl⟩
  · dsimp only at rest
    split at rest
    · cases rest
    next noDir =>
      cases rest
      exact ⟨d, around, ⟨fits, short, by simpa using noDir⟩, rfl⟩

theorem target_child_eq (found : v.dirOf? p = some d) (admits : v.Admits p d name) :
    v.target (p.child name) = .ok (name :: d) := by
  obtain ⟨fits, short, noDir⟩ := admits
  have spotted := spot_child isName plain (Path.text_ne_empty isDir ends) .write fits found
  rw [if_neg (Nat.not_lt.mpr short)] at spotted
  rw [target, spotted]
  cases got : v.get? (name :: d) with
  | none => rfl
  | some node => exact if_neg (Bool.eq_false_iff.mp noDir)

/-- What a directory admits is put there, as much of it as there is room for. -/
theorem writeText_admitted (found : v.dirOf? p = some d) (admits : v.Admits p d name)
    (text : String) : ∃ result,
      v.writeText (p.child name) text =
        (v.put (name :: d) (.file (v.taken (name :: d) text.toUTF8)), result) ∧
      (result = .ok () ↔ v.Accepts p d name text) := by
  rw [writeText, write, target_child_eq plain isDir ends isName found admits, taken]
  cases room : v.faults.room (name :: d) text.toUTF8 with
  | none => exact ⟨.ok (), by simp only [room], iff_of_true rfl ⟨admits, room⟩⟩
  | some n =>
    refine ⟨.error .noSpace, by simp only [room], iff_of_false nofun fun accepts => ?_⟩
    rw [accepts.room] at room
    cases room

/-- What a directory does not admit changes nothing. -/
theorem writeText_refused (found : v.dirOf? p = some d) (refused : ¬ v.Admits p d name)
    (text : String) : ∃ e, v.writeText (p.child name) text = (v, .error e) := by
  cases target : v.target (p.child name) with
  | error e => exact ⟨e, by rw [writeText, write, target]⟩
  | ok loc =>
    obtain ⟨d', found', admits, -⟩ := target_child plain isDir ends isName target
    obtain rfl : d' = d := Option.some_inj.mp (found'.symm.trans found)
    exact absurd admits refused

theorem writeText_child {text : String} {result : Except FileError Unit}
    (wrote : v.writeText (p.child name) text = (w, result)) :
    (w = v ∧ ∃ e, result = .error e) ∨ ∃ d, v.dirOf? p = some d ∧ v.Admits p d name ∧
      w = v.put (name :: d) (.file (v.taken (name :: d) text.toUTF8)) ∧
      (result = .ok () ↔ v.Accepts p d name text) := by
  cases target : v.target (p.child name) with
  | error e =>
    rw [writeText, write, target] at wrote
    cases wrote
    exact .inl ⟨rfl, e, rfl⟩
  | ok loc =>
    obtain ⟨d, found, admits, -⟩ := target_child plain isDir ends isName target
    obtain ⟨own, there, whole⟩ := writeText_admitted plain isDir ends isName found admits text
    rw [there] at wrote
    cases wrote
    exact .inr ⟨d, found, admits, rfl, whole⟩

theorem unlink_child (removed : v.unlink (p.child name) = .ok w) :
    ∃ d, v.dirOf? p = some d ∧ v.isDirAt (name :: d) = false ∧ w = v.erase (name :: d) := by
  unfold unlink at removed
  obtain ⟨spot, found, rest⟩ := ok_of_bind removed
  obtain ⟨d, around, -, -, ⟨-, rfl⟩ | ⟨-, rfl⟩⟩ := spot_child_ok plain isDir ends isName found
  · cases rest
  · dsimp only at rest
    split at rest
    · cases rest
    next noDir =>
      cases rest
      exact ⟨d, around, by simpa using noDir, rfl⟩

theorem isFile_child (found : v.dirOf? p = some d) (fits : Fits (p.child name)) :
    v.isFile (p.child name) = true ↔ ∃ bytes, v.get? (name :: d) = some (.file bytes) := by
  have node (short : name.utf8ByteSize ≤ maxName) : v.node? (p.child name) = v.get? (name :: d) := by
    rw [node?, locate, spot_child isName plain (Path.text_ne_empty isDir ends) .use fits found,
      if_neg (Nat.not_lt.mpr short)]
    cases got : v.get? (name :: d) <;> simp [Except.toOption, got]
  have isFile_iff (node : Option Node) :
      node.any Node.isFile = true ↔ ∃ bytes, node = some (.file bytes) := by
    rcases node with _ | _ | _ | _ <;> simp [Node.isFile]
  constructor
  · intro isFile
    cases located : v.locate (p.child name) with
    | error e => simp [Volume.isFile, node?, located, Except.toOption] at isFile
    | ok loc =>
      obtain ⟨-, -, -, short, -⟩ := spot_child_ok plain isDir ends isName (spot_of_locate located)
      rw [Volume.isFile, node short] at isFile
      exact (isFile_iff _).mp isFile
  · rintro ⟨bytes, got⟩
    rw [Volume.isFile, node (plain.size_name got)]
    exact (isFile_iff _).mpr ⟨bytes, got⟩

theorem readText_child {text : String} (found : v.dirOf? p = some d) (fits : Fits (p.child name))
    (got : v.get? (name :: d) = some (.file text.toUTF8)) : v.readText (p.child name) = .ok text := by
  have located := locate_child plain isName (Path.text_ne_empty isDir ends) fits found got
  have bytes : v.read (p.child name) = .ok text.toUTF8 := by
    simp [read, located, got, bind, Except.bind]
  have decoded : String.fromUTF8? text.toUTF8 = some text := by
    rw [String.fromUTF8?, dif_pos (show text.toUTF8.IsValidUTF8 from text.isValidUTF8)]
    rfl
  simp only [readText, bytes, bind, Except.bind, decoded]

end Files

end HeaderMeta.Volume
