import HeaderMeta.Proofs.Output.Clearing

/-! When output goes through.

In a directory that exists and can be listed, earlier files can always be removed, and the umbrella
files are written if they are accepted.
-/

set_option autoImplicit false

namespace HeaderMeta

open HeaderMeta.Path (IsName EndsIn)

namespace Path

theorem joinWith_pieces (cs : List Char) :
    Text.joinWith "/" ((pieces '/' cs).map String.ofList) = String.ofList cs := by
  induction cs with
  | nil => rfl
  | cons c cs ih =>
    rw [pieces]
    cases split : pieces '/' cs with
    | nil => exact absurd split (pieces_ne_nil '/' cs)
    | cons part parts =>
      rw [split] at ih
      apply String.toList_injective
      have joined := congrArg String.toList ih
      by_cases slash : c = '/'
      · simpa [slash, Text.joinWith] using joined
      · cases parts <;> simpa [slash, Text.joinWith] using joined

theorem trimSlashes_of_endsIn {p : Path} {name : String} (isName : IsName name)
    (ends : p.EndsIn name) : p.trimSlashes = p := by
  obtain ⟨before, split⟩ := parts_of_endsIn isName ends
  have kept : (p.parts.reverse.dropWhile (· = "")).reverse = p.parts := by
    simp [split, isName.ne_empty]
  have several : p.parts ≠ [""] := by
    rw [split]
    intro single
    have last := congrArg List.getLast? single
    rw [List.getLast?_concat] at last
    exact isName.ne_empty (Option.some_inj.mp last)
  rw [trimSlashes, kept, ofParts, if_neg several]
  have joined := joinWith_pieces p.text.toList
  rw [String.ofList_toList] at joined
  exact congrArg Path.mk joined

end Path

namespace Volume
variable {v : Volume} {p : Path} {name dir : String} {d : Location}

theorem makeDirs_of_isDir (plain : v.Plain) (isDir : IsName dir) (ends : p.EndsIn dir)
    (there : v.isDir p = true) : v.makeDirs p = (v, .ok ()) := by
  obtain ⟨before, split⟩ := Path.parts_of_endsIn isDir ends
  obtain ⟨fits, written, d, found⟩ := (isDir_iff_dirOf? plain).mp there
  rw [dirOf?, split, dirAt_concat isDir] at found
  obtain ⟨around, reached, last⟩ := Option.bind_eq_some_iff.mp found
  split at last
  next here =>
    cases last
    obtain ⟨node, got, -⟩ := Option.any_eq_true _ _ |>.mp here.2
    have stands : v.makeDir p = .error .alreadyExists := by
      rw [makeDir, Path.trimSlashes_of_endsIn isDir ends, spot_eq fits written .change, split,
        walk_concat plain isDir .change maxLinks before reached, if_neg (Nat.not_lt.mpr here.1), got]
      rfl
    have ensured : v.ensureDir p = (v, .ok ()) := by rw [ensureDir, stands, there]; rfl
    rw [makeDirs, makeDirsWithin, if_neg written, stands]
    exact ensured
  next => cases last

section Child
variable (plain : v.Plain) (isDir : IsName dir) (ends : p.EndsIn dir) (isName : IsName name)
variable (found : v.dirOf? p = some d) (fits : Fits (p.child name))
include plain isDir ends isName found fits

theorem unlink_child_eq {bytes : ByteArray} (there : v.get? (name :: d) = some (.file bytes)) :
    v.unlink (p.child name) = .ok (v.erase (name :: d)) := by
  have spotted := spot_child isName plain (Path.text_ne_empty isDir ends) .change fits found
  rw [if_neg (Nat.not_lt.mpr (plain.size_name there)), there] at spotted
  rw [unlink, spotted]
  exact if_neg (by simp [isDirAt, there, Node.isDir])

end Child

end Volume

namespace Umbrella

open Volume

variable {u : Umbrella} {d : Location} (ends : u.outputDir.EndsIn outputDirName)
include ends

theorem exists_clear {v : Volume} (plain : v.Plain) (found : v.dirOf? u.outputDir = some d)
    {names : List String} (named : ∀ name ∈ names, IsName name) :
    ∃ w removed, u.clear v (names.map fun name => .ok (u.outputDir.child name)) =
      (w, .ok removed) := by
  induction names generalizing v with
  | nil => exact ⟨v, 0, rfl⟩
  | cons name names ih =>
    obtain ⟨isName, named⟩ := List.forall_mem_cons.mp named
    rw [List.map_cons, clear]
    split
    next there =>
      obtain ⟨-, fits, bytes, file⟩ := (isStale_child ends plain isName found).mp there
      have noDir : v.isDirAt (name :: d) = false := by simp [isDirAt, file, Node.isDir]
      rw [unlink_child_eq plain Path.isName_outputDirName ends isName found fits file]
      obtain ⟨w, removed, rest⟩ := ih (plain.erase noDir) (((keeps_erase noDir).dirOf? _).trans found)
        named
      exact ⟨w, removed + 1, by dsimp only; rw [rest]; rfl⟩
    next => exact ih plain found named

/-- Earlier files never stand in the way. -/
theorem exists_cleared {v : Volume} (plain : v.Plain) (fits : Fits u.outputDir)
    (found : v.dirOf? u.outputDir = some d) (listable : Listable v d) :
    ∃ entries w removed, v.list u.outputDir = .ok entries ∧ u.clear v entries = (w, .ok removed) ∧
      u.Cleared d v w := by
  have named (name : String) (mem : name ∈ v.namesAt d) : IsName name :=
    let ⟨_, got⟩ := mem_namesAt.mp mem
    plain.isName got
  have located := (locate_of_dirOf? plain Path.isName_outputDirName ends fits found).1
  obtain ⟨w, removed, cleared⟩ := exists_clear ends plain found named
  rw [← listable.map_listed] at cleared
  exact ⟨_, w, removed, list_of_locate located (isDirAt_dirAt found) listable.closed, cleared,
    (cleared_clear ends plain found named cleared).1⟩

theorem exists_putBoth {v : Volume} {header impl : String} (plain : v.Plain)
    (found : v.dirOf? u.outputDir = some d) (writable : u.Writable v d header impl) :
    ∃ w, u.putBoth v header impl = (w, none) := by
  have wrote {v : Volume} {name text : String} (plain : v.Plain)
      (found : v.dirOf? u.outputDir = some d) (isName : IsName name)
      (accepts : v.Accepts u.outputDir d name text) :
      ∃ w, v.writeText (u.outputDir.child name) text = (w, .ok ()) := by
    obtain ⟨result, wrote, whole⟩ := writeText_admitted plain Path.isName_outputDirName ends isName
      found accepts.toAdmits text
    exact ⟨_, whole.mpr accepts ▸ wrote⟩
  obtain ⟨w, first⟩ := wrote plain found isName_umbrellaHeader writable.header
  obtain ⟨d', found', -, tends, -⟩ :=
    plain.tends_writeText_ok Path.isName_outputDirName ends isName_umbrellaHeader first
  obtain rfl : d' = d := Option.some_inj.mp (found'.symm.trans found)
  obtain ⟨x, second⟩ := wrote tends.plain ((tends.toKeeps.dirOf? _).trans found)
    (isName_umbrellaName u.implMode) (writable.of_keeps tends.toKeeps).impl
  refine ⟨x, ?_⟩
  rw [putBoth, Umbrella.put, headerPath, first]
  dsimp only
  rw [Umbrella.put, implPath, second]

/-- A directory that exists, can be listed and takes the placeholders can be prepared. -/
theorem exists_prepare {v : Volume} (plain : v.Plain) (fits : Fits u.outputDir)
    (found : v.dirOf? u.outputDir = some d) (listable : Listable v d)
    (writable : u.Writable v d (u.placeholder umbrellaHeader)
      (u.placeholder u.implMode.umbrellaName)) :
    ∃ w removed log, u.prepare v = (w, .ok removed, log) ∧ Tends d v w := by
  have there := (locate_of_dirOf? plain Path.isName_outputDirName ends fits found).2
  obtain ⟨entries, cleared, removed, listing, clearing, emptied⟩ :=
    exists_cleared ends plain fits found listable
  have found' := (emptied.toKeeps.dirOf? _).trans found
  obtain ⟨w, put⟩ := exists_putBoth ends emptied.plain found' (writable.of_keeps emptied.toKeeps)
  obtain ⟨d', same, -, tends, -⟩ := putBoth_ok ends emptied.plain put
  obtain rfl : d' = d := Option.some_inj.mp (same.symm.trans found')
  have prepared : ∃ log, u.prepare v = (w, .ok removed, log) := by
    rw [prepare, makeDirs_of_isDir plain Path.isName_outputDirName ends there]
    simp only [listing, clearing, put]
    exact ⟨_, rfl⟩
  obtain ⟨log, prepared⟩ := prepared
  exact ⟨w, removed, log, prepared, emptied.toTends.trans tends⟩

end Umbrella

end HeaderMeta
