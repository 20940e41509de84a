import HeaderMeta.Proofs.NormalForms
import HeaderMeta.Proofs.Scanning

/-! Directories in a volume without links, by whatever path they are found, and what lies in them.

The path need not end in a name: it may be the root, end with a slash or go up. What lies in the
directory is found behind it all the same. In which order a volume keeps its nodes makes no difference
to any of this.
-/

set_option autoImplicit false

namespace HeaderMeta.Volume

open HeaderMeta.Path (IsName)

variable {v w : Volume} {p q : Path} {name : String} {loc d : Location} {node : Node}

section Order

theorem walk_congr (same : ∀ loc, w.get? loc = v.get? loc) (purpose : Purpose) (links : Nat)
    (loc : Location) (parts : List String) :
    w.walk purpose links loc parts = v.walk purpose links loc parts := by
  have dirs (loc : Location) : w.isDirAt loc = v.isDirAt loc := by rw [isDirAt, isDirAt, same]
  fun_induction walk v purpose links loc parts with
  | case1 => rw [walk]
  | case2 links loc part rest out => rw [walk, dirs, if_pos out]
  | case3 links loc part rest here blank ih => rw [walk, dirs, if_neg here, if_pos blank, ih]
  | case4 links loc rest here filled ih => rw [walk, dirs, if_neg here, if_neg filled, if_pos rfl, ih]
  | case5 links loc part rest here filled down refused =>
    rw [walk, dirs, if_neg here, if_neg filled, if_neg down, if_pos refused]
  | case6 links loc part rest here filled down taken long =>
    rw [walk, dirs, if_neg here, if_neg filled, if_neg down, if_neg taken, if_pos long]
  | case7 links loc part rest here filled down taken short none blank =>
    rw [walk, dirs, same, if_neg here, if_neg filled, if_neg down, if_neg taken, if_neg short, none]
    exact if_pos blank
  | case8 links loc part rest here filled down taken short none more =>
    rw [walk, dirs, same, if_neg here, if_neg filled, if_neg down, if_neg taken, if_neg short, none]
    exact if_neg more
  | case9 links loc part rest here filled down taken short target link last =>
    rw [walk, dirs, same, if_neg here, if_neg filled, if_neg down, if_neg taken, if_neg short, link]
    exact if_pos last
  | case10 loc part rest here filled down taken short target link more =>
    rw [walk, dirs, same, if_neg here, if_neg filled, if_neg down, if_neg taken, if_neg short, link]
    exact if_neg more
  | case11 loc part rest here filled down taken short target link more links ih =>
    rw [walk, dirs, same, if_neg here, if_neg filled, if_neg down, if_neg taken, if_neg short, link]
    exact (if_neg more).trans ih
  | case12 links loc part rest here filled down taken short node other found ih =>
    rw [walk, dirs, same, if_neg here, if_neg filled, if_neg down, if_neg taken, if_neg short, found]
    cases node with
    | link target => exact absurd rfl (other target)
    | dir | file bytes => exact ih

/-- The same nodes at the same current directory with the same faults, kept in any order. -/
structure Reordered (w v : Volume) : Prop where
  nodes : w.nodes.Perm v.nodes
  here : w.here = v.here
  faults : w.faults = v.faults

theorem Reordered.get? (reordered : w.Reordered v) (plain : v.Plain) (loc : Location) :
    w.get? loc = v.get? loc := by
  have among {u : Volume} {name : String} {d : Location} {node : Node}
      (distinct : (u.nodes.map (·.1)).Nodup) (mem : (name :: d, node) ∈ u.nodes) :
      u.get? (name :: d) = some node := by
    have inside : name ∈ u.namesAt d := List.mem_filterMap.mpr ⟨_, mem, if_pos rfl⟩
    obtain ⟨other, found⟩ := mem_namesAt.mp inside
    -- locations are distinct, so what is found there is this node
    have same := List.inj_on_of_nodup_map distinct (mem_of_get? found) mem rfl
    rw [found, (Prod.mk.inj same).2]
  have distinct : (w.nodes.map (·.1)).Nodup :=
    (reordered.nodes.map _).nodup_iff.mpr plain.distinct
  cases loc with
  | nil => rfl
  | cons name d =>
    cases found : v.get? (name :: d) with
    | some node => exact among distinct (reordered.nodes.mem_iff.mpr (mem_of_get? found))
    | none =>
      cases other : w.get? (name :: d) with
      | none => rfl
      | some node =>
        rw [among plain.distinct (reordered.nodes.mem_iff.mp (mem_of_get? other))] at found
        cases found

theorem Reordered.plain (reordered : w.Reordered v) (plain : v.Plain) : w.Plain where
  distinct := (reordered.nodes.map _).nodup_iff.mpr plain.distinct
  noLinks := fun n mem => plain.noLinks n (reordered.nodes.mem_iff.mp mem)
  named := by
    intro n mem
    obtain ⟨name, dir, same, isName, short, isDir⟩ := plain.named n (reordered.nodes.mem_iff.mp mem)
    refine ⟨name, dir, same, isName, short, ?_⟩
    rw [isDirAt, reordered.get? plain]
    exact isDir

theorem Reordered.locate (reordered : w.Reordered v) (plain : v.Plain) (p : Path) :
    w.locate p = v.locate p := by
  rw [Volume.locate, Volume.locate, spot, spot, reordered.here,
    walk_congr (reordered.get? plain)]

theorem Reordered.node? (reordered : w.Reordered v) (plain : v.Plain) (p : Path) :
    w.node? p = v.node? p := by
  rw [Volume.node?, Volume.node?, reordered.locate plain]
  exact congrArg _ (funext (reordered.get? plain))

theorem Reordered.isDir (reordered : w.Reordered v) (plain : v.Plain) (p : Path) :
    w.isDir p = v.isDir p := by
  rw [Volume.isDir, Volume.isDir, reordered.node? plain]

theorem Reordered.isFile (reordered : w.Reordered v) (plain : v.Plain) (p : Path) :
    w.isFile p = v.isFile p := by
  rw [Volume.isFile, Volume.isFile, reordered.node? plain]

theorem Reordered.list (reordered : w.Reordered v) (plain : v.Plain) (p : Path) :
    (∃ e, w.list p = .error e ∧ v.list p = .error e) ∨
      ∃ entries entries', w.list p = .ok entries ∧ v.list p = .ok entries' ∧
        entries.Perm entries' := by
  have dirs (loc : Location) : w.isDirAt loc = v.isDirAt loc := by
    rw [isDirAt, isDirAt, reordered.get? plain]
  rw [Volume.list, Volume.list, reordered.locate plain]
  cases v.locate p with
  | error e => exact .inl ⟨e, rfl, rfl⟩
  | ok d =>
    have names : (w.namesAt d).Perm (v.namesAt d) := reordered.nodes.filterMap _
    simp only [bind, Except.bind, dirs, reordered.faults]
    split
    · exact .inl ⟨_, rfl, rfl⟩
    · split
      · exact .inl ⟨_, rfl, rfl⟩
      · exact .inr ⟨_, _, rfl, rfl, names.map _⟩

theorem Reordered.depthBound (reordered : w.Reordered v) : w.depthBound = v.depthBound := by
  rw [Volume.depthBound, Volume.depthBound, reordered.nodes.length_eq]

end Order

end HeaderMeta.Volume
