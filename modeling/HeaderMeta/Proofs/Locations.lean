import HeaderMeta.Proofs.Including.Routes

/-! Where paths lead in a volume without links.

Without links the parts of a path alone decide the one location it can lead to (`place`). Lexical
normalisation keeps that location, and a name put behind a path goes one step down from it.
-/

set_option autoImplicit false

namespace HeaderMeta

open HeaderMeta.Path (IsName)

def Path.Component.enter (loc : Location) : Component → Location
  | .root => []
  | .current => loc
  | .parent => loc.tail
  | .normal name => name :: loc

/-- A component that is cancelled or dropped leads nowhere else. -/
theorem Path.foldl_enter_reduceStep (here : Location) (kept : List Component) (c : Component) :
    (reduceStep kept c).reverse.foldl Component.enter here =
      Component.enter (kept.reverse.foldl Component.enter here) c := by
  fun_cases reduceStep kept c with
  | case1 => rfl
  | case2 kept name => simp [Component.enter]
  | case3 => simp

theorem Path.foldl_enter_reduce (here : Location) (cs : List Component) :
    (reduce cs).foldl Component.enter here = cs.foldl Component.enter here := by
  have folded (kept : List Component) :
      (cs.foldl reduceStep kept).reverse.foldl Component.enter here =
        cs.foldl Component.enter (kept.reverse.foldl Component.enter here) := by
    induction cs generalizing kept with
    | nil => rfl
    | cons c cs ih => rw [List.foldl_cons, ih, foldl_enter_reduceStep, List.foldl_cons]
  exact folded []

theorem Path.Route.foldl_enter_kept (r : Route) (v : Volume) :
    r.kept.reverse.foldl Component.enter v.here = r.location v := by
  have ups (n : Nat) (loc : Location) :
      (List.replicate n Component.parent).foldl Component.enter loc = loc.drop n := by
    induction n generalizing loc with
    | zero => rfl
    | succ n ih =>
      rw [List.replicate_succ, List.foldl_cons, ih]
      cases loc <;> simp [Component.enter]
  have downs (down loc : Location) :
      (down.map Component.normal).reverse.foldl Component.enter loc = down ++ loc := by
    induction down with
    | nil => rfl
    | cons name down ih => simp [ih, Component.enter]
  rw [kept, List.reverse_append, List.reverse_append, List.foldl_append, List.foldl_append,
    List.reverse_replicate, ups, downs, location]
  cases r.absolute <;> rfl

namespace Volume
variable {v w : Volume} {p : Path} {name : String} {d : Location}

/-- Where a path leads when it meets no link. -/
def place (v : Volume) (p : Path) : Location :=
  p.parts.foldl enter (v.startOf p)

theorem place_congr (here : w.here = v.here) (p : Path) : w.place p = v.place p := by
  rw [place, place, startOf, startOf, here]

theorem enter_ofPart? (loc : Location) (part : String) :
    enter loc part = ((Path.Component.ofPart? part).map (Path.Component.enter loc)).getD loc := by
  unfold enter Path.Component.ofPart?
  split
  · rfl
  · split <;> rfl

/-- Components lead where the parts between slashes do. -/
theorem place_eq (v : Volume) (p : Path) :
    v.place p = p.components.foldl Path.Component.enter v.here := by
  have parts (parts : List String) (loc : Location) :
      parts.foldl enter loc =
        (parts.filterMap Path.Component.ofPart?).foldl Path.Component.enter loc := by
    induction parts generalizing loc with
    | nil => rfl
    | cons part rest ih =>
      rw [List.foldl_cons, ih, enter_ofPart?, List.filterMap_cons]
      cases Path.Component.ofPart? part <;> rfl
  have front : p.front.foldl Path.Component.enter v.here = v.startOf p := by
    unfold Path.front startOf
    split
    · rfl
    · split <;> rfl
  rw [place, parts, Path.components, List.foldl_append, front]

theorem place_normalize (v : Volume) (written : p.normalize.text ≠ "") :
    v.place p.normalize = v.place p := by
  obtain ⟨r, -, kept⟩ := p.exists_kept
  have route : p.normalize = r.path := by rw [Path.normalize, Path.reduce, kept, Path.Route.path]
  rw [route] at written ⊢
  calc v.place r.path = r.location v := r.foldl_enter_path written
    _ = (Path.reduce p.components).foldl Path.Component.enter v.here := by
      rw [Path.reduce, kept, r.foldl_enter_kept]
    _ = v.place p := by rw [Path.foldl_enter_reduce, place_eq]

theorem place_child (v : Volume) (p : Path) (isName : IsName name) :
    v.place (p.child name) = name :: v.place p := by
  rw [place_eq, place_eq, Path.components_child p isName, List.foldl_append]
  rfl

/-- Only one location can be found by a path. -/
theorem eq_place_of_locate (free : v.LinkFree) (located : v.locate p = .ok d) : d = v.place p := by
  obtain ⟨-, -, walked⟩ := walk_of_spot (spot_of_locate located)
  exact walk_eq_node free _ _ _ _ walked

theorem eq_place_of_dirOf? (found : v.dirOf? p = some d) : d = v.place p := by
  have walked {loc : Location} {parts : List String} (found : v.dirAt loc parts = some d) :
      d = parts.foldl enter loc := by
    fun_induction dirAt v loc parts with
    | case1 loc => cases found; rfl
    | case2 | case3 | case6 => cases found
    | case4 loc part rest _ blank ih => rw [List.foldl_cons, enter, if_pos blank, ih found]
    | case5 loc rest _ _ ih => rw [List.foldl_cons, ih found]; rfl
    | case7 loc part rest _ filled down _ ih =>
      rw [List.foldl_cons, enter, if_neg filled, if_neg down, ih found]
  exact walked found

end Volume

end HeaderMeta
