import HeaderMeta.Proofs.Locations

/-! Lexical normal forms.

Components that are written out are read back (`components_ofComponents`), so a normal form has just
the components that normalisation keeps. No name is left before a `..` of it that could be cancelled,
so nothing happens to it when it is normalised once more.
-/

set_option autoImplicit false

namespace HeaderMeta.Path

structure Component.IsStep (c : Component) : Prop where
  read : ofPart? c.name = some c
  noSlash : '/' ∉ c.name.toList

def Component.start (absolute : Bool) : List Component :=
  if absolute then [.root] else []

section Components
variable {p : Path} {c : Component} {steps : List Component}

theorem Component.IsStep.ne_root (step : c.IsStep) : c ≠ .root := by
  rintro rfl
  exact step.noSlash (by decide)

theorem Component.IsStep.ne_current (step : c.IsStep) : c ≠ .current := by
  rintro rfl
  exact absurd step.read (by decide)

theorem Component.IsStep.exists_name (step : c.IsStep) (down : c ≠ .parent) :
    ∃ name, c = .normal name := by
  cases c with
  | root => exact absurd rfl step.ne_root
  | current => exact absurd rfl step.ne_current
  | parent => exact absurd rfl down
  | normal name => exact ⟨name, rfl⟩

theorem isStep_parent : Component.parent.IsStep := by
  constructor <;> decide

theorem Component.IsStep.of_isPart {name : String} (isPart : IsPart name) :
    (Component.normal name).IsStep :=
  ⟨isPart.isNormal, isPart.noSlash⟩

theorem isStep_of_mem_parts (mem : c ∈ p.parts.filterMap Component.ofPart?) : c.IsStep := by
  rcases isPart_of_mem_components mem with rfl | ⟨name, rfl, isPart⟩
  · exact isStep_parent
  · exact .of_isPart isPart

theorem Component.IsStep.name_ne (step : c.IsStep) : c.name ≠ "" ∧ c.name ≠ "." := by
  constructor <;> intro same <;> exact absurd (same ▸ step.read) (by simp [ofPart?])

theorem head?_parts_of_isAbsolute (absolute : p.isAbsolute = true) : p.parts.head? = some "" := by
  obtain ⟨rest, spelled⟩ := Text.startsWith_iff.mp absolute
  have split : p.text.toList = [] ++ '/' :: rest := spelled
  rw [parts, split, pieces_append]
  rfl

theorem text_ofComponents (absolute : Bool) (written : ∀ c ∈ steps, c.IsStep) :
    (ofComponents (Component.start absolute ++ steps)).text =
      (if absolute then "/" else "") ++ Text.joinWith "/" (steps.map Component.name) := by
  cases absolute with
  | true => rfl
  | false =>
    cases steps with
    | nil => rfl
    | cons c steps =>
      have first := (written c List.mem_cons_self).ne_root
      cases c <;> first | exact absurd rfl first | simp [Component.start, ofComponents]

theorem parts_names (some : steps ≠ []) (written : ∀ c ∈ steps, c.IsStep) :
    (pieces '/' (Text.joinWith "/" (steps.map Component.name)).toList).map String.ofList =
      steps.map Component.name := by
  refine parts_joinWith (by simpa using some) fun name mem => ?_
  obtain ⟨c, inside, rfl⟩ := List.mem_map.mp mem
  exact (written c inside).noSlash

theorem filterMap_names (written : ∀ c ∈ steps, c.IsStep) :
    (steps.map Component.name).filterMap Component.ofPart? = steps := by
  induction steps with
  | nil => rfl
  | cons c steps ih =>
    obtain ⟨first, others⟩ := List.forall_mem_cons.mp written
    rw [List.map_cons, List.filterMap_cons, first.read, ih others]

/-- Steps that are written out are read back. -/
theorem components_ofComponents (absolute : Bool) (written : ∀ c ∈ steps, c.IsStep) :
    (ofComponents (Component.start absolute ++ steps)).components =
      Component.start absolute ++ steps := by
  have text := text_ofComponents absolute written
  generalize ofComponents (Component.start absolute ++ steps) = p at text ⊢
  by_cases none : steps = []
  · obtain rfl : p = ⟨if absolute then "/" else ""⟩ := by
      cases p
      simpa [none, Text.joinWith] using text
    subst none
    cases absolute <;> decide
  have names := parts_names none written
  cases absolute with
  | true =>
    have spelled : p.text.toList = [] ++
        '/' :: (Text.joinWith "/" (steps.map Component.name)).toList := by simp [text]
    have isAbsolute : p.isAbsolute = true := Text.startsWith_iff.mpr ⟨_, spelled⟩
    have parts : p.parts = "" :: steps.map Component.name := by
      rw [Path.parts, spelled, pieces_append, List.map_append, names]
      rfl
    rw [components, front, isAbsolute, if_pos rfl, parts, List.filterMap_cons,
      filterMap_names written]
    rfl
  | false =>
    have parts : p.parts = steps.map Component.name := by
      rw [Path.parts, text]
      simpa using names
    -- no root and no dot is read off the first name, as the name of a step is neither empty nor a dot
    obtain ⟨c, others, rfl⟩ := List.exists_cons_of_ne_nil none
    obtain ⟨filled, other⟩ := (written c List.mem_cons_self).name_ne
    have relative : p.isAbsolute = false := by
      rw [Bool.eq_false_iff]
      intro absolute
      have empty := head?_parts_of_isAbsolute absolute
      rw [parts] at empty
      exact filled (by simpa using empty)
    have noDot : p.parts.head? ≠ some "." := by
      rw [parts]
      simpa using other
    rw [components, front, relative, if_neg Bool.false_ne_true, if_neg noDot, parts,
      filterMap_names written]
    rfl

theorem front_cases (p : Path) :
    p.isAbsolute = true ∧ p.front = [.root] ∨
      p.isAbsolute = false ∧ (p.front = [.current] ∨ p.front = []) := by
  unfold front
  cases p.isAbsolute with
  | true => exact .inl ⟨rfl, rfl⟩
  | false =>
    refine .inr ⟨rfl, ?_⟩
    by_cases dot : p.parts.head? = some "."
    · exact .inl (by simp [dot])
    · exact .inr (by simp [dot])

theorem isAbsolute_iff : p.isAbsolute = true ↔ p.components.head? = some .root := by
  have steps : (p.parts.filterMap Component.ofPart?).head? ≠ some .root := fun root =>
    (isStep_of_mem_parts (List.mem_of_head? root)).ne_root rfl
  rw [components]
  rcases p.front_cases with ⟨absolute, root⟩ | ⟨relative, dot | none⟩
  · simp [absolute, root]
  · simp [relative, dot]
  · rw [relative, none, List.nil_append]
    exact iff_of_false Bool.false_ne_true steps

end Components

section Reduce
variable {p : Path} {cs kept : List Component}

theorem foldl_reduceStep_of_plain (plain : ∀ c ∈ cs, c ≠ .current ∧ c ≠ .parent)
    (kept : List Component) : cs.foldl reduceStep kept = cs.reverse ++ kept := by
  induction cs generalizing kept with
  | nil => rfl
  | cons c cs ih =>
    obtain ⟨⟨noCurrent, noParent⟩, others⟩ := List.forall_mem_cons.mp plain
    have keeps : reduceStep kept c = c :: kept := by
      cases c <;> first | exact absurd rfl noCurrent | exact absurd rfl noParent | rfl
    rw [List.foldl_cons, keeps, ih others]
    simp

theorem foldl_reduceStep_ups (none : ∀ name, kept.head? ≠ some (.normal name)) (n : Nat) :
    (List.replicate n Component.parent).foldl reduceStep kept =
      List.replicate n Component.parent ++ kept := by
  have keeps {kept : List Component} (none : ∀ name, kept.head? ≠ some (.normal name)) :
      reduceStep kept .parent = .parent :: kept := by
    cases kept with
    | nil => rfl
    | cons c kept => cases c <;> first | rfl | exact absurd rfl (none _)
  induction n generalizing kept with
  | zero => rfl
  | succ n ih =>
    calc (List.replicate (n + 1) .parent).foldl reduceStep kept
      _ = (List.replicate n .parent).foldl reduceStep (.parent :: kept) := by
        rw [List.replicate_succ, List.foldl_cons, keeps none]
      _ = List.replicate n .parent ++ .parent :: kept := ih (by simp)
      _ = List.replicate (n + 1) .parent ++ kept := by
        rw [List.replicate_succ', List.append_assoc, List.singleton_append]

/-- A path without `.` whose `..` form one run at the front, behind the root if there is one. -/
structure IsNormal (p : Path) : Prop where
  noCurrent : .current ∉ p.components
  ups : ∃ n rest, p.components = Component.start p.isAbsolute ++ List.replicate n .parent ++ rest ∧
    .parent ∉ rest

theorem IsNormal.reduce_components (normal : p.IsNormal) : reduce p.components = p.components := by
  obtain ⟨n, rest, split, noParent⟩ := normal.ups
  have plain : ∀ c ∈ rest, c ≠ .current ∧ c ≠ .parent := by
    intro c mem
    refine ⟨?_, fun same => noParent (same ▸ mem)⟩
    rintro rfl
    exact normal.noCurrent (split ▸ List.mem_append_right _ mem)
  have start : (Component.start p.isAbsolute).foldl reduceStep [] =
      (Component.start p.isAbsolute).reverse := by
    cases p.isAbsolute <;> rfl
  have bare : ∀ name, (Component.start p.isAbsolute).reverse.head? ≠ some (.normal name) := by
    cases p.isAbsolute <;> simp [Component.start]
  rw [reduce, split, List.foldl_append, List.foldl_append, start, foldl_reduceStep_ups bare,
    foldl_reduceStep_of_plain plain]
  simp

theorem Route.reverse_kept (r : Route) :
    r.kept.reverse = Component.start r.absolute ++
      (List.replicate r.ups .parent ++ r.down.reverse.map .normal) := by
  simp only [Route.kept, List.reverse_append, List.reverse_replicate, List.map_reverse]
  cases r.absolute <;> rfl

theorem Route.isStep (r : Route) :
    ∀ c ∈ List.replicate r.ups Component.parent ++ r.down.reverse.map Component.normal, c.IsStep := by
  intro c mem
  rcases List.mem_append.mp mem with up | down
  · rw [List.eq_of_mem_replicate up]
    exact isStep_parent
  · obtain ⟨name, inside, rfl⟩ := List.mem_map.mp down
    exact .of_isPart (r.named name (List.mem_reverse.mp inside))

/-- Normalisation keeps a route, and its text is read as just that. -/
theorem exists_components_normalize (p : Path) :
    ∃ r : Route, r.absolute = p.isAbsolute ∧ reduce p.components = r.kept.reverse ∧
      p.normalize.components = r.kept.reverse := by
  obtain ⟨r, absolute, kept⟩ := p.exists_kept
  have reduced : reduce p.components = r.kept.reverse := by rw [reduce, kept]
  refine ⟨r, absolute, reduced, ?_⟩
  rw [normalize, reduced, r.reverse_kept]
  exact components_ofComponents _ r.isStep

theorem components_normalize (p : Path) : p.normalize.components = reduce p.components := by
  obtain ⟨r, -, reduced, components⟩ := p.exists_components_normalize
  exact components.trans reduced.symm

theorem isAbsolute_normalize (p : Path) : p.normalize.isAbsolute = p.isAbsolute := by
  obtain ⟨r, absolute, -, components⟩ := p.exists_components_normalize
  have noRoot : (List.replicate r.ups Component.parent ++ r.down.reverse.map Component.normal).head? ≠
      some .root := fun root => (r.isStep _ (List.mem_of_head? root)).ne_root rfl
  rw [Bool.eq_iff_iff, isAbsolute_iff, components, r.reverse_kept, ← absolute]
  cases r.absolute
  · simpa [Component.start] using noRoot
  · simp [Component.start]

theorem isNormal_normalize (p : Path) : p.normalize.IsNormal := by
  obtain ⟨r, absolute, -, components⟩ := p.exists_components_normalize
  rw [r.reverse_kept, absolute, ← p.isAbsolute_normalize] at components
  refine ⟨fun mem => ?_, r.ups, r.down.reverse.map .normal, ?_, by simp⟩
  · rw [components] at mem
    rcases List.mem_append.mp mem with front | step
    · cases absolute : p.normalize.isAbsolute <;> simp [absolute, Component.start] at front
    · exact (r.isStep _ step).ne_current rfl
  · rw [components, List.append_assoc]

/-- A path names the same as its normal form just when it is one. -/
theorem same_normalize_iff : same p.normalize p = true ↔ p.IsNormal := by
  constructor
  · intro same
    have components : p.normalize.components = p.components := by simpa [Path.same] using same
    obtain ⟨noCurrent, ups⟩ := p.isNormal_normalize
    rw [components, p.isAbsolute_normalize] at ups
    exact ⟨components ▸ noCurrent, ups⟩
  · intro normal
    simp [Path.same, components_normalize, normal.reduce_components]

end Reduce

/-- Where a path leads from the directory at `here` when its components are taken one by one. From the
root `..` leads nowhere else. -/
def leadsTo (p : Path) (here : Location) : Location :=
  p.components.foldl Component.enter here

/-- Lexical normalisation gives a normal form that means the same: without `.`, with `..` in one run
at the front only, unchanged when it is normalised again, absolute when the path is, and leading to the
same location from every directory. -/
theorem normalize_keeps_meaning (p : Path) :
    p.normalize.IsNormal ∧ p.normalize.normalize = p.normalize ∧
      p.normalize.isAbsolute = p.isAbsolute ∧
      ∀ here, p.normalize.leadsTo here = p.leadsTo here := by
  have normal := p.isNormal_normalize
  refine ⟨normal, ?_, p.isAbsolute_normalize, fun here => ?_⟩
  · calc p.normalize.normalize = ofComponents (reduce p.normalize.components) := rfl
      _ = ofComponents p.normalize.components := by rw [normal.reduce_components]
      _ = p.normalize := by rw [components_normalize, normalize]
  · rw [leadsTo, components_normalize, foldl_enter_reduce, leadsTo]

example : (⟨"/a/./b/../../../c"⟩ : Path).normalize = ⟨"/../c"⟩ := by decide

end HeaderMeta.Path
