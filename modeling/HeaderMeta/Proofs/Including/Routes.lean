import HeaderMeta.Proofs.Output.Clearing
import Mathlib.Data.Finset.Card
import Mathlib.Data.Finset.Prod

/-! Paths in lexical normal form, and how many of them lead to one file.

A normal form goes up some number of times and then down through names (`Route`). Without links it
leads to one location, which together with the start and the number of steps up gives the route back.
A path has a bounded length, so the steps up are bounded too, and with them the normal forms of files.
-/

set_option autoImplicit false

namespace HeaderMeta

namespace Path

structure IsPart (part : String) : Prop where
  isNormal : Component.ofPart? part = some (.normal part)
  noSlash : '/' ∉ part.toList

/-- A way through directories: up from the start, then down through names, the last one first. -/
structure Route where
  absolute : Bool
  ups : Nat
  down : Location
  named : ∀ name ∈ down, IsPart name

namespace Route

instance : Inhabited Route :=
  ⟨⟨false, 0, [], nofun⟩⟩

def parts (r : Route) : List String :=
  List.replicate r.ups ".." ++ r.down.reverse

def kept (r : Route) : List Component :=
  r.down.map .normal ++ List.replicate r.ups .parent ++ (if r.absolute then [.root] else [])

def path (r : Route) : Path :=
  ofComponents r.kept.reverse

theorem exists_step (r : Route) {c : Component}
    (step : c = .parent ∨ ∃ name, c = .normal name ∧ IsPart name) :
    ∃ next : Route, next.absolute = r.absolute ∧ reduceStep r.kept c = next.kept := by
  obtain ⟨absolute, ups, down, named⟩ := r
  rcases step with rfl | ⟨name, rfl, isPart⟩
  · cases down with
    | nil =>
      refine ⟨⟨absolute, ups + 1, [], nofun⟩, rfl, ?_⟩
      -- nothing is left to cancel, so the step up stays
      cases ups <;> cases absolute <;> rfl
    | cons name down =>
      exact ⟨⟨absolute, ups, down, fun n mem => named n (List.mem_cons_of_mem name mem)⟩, rfl, rfl⟩
  · refine ⟨⟨absolute, ups, name :: down, ?_⟩, rfl, ?_⟩
    · intro n mem
      rcases List.mem_cons.mp mem with rfl | later
      · exact isPart
      · exact named n later
    · simp [reduceStep, kept]

theorem exists_steps (cs : List Component)
    (steps : ∀ c ∈ cs, c = .parent ∨ ∃ name, c = .normal name ∧ IsPart name) (r : Route) :
    ∃ last : Route, last.absolute = r.absolute ∧ cs.foldl reduceStep r.kept = last.kept := by
  induction cs generalizing r with
  | nil => exact ⟨r, rfl, rfl⟩
  | cons c cs ih =>
    obtain ⟨next, same, kept⟩ := r.exists_step (steps c List.mem_cons_self)
    obtain ⟨last, same', folded⟩ := ih (fun d mem => steps d (List.mem_cons_of_mem c mem)) next
    exact ⟨last, same'.trans same, by rw [List.foldl_cons, kept, folded]⟩

end Route

theorem isPart_of_mem_components {p : Path} {c : Component}
    (mem : c ∈ p.parts.filterMap Component.ofPart?) :
    c = .parent ∨ ∃ name, c = .normal name ∧ IsPart name := by
  obtain ⟨part, inside, read⟩ := List.mem_filterMap.mp mem
  obtain ⟨piece, isPiece, rfl⟩ := List.mem_map.mp inside
  have noSlash := (mem_pieces isPiece).1
  have reading := read
  unfold Component.ofPart? at read
  split at read
  · cases read
  · split at read
    · cases read
      exact .inl rfl
    · cases read
      exact .inr ⟨_, rfl, reading, by simpa using noSlash⟩

/-- What lexical normalisation keeps of a path is a route. -/
theorem exists_kept (p : Path) :
    ∃ r : Route, r.absolute = p.isAbsolute ∧ p.components.foldl reduceStep [] = r.kept := by
  have start : ∃ r : Route, r.absolute = p.isAbsolute ∧ p.front.foldl reduceStep [] = r.kept := by
    unfold front
    split
    next absolute => exact ⟨⟨true, 0, [], nofun⟩, absolute.symm, rfl⟩
    next relative =>
      have same : (default : Route).absolute = p.isAbsolute := (Bool.eq_false_iff.mpr relative).symm
      split
      · exact ⟨default, same, rfl⟩
      · exact ⟨default, same, rfl⟩
  obtain ⟨r, same, kept⟩ := start
  obtain ⟨last, same', folded⟩ := r.exists_steps (p.parts.filterMap Component.ofPart?)
    fun c mem => isPart_of_mem_components mem
  exact ⟨last, same'.trans same, by rw [components, List.foldl_append, kept, folded]⟩

theorem exists_route (p : Path) : ∃ r : Route, p.normalize = r.path := by
  obtain ⟨r, -, kept⟩ := p.exists_kept
  exact ⟨r, by rw [normalize, reduce, kept, Route.path]⟩

section Text

theorem parts_joinWith {xs : List String} (some : xs ≠ []) (noSlash : ∀ x ∈ xs, '/' ∉ x.toList) :
    (pieces '/' (Text.joinWith "/" xs).toList).map String.ofList = xs := by
  induction xs with
  | nil => exact absurd rfl some
  | cons x xs ih =>
    have own := pieces_of_not_mem (noSlash x List.mem_cons_self)
    cases xs with
    | nil => simp [Text.joinWith, own]
    | cons y ys =>
      have rest := ih (List.cons_ne_nil y ys) fun z mem => noSlash z (List.mem_cons_of_mem x mem)
      have split : (Text.joinWith "/" (x :: y :: ys)).toList =
          x.toList ++ '/' :: (Text.joinWith "/" (y :: ys)).toList := by
        simp [Text.joinWith]
      rw [split, pieces_append, own, List.map_append, rest]
      simp

namespace Route
variable (r : Route)

theorem text_path :
    r.path.text = (if r.absolute then "/" else "") ++ Text.joinWith "/" r.parts := by
  have names : (r.down.reverse.map Component.normal).map Component.name = r.down.reverse := by
    simp [Function.comp_def, Component.name]
  have named : (List.replicate r.ups Component.parent ++ r.down.reverse.map Component.normal).map
      Component.name = r.parts := by
    rw [List.map_append, names, List.map_replicate]
    rfl
  have reversed : r.kept.reverse = (if r.absolute then [Component.root] else []) ++
      (List.replicate r.ups .parent ++ r.down.reverse.map .normal) := by
    simp only [kept, List.reverse_append, List.reverse_replicate, List.map_reverse]
    split <;> rfl
  rw [path, reversed]
  cases r.absolute with
  | true => simp [ofComponents, ← named]
  | false =>
    have relative : ofComponents (List.replicate r.ups .parent ++ r.down.reverse.map .normal) =
        ⟨Text.joinWith "/" r.parts⟩ := by
      unfold ofComponents
      split
      next cs same =>
        -- a route that is not absolute holds no root
        have root := same ▸ List.mem_cons_self (a := Component.root) (l := cs)
        simp at root
      next => rw [named]
    simpa using congrArg Path.text relative

theorem noSlash_parts : ∀ part ∈ r.parts, '/' ∉ part.toList := by
  intro part mem
  rcases List.mem_append.mp mem with up | name
  · rw [List.eq_of_mem_replicate up]
    decide
  · exact (r.named part (List.mem_reverse.mp name)).noSlash

/-- Three bytes for each step up, the last slash apart. -/
theorem ups_le : 3 * r.ups ≤ r.path.text.utf8ByteSize + 1 := by
  have joined (ups : Nat) (names : List String) :
      3 * ups ≤ (Text.joinWith "/" (List.replicate ups ".." ++ names)).utf8ByteSize + 1 := by
    induction ups with
    | zero => simp
    | succ ups ih =>
      rw [List.replicate_succ, List.cons_append]
      cases rest : List.replicate ups ".." ++ names with
      | nil =>
        have none : ups = 0 := by
          cases ups with
          | zero => rfl
          | succ ups => simp [List.replicate_succ] at rest
        subst none
        decide
      | cons part parts =>
        rw [rest] at ih
        have dots : "..".utf8ByteSize = 2 := by decide
        have slash : "/".utf8ByteSize = 1 := by decide
        rw [Text.joinWith, String.utf8ByteSize_append, String.utf8ByteSize_append, dots, slash]
        · omega
        · exact List.cons_ne_nil _ _
  have := joined r.ups r.down.reverse
  rw [text_path, String.utf8ByteSize_append]
  unfold parts
  omega

theorem isAbsolute_path (written : r.path.text ≠ "") : r.path.isAbsolute = r.absolute := by
  rw [isAbsolute, text_path]
  cases absolute : r.absolute with
  | true => exact Text.startsWith_iff.mpr ⟨(Text.joinWith "/" r.parts).toList, by simp⟩
  | false =>
    rw [text_path, absolute] at written
    rw [Bool.eq_false_iff]
    intro starts
    obtain ⟨rest, spelled⟩ := Text.startsWith_iff.mp starts
    have some : r.parts ≠ [] := fun none => written (by simp [none, Text.joinWith])
    -- the first part of a relative path would be empty
    have empty : "" ∈ r.parts := by
      rw [← parts_joinWith some r.noSlash_parts]
      have split : (Text.joinWith "/" r.parts).toList = [] ++ '/' :: rest := by simpa using spelled
      rw [split, pieces_append]
      simp [pieces]
    rcases List.mem_append.mp empty with up | name
    · exact absurd (List.eq_of_mem_replicate up) (by decide)
    · exact absurd (r.named "" (List.mem_reverse.mp name)).isNormal (by decide)

theorem parts_path (written : r.path.text ≠ "") :
    ∃ blanks, (∀ part ∈ blanks, part = "") ∧ r.path.parts = blanks ++ r.parts := by
  rw [Path.parts, text_path]
  rw [text_path] at written
  by_cases some : r.parts = []
  · cases absolute : r.absolute with
    | true => exact ⟨["", ""], by simp, by rw [some]; rfl⟩
    | false => simp [absolute, some, Text.joinWith] at written
  · have joined := parts_joinWith some r.noSlash_parts
    cases r.absolute with
    | true =>
      refine ⟨[""], by simp, ?_⟩
      have split : ("/" ++ Text.joinWith "/" r.parts).toList =
          [] ++ '/' :: (Text.joinWith "/" r.parts).toList := by simp
      rw [if_pos rfl, split, pieces_append, List.map_append, joined]
      rfl
    | false => exact ⟨[], by simp, by simpa using joined⟩

end Route

end Text

end Path

namespace Volume
variable {v : Volume}

def LinkFree (v : Volume) : Prop :=
  ∀ n ∈ v.nodes, ∀ target, n.2 ≠ .link target

def enter (loc : Location) (part : String) : Location :=
  if part = "" || part = "." then loc
  else if part = ".." then loc.tail
  else part :: loc

theorem LinkFree.get?_ne_link (free : v.LinkFree) (loc : Location) (target : Path) :
    v.get? loc ≠ some (.link target) := by
  cases loc with
  | nil => simp [get?]
  | cons name d => exact fun found => free _ (mem_of_get? found) target rfl

/-- Without links the parts of a path decide where it leads. -/
theorem walk_eq_node (free : v.LinkFree) (purpose : Purpose) (links : Nat) (loc : Location)
    (parts : List String) {d : Location} (walked : v.walk purpose links loc parts = .ok (.node d)) :
    d = parts.foldl enter loc := by
  induction parts generalizing loc with
  | nil =>
    rw [walk] at walked
    cases walked
    rfl
  | cons part rest ih =>
    rw [List.foldl_cons]
    cases (walked_of_walk free.get?_ne_link walked).2 with
    | blank blank walked => rw [enter, if_pos (by simpa using blank), ih _ walked]
    | up walked => exact ih _ walked
    | down step _ walked =>
      rw [enter, if_neg (by simp [step.1, step.2.1]), if_neg step.2.2, ih _ walked]

theorem foldl_enter_ups (ups : Nat) (loc : Location) :
    (List.replicate ups "..").foldl enter loc = loc.drop ups := by
  induction ups generalizing loc with
  | zero => rfl
  | succ ups ih =>
    rw [List.replicate_succ, List.foldl_cons, ih]
    cases loc <;> simp [enter]

theorem foldl_enter_blanks {parts : List String} (blank : ∀ part ∈ parts, part = "")
    (loc : Location) : parts.foldl enter loc = loc := by
  induction parts with
  | nil => rfl
  | cons part parts ih =>
    have here : part = "" := blank part List.mem_cons_self
    rw [List.foldl_cons, here]
    exact ih fun p mem => blank p (List.mem_cons_of_mem part mem)

theorem foldl_enter_names {names : List String} (named : ∀ name ∈ names, Path.IsPart name)
    (loc : Location) : names.foldl enter loc = names.reverse ++ loc := by
  induction names generalizing loc with
  | nil => rfl
  | cons name names ih =>
    have isNormal := (named name List.mem_cons_self).isNormal
    have inside : enter loc name = name :: loc := by
      unfold Path.Component.ofPart? at isNormal
      unfold enter
      split at isNormal
      · cases isNormal
      next filled =>
        rw [if_neg filled]
        split at isNormal
        · cases isNormal
        next down => rw [if_neg down]
    rw [List.foldl_cons, inside, ih fun n mem => named n (List.mem_cons_of_mem name mem)]
    simp

end Volume

namespace Path.Route
variable {v : Volume} (r : Route)

/-- Where the route leads. -/
def location (v : Volume) : Location :=
  r.down ++ (if r.absolute then [] else v.here).drop r.ups

theorem foldl_enter_path (written : r.path.text ≠ "") :
    r.path.parts.foldl Volume.enter (if r.path.isAbsolute then [] else v.here) = r.location v := by
  obtain ⟨blanks, blank, split⟩ := r.parts_path written
  have named : ∀ name ∈ r.down.reverse, IsPart name :=
    fun name mem => r.named name (List.mem_reverse.mp mem)
  rw [r.isAbsolute_path written, split, List.foldl_append, Volume.foldl_enter_blanks blank, parts,
    List.foldl_append, Volume.foldl_enter_ups, Volume.foldl_enter_names named, List.reverse_reverse,
    location]

theorem locate_path (free : v.LinkFree) {loc : Location} (located : v.locate r.path = .ok loc) :
    loc = r.location v ∧ r.path.text.utf8ByteSize ≤ Volume.maxPath := by
  obtain ⟨⟨-, short⟩, written, walked⟩ := Volume.walk_of_spot (Volume.spot_of_locate located)
  refine ⟨?_, short⟩
  rw [Volume.walk_eq_node free _ _ _ _ walked, Volume.startOf, r.foldl_enter_path written]

/-- A route is known by its start, its steps up and where it leads. -/
theorem path_eq {r s : Route} (absolute : r.absolute = s.absolute) (ups : r.ups = s.ups)
    (location : r.location v = s.location v) : r.path = s.path := by
  have down : r.down = s.down := by
    unfold Route.location at location
    rw [absolute, ups] at location
    exact List.append_cancel_right location
  unfold path kept
  rw [absolute, ups, down]

end Path.Route

namespace Volume
variable {v : Volume}

theorem locate_of_isFile {p : Path} (isFile : v.isFile p = true) :
    ∃ loc, v.locate p = .ok loc ∧ loc ∈ v.nodes.map (·.1) := by
  obtain ⟨node, found, kind⟩ := Option.any_eq_true _ _ |>.mp isFile
  obtain ⟨loc, located, got⟩ := locate_of_node? found
  refine ⟨loc, located, ?_⟩
  cases loc with
  | nil =>
    cases got
    cases kind
  | cons name d => exact List.mem_map_of_mem (mem_of_get? got)

theorem length_le_of_keys {n : Nat} {paths : List Path} {places : List Location}
    {key : Path → Nat × Location} (distinct : paths.Nodup)
    (lands : ∀ p ∈ paths, (key p).1 < n ∧ (key p).2 ∈ places)
    (apart : ∀ p ∈ paths, ∀ q ∈ paths, key p = key q → p = q) :
    paths.length ≤ n * places.length := by
  have inside : Set.MapsTo key paths.toFinset
      (Finset.range n ×ˢ places.toFinset : Finset (Nat × Location)) := by
    intro p mem
    obtain ⟨below, placed⟩ := lands p (List.mem_toFinset.mp mem)
    simp [below, placed]
  have injective : Set.InjOn key paths.toFinset := fun p inP q inQ =>
    apart p (List.mem_toFinset.mp inP) q (List.mem_toFinset.mp inQ)
  calc paths.length = paths.toFinset.card := (List.toFinset_card_of_nodup distinct).symm
    _ ≤ (Finset.range n ×ˢ places.toFinset).card :=
      Finset.card_le_card_of_injOn key inside injective
    _ = n * places.toFinset.card := by rw [Finset.card_product, Finset.card_range]
    _ ≤ n * places.length := Nat.mul_le_mul_left n places.toFinset_card_le

/-- The files have fewer normal forms than a path has bytes, each. -/
theorem length_le_of_normal_files (free : v.LinkFree) {paths : List Path} (distinct : paths.Nodup)
    (normal : ∀ p ∈ paths, ∃ q : Path, p = q.normalize) (files : ∀ p ∈ paths, v.isFile p = true) :
    paths.length ≤ maxPath * v.nodes.length := by
  have routes (p : Path) (mem : p ∈ paths) : ∃ r : Path.Route, p = r.path := by
    obtain ⟨q, rfl⟩ := normal p mem
    exact q.exists_route
  choose! route onRoute using routes
  -- a normal form is told by how it starts, how far it goes up, and where it leads
  let key (p : Path) : Nat × Location :=
    (2 * (route p).ups + (if (route p).absolute then 1 else 0), (route p).location v)
  have lands (p : Path) (mem : p ∈ paths) :
      (key p).1 < maxPath ∧ (key p).2 ∈ v.nodes.map (·.1) := by
    obtain ⟨loc, located, placed⟩ := locate_of_isFile (files p mem)
    rw [onRoute p mem] at located
    obtain ⟨rfl, short⟩ := (route p).locate_path free located
    have few := (route p).ups_le
    refine ⟨?_, placed⟩
    unfold maxPath at short ⊢
    dsimp only [key]
    split <;> omega
  have apart (p : Path) (inP : p ∈ paths) (q : Path) (inQ : q ∈ paths) (same : key p = key q) :
      p = q := by
    obtain ⟨steps, location⟩ := Prod.mk.inj same
    have start : (route p).absolute = (route q).absolute := by
      cases first : (route p).absolute <;> cases second : (route q).absolute <;>
        simp [first, second] at steps ⊢ <;> omega
    rw [start] at steps
    rw [onRoute p inP, onRoute q inQ]
    exact Path.Route.path_eq start (by omega) location
  have few := length_le_of_keys distinct lands apart
  rwa [List.length_map] at few

end Volume

end HeaderMeta
