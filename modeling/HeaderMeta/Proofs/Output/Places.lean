import HeaderMeta.Proofs.Output.Paths

/-! Files in a directory of a volume without links.

Without links a path leads to its directory through directories only (`dirAt`), and the name at its
end decides the rest. So a file that comes or goes changes nothing for paths to other files.
-/

set_option autoImplicit false

namespace HeaderMeta.Volume

open HeaderMeta.Path (IsName EndsIn)

structure Plain (v : Volume) : Prop where
  distinct : (v.nodes.map (·.1)).Nodup
  noLinks : ∀ n ∈ v.nodes, ∀ target, n.2 ≠ .link target
  named : ∀ n ∈ v.nodes, ∃ name dir, n.1 = name :: dir ∧ IsName name ∧
    name.utf8ByteSize ≤ maxName ∧ v.isDirAt dir = true

/-- The directory that `parts` lead to from `loc`. -/
def dirAt (v : Volume) : (loc : Location) → (parts : List String) → Option Location
  | loc, [] => if v.isDirAt loc then some loc else none
  | loc, part :: rest =>
    if !v.isDirAt loc then none
    else if part = "" || part = "." then dirAt v loc rest
    else if part = ".." then dirAt v loc.tail rest
    else if part.utf8ByteSize > maxName then none
    else dirAt v (part :: loc) rest

def startOf (v : Volume) (p : Path) : Location :=
  if p.isAbsolute then [] else v.here

def dirOf? (v : Volume) (p : Path) : Option Location :=
  v.dirAt (v.startOf p) p.parts

section Lookup
variable {v w : Volume} {loc d : Location} {name : String}

theorem mem_of_get? {node : Node} (found : v.get? (name :: d) = some node) :
    (name :: d, node) ∈ v.nodes := by
  obtain ⟨n, here, rfl⟩ := Option.map_eq_some_iff.mp found
  have placed : n.1 = name :: d := by simpa using List.find?_some here
  exact placed ▸ List.mem_of_find?_eq_some here

theorem Plain.get?_ne_link (plain : v.Plain) (loc : Location) (target : Path) :
    v.get? loc ≠ some (.link target) := by
  cases loc with
  | nil => simp [get?]
  | cons name d => exact fun found => plain.noLinks _ (mem_of_get? found) target rfl

/-- What is named stands in a directory. -/
theorem Plain.of_get? (plain : v.Plain) {node : Node} (there : v.get? (name :: d) = some node) :
    IsName name ∧ name.utf8ByteSize ≤ maxName ∧ v.isDirAt d = true := by
  obtain ⟨name', d', same, isName, short, isDir⟩ := plain.named _ (mem_of_get? there)
  cases same
  exact ⟨isName, short, isDir⟩

theorem Plain.isName (plain : v.Plain) {node : Node} (there : v.get? (name :: d) = some node) :
    IsName name :=
  (plain.of_get? there).1

theorem Plain.size_name (plain : v.Plain) {node : Node} (there : v.get? (name :: d) = some node) :
    name.utf8ByteSize ≤ maxName :=
  (plain.of_get? there).2.1

theorem Plain.isDirAt_of_get? (plain : v.Plain) {node : Node}
    (there : v.get? (name :: d) = some node) : v.isDirAt d = true :=
  (plain.of_get? there).2.2

theorem dirAt_of_none (gone : v.isDirAt loc = false) (parts : List String) :
    v.dirAt loc parts = none := by
  cases parts <;> simp [dirAt, gone]

theorem isDirAt_of_dirAt {parts : List String} (found : v.dirAt loc parts = some d) :
    v.isDirAt loc = true := by
  cases here : v.isDirAt loc with
  | true => rfl
  | false =>
    rw [dirAt_of_none here] at found
    cases found

theorem isDirAt_dirAt {parts : List String} (found : v.dirAt loc parts = some d) :
    v.isDirAt d = true := by
  fun_induction dirAt v loc parts with
  | case1 loc here =>
    cases found
    exact here
  | case2 | case3 | case6 => cases found
  | case4 loc part rest _ _ ih | case5 loc rest _ _ ih | case7 loc part rest _ _ _ _ ih =>
    exact ih found

theorem dirAt_congr (same : ∀ loc, w.isDirAt loc = v.isDirAt loc) (loc : Location)
    (parts : List String) : w.dirAt loc parts = v.dirAt loc parts := by
  induction parts generalizing loc with
  | nil => simp [dirAt, same]
  | cons part rest ih => simp [dirAt, same, ih]

theorem walk_cons (plain : v.Plain) (purpose : Purpose) (links : Nat) (part : String)
    {rest : List String} (more : rest.all (· = "") = false) :
    v.walk purpose links loc (part :: rest) =
      if !v.isDirAt loc then .error .notDirectory
      else if part = "" || part = "." then v.walk purpose links loc rest
      else if part = ".." then v.walk purpose links loc.tail rest
      else if part.utf8ByteSize > maxName then .error .nameTooLong
      else if (v.get? (part :: loc)).isNone then .error .notFound
      else v.walk purpose links (part :: loc) rest := by
  rw [walk]
  simp only [more, Bool.and_false, Bool.false_eq_true, if_false]
  cases found : v.get? (part :: loc) with
  | none => simp
  | some node =>
    cases node with
    | link target => exact absurd found (plain.get?_ne_link _ target)
    | dir | file bytes => simp

/-- What a walk that goes through makes of the part at its front. -/
inductive Walked (v : Volume) (purpose : Purpose) (links : Nat) (loc : Location) :
    String → List String → Spot → Prop where
  | blank {part : String} {rest : List String} {spot : Spot} (blank : part = "" ∨ part = ".")
      (walked : v.walk purpose links loc rest = .ok spot) : Walked v purpose links loc part rest spot
  | up {rest : List String} {spot : Spot} (walked : v.walk purpose links loc.tail rest = .ok spot) :
      Walked v purpose links loc ".." rest spot
  | down {part : String} {rest : List String} {spot : Spot}
      (step : part ≠ "" ∧ part ≠ "." ∧ part ≠ "..") (there : (v.get? (part :: loc)).isSome = true)
      (walked : v.walk purpose links (part :: loc) rest = .ok spot) :
      Walked v purpose links loc part rest spot
  | vacant {part : String} {rest : List String} (step : part ≠ "" ∧ part ≠ "." ∧ part ≠ "..")
      (short : part.utf8ByteSize ≤ maxName) (none : v.get? (part :: loc) = none) :
      Walked v purpose links loc part rest (.vacant (part :: loc) (!rest.isEmpty))

/-- Without links a walk that goes through takes its parts one after the other. -/
theorem walked_of_walk (noLink : ∀ loc target, v.get? loc ≠ some (.link target)) {purpose : Purpose}
    {links : Nat} {part : String} {rest : List String} {spot : Spot}
    (walked : v.walk purpose links loc (part :: rest) = .ok spot) :
    v.isDirAt loc = true ∧ v.Walked purpose links loc part rest spot := by
  rw [walk] at walked
  split at walked
  · cases walked
  next isDir =>
    refine ⟨by simpa using isDir, ?_⟩
    split at walked
    next blank => exact .blank (by simpa using blank) walked
    next filled =>
      simp only [Bool.or_eq_true, decide_eq_true_eq, not_or] at filled
      split at walked
      next up => exact up ▸ .up walked
      next down =>
        split at walked
        · cases walked
        split at walked
        · cases walked
        next short =>
          have step := And.intro filled.1 (And.intro filled.2 down)
          split at walked
          next none =>
            split at walked
            · cases walked
              exact .vacant step (Nat.not_lt.mp short) none
            · cases walked
          -- of the last choices only the one for a link is left out
          next target link => exact absurd link (noLink _ target)
          next there => exact .down step (there ▸ rfl) walked

theorem all_empty_concat (isName : IsName name) (parts : List String) :
    (parts ++ [name]).all (· = "") = false := by
  simp [isName.ne_empty]

theorem walk_concat (plain : v.Plain) (isName : IsName name) (purpose : Purpose) (links : Nat)
    (parts : List String) (found : v.dirAt loc parts = some d) :
    v.walk purpose links loc (parts ++ [name]) =
      if name.utf8ByteSize > maxName then .error .nameTooLong
      else if (v.get? (name :: d)).isNone then .ok (.vacant (name :: d) false)
      else .ok (.node (name :: d)) := by
  induction parts generalizing loc with
  | nil =>
    have isDir := isDirAt_of_dirAt found
    obtain rfl : loc = d := by simpa [dirAt, isDir] using found
    rw [List.nil_append, walk]
    simp only [isDir, isName.ne_empty, isName.ne_dot, isName.ne_dots]
    -- the last part is looked up, and a link is never found
    cases here : v.get? (name :: loc) with
    | none => simp
    | some node =>
      cases node with
      | link target => exact absurd here (plain.get?_ne_link _ target)
      | dir | file bytes => simp [walk]
  | cons part rest ih =>
    -- a part before it stands for the same directory in the walk and in `dirAt`
    rw [List.cons_append, walk_cons plain purpose links part (all_empty_concat isName rest)]
    unfold dirAt at found
    split at found
    next => cases found
    next isDir =>
      rw [if_neg isDir]
      split at found
      next step => rw [if_pos step, ih found]
      next step =>
        rw [if_neg step]
        split at found
        next up => rw [if_pos up, ih found]
        next down =>
          rw [if_neg down]
          split at found
          next => cases found
          next short =>
            have there := isDirAt_of_dirAt found
            have some : (v.get? (part :: loc)).isNone = false := by
              cases here : v.get? (part :: loc) with
              | none => simp [isDirAt, here] at there
              | some node => rfl
            rw [if_neg short, some, ih found]
            simp

theorem walk_concat_error (plain : v.Plain) (isName : IsName name) (purpose : Purpose) (links : Nat)
    (parts : List String) (lost : v.dirAt loc parts = none) :
    ∃ e, v.walk purpose links loc (parts ++ [name]) = .error e := by
  induction parts generalizing loc with
  | nil =>
    have gone : v.isDirAt loc = false := by simpa [dirAt] using lost
    exact ⟨.notDirectory, by rw [List.nil_append, walk]; simp [gone]⟩
  | cons part rest ih =>
    rw [List.cons_append, walk_cons plain purpose links part (all_empty_concat isName rest)]
    unfold dirAt at lost
    split at lost
    next gone => exact ⟨_, if_pos gone⟩
    next isDir =>
      rw [if_neg isDir]
      split at lost
      next step => rw [if_pos step]; exact ih lost
      next step =>
        rw [if_neg step]
        split at lost
        next up => rw [if_pos up]; exact ih lost
        next down =>
          rw [if_neg down]
          split at lost
          next long => exact ⟨_, if_pos long⟩
          next short =>
            rw [if_neg short]
            split
            · exact ⟨_, rfl⟩
            · exact ih lost

end Lookup

section Spots
variable {v : Volume} {p : Path} {loc d : Location} {name dir : String} {node : Node}

/-- A path that the system takes at all. -/
def Fits (p : Path) : Prop :=
  p.hasNull = false ∧ p.text.utf8ByteSize ≤ maxPath

theorem walk_of_spot {purpose : Purpose} {spot : Spot} (found : v.spot purpose p = .ok spot) :
    Fits p ∧ p.text ≠ "" ∧ v.walk purpose maxLinks (v.startOf p) p.parts = .ok spot := by
  unfold Volume.spot at found
  split at found
  · cases found
  next noNull =>
    split at found
    · cases found
    next written =>
      split at found
      · cases found
      next short => exact ⟨⟨by simpa using noNull, Nat.not_lt.mp short⟩, written, found⟩

theorem spot_of_locate (located : v.locate p = .ok loc) :
    v.spot .use p = .ok (.node loc) := by
  unfold locate at located
  split at located <;> simp_all

theorem locate_of_node? (found : v.node? p = some node) :
    ∃ loc, v.locate p = .ok loc ∧ v.get? loc = some node := by
  obtain ⟨loc, located, got⟩ := Option.bind_eq_some_iff.mp found
  refine ⟨loc, ?_, got⟩
  cases here : v.locate p <;> simp_all [Except.toOption]

theorem spot_eq (fits : Fits p) (written : p.text ≠ "") (purpose : Purpose) :
    v.spot purpose p = v.walk purpose maxLinks (v.startOf p) p.parts := by
  rw [spot, fits.1, if_neg Bool.false_ne_true, if_neg written, if_neg (Nat.not_lt.mpr fits.2)]
  rfl

theorem isDir_of_locate (located : v.locate p = .ok loc) : v.isDir p = v.isDirAt loc := by
  rw [isDir, node?, located]
  rfl

theorem isFile_of_locate (located : v.locate p = .ok loc) :
    v.isFile p = (v.get? loc).any Node.isFile := by
  rw [isFile, node?, located]
  rfl

theorem dirAt_concat (isName : IsName name) (loc : Location) (parts : List String) :
    v.dirAt loc (parts ++ [name]) =
      (v.dirAt loc parts).bind fun d =>
        if name.utf8ByteSize ≤ maxName ∧ v.isDirAt (name :: d) = true then some (name :: d)
        else none := by
  induction parts generalizing loc with
  | nil =>
    by_cases here : v.isDirAt loc = true
    · by_cases long : name.utf8ByteSize > maxName
      · simp [dirAt, here, isName.ne_empty, isName.ne_dot, isName.ne_dots, long, Nat.not_le.mpr long]
      · simp [dirAt, here, isName.ne_empty, isName.ne_dot, isName.ne_dots, long, Nat.not_lt.mp long]
    · simp [dirAt, here]
  | cons part rest ih =>
    rw [List.cons_append, dirAt, dirAt]
    by_cases here : (!v.isDirAt loc) = true
    · simp [here]
    by_cases step : (part = "" || part = ".") = true
    · simp only [here, step, if_true, ih]
      rfl
    by_cases up : part = ".."
    · simp only [here, up, if_true, ih]
      rfl
    by_cases long : part.utf8ByteSize > maxName
    · simp [here, step, up, long]
    · simp only [here, step, up, long, if_false, ih]
      rfl

section Child
variable (isName : IsName name)
include isName

/-- The parts in front of a name, those of the directory apart from a blank one at their end. -/
theorem exists_parts_child (v : Volume) (loc : Location) (written : p.text ≠ "") :
    ∃ before, (p.child name).parts = before ++ [name] ∧
      v.dirAt loc p.parts = v.dirAt loc before := by
  obtain ⟨before, split, -, own⟩ := Path.parts_join written (Path.not_isAbsolute isName)
  have name : Path.parts ⟨name⟩ = [name] := by
    simp [Path.parts, Path.pieces_of_not_mem isName.noSlash]
  refine ⟨before, by rw [Path.child, split, name], ?_⟩
  have blank (parts : List String) (loc : Location) :
      v.dirAt loc (parts ++ [""]) = v.dirAt loc parts := by
    induction parts generalizing loc with
    | nil => simp [dirAt]
    | cons part parts ih => simp only [List.cons_append, dirAt, ih]
  rcases own with own | own
  · rw [own]
  · rw [own, blank]

theorem startOf_child (v : Volume) (p : Path) : v.startOf (p.child name) = v.startOf p := by
  rw [startOf, startOf, Path.isAbsolute_child p isName]

/-- The directories in a directory. -/
theorem dirOf?_child (written : p.text ≠ "") :
    v.dirOf? (p.child name) =
      (v.dirOf? p).bind fun d =>
        if name.utf8ByteSize ≤ maxName ∧ v.isDirAt (name :: d) = true then some (name :: d)
        else none := by
  obtain ⟨before, split, same⟩ := exists_parts_child isName v (v.startOf p) written
  rw [dirOf?, startOf_child isName, split, dirAt_concat isName, dirOf?, same]

/-- What a name in a directory leads to, whatever for. -/
theorem spot_child (plain : v.Plain) (written : p.text ≠ "") (purpose : Purpose)
    (fits : Fits (p.child name)) (found : v.dirOf? p = some d) :
    v.spot purpose (p.child name) =
      if name.utf8ByteSize > maxName then .error .nameTooLong
      else if (v.get? (name :: d)).isNone then .ok (.vacant (name :: d) false)
      else .ok (.node (name :: d)) := by
  obtain ⟨before, split, same⟩ := exists_parts_child isName v (v.startOf p) written
  have filled := Path.text_ne_empty isName (p.endsIn_child isName)
  rw [spot_eq fits filled, startOf_child isName, split]
  exact walk_concat plain isName purpose maxLinks before (same.symm.trans found)

theorem spot_child_error (plain : v.Plain) (written : p.text ≠ "") (purpose : Purpose)
    (lost : ¬ Fits (p.child name) ∨ v.dirOf? p = none) :
    ∃ e, v.spot purpose (p.child name) = .error e := by
  obtain ⟨before, split, same⟩ := exists_parts_child isName v (v.startOf p) written
  by_cases fits : Fits (p.child name)
  · have filled := Path.text_ne_empty isName (p.endsIn_child isName)
    have lost := lost.resolve_left (not_not_intro fits)
    rw [spot_eq fits filled, startOf_child isName, split]
    exact walk_concat_error plain isName purpose maxLinks before (same.symm.trans lost)
  · cases spotted : v.spot purpose (p.child name) with
    | error e => exact ⟨e, rfl⟩
    | ok spot => exact absurd (walk_of_spot spotted).1 fits

theorem exists_text_child (p : Path) :
    ∃ tail, (p.child name).text = p.text ++ tail ∧ '\x00' ∉ tail.toList := by
  have noNull := isName.noNull
  by_cases written : p.text = ""
  · exact ⟨name, by simp [Path.child, Path.join, written], noNull⟩
  · obtain ⟨before, text, same | same⟩ :=
      Path.exists_text_join written (Path.not_isAbsolute isName)
    · refine ⟨"/" ++ name, by rw [Path.child, text, same, String.append_assoc], ?_⟩
      simp [noNull]
    · exact ⟨name, by rw [Path.child, text, same], noNull⟩

theorem Fits.of_child (fits : Fits (p.child name)) : Fits p := by
  obtain ⟨tail, text, -⟩ := exists_text_child isName p
  obtain ⟨noNull, short⟩ := fits
  rw [text, String.utf8ByteSize_append] at short
  refine ⟨?_, by omega⟩
  simp_all [Path.hasNull]

omit isName in
theorem Fits.of_foldl_child {names : List String} (fits : Fits (names.foldl Path.child p))
    (named : ∀ name ∈ names, IsName name) : Fits p := by
  induction names generalizing p with
  | nil => exact fits
  | cons name names ih =>
    obtain ⟨isName, others⟩ := List.forall_mem_cons.mp named
    exact (ih fits others).of_child isName

omit isName in
theorem not_hasNull_foldl_child {names : List String} (noNull : p.hasNull = false)
    (named : ∀ name ∈ names, IsName name) : (names.foldl Path.child p).hasNull = false := by
  induction names generalizing p with
  | nil => exact noNull
  | cons name names ih =>
    obtain ⟨isName, others⟩ := List.forall_mem_cons.mp named
    obtain ⟨tail, text, absent⟩ := exists_text_child isName p
    refine ih ?_ others
    simp_all [Path.hasNull]

end Child

theorem get?_of_isDirAt (isDir : v.isDirAt loc = true) : v.get? loc = some .dir := by
  obtain ⟨node, there, kind⟩ := Option.any_eq_true _ _ |>.mp isDir
  cases node with
  | dir => exact there
  | file | link => cases kind

theorem walk_of_dirAt (links : Nat) {parts : List String} (found : v.dirAt loc parts = some d) :
    v.walk .use links loc parts = .ok (.node d) := by
  fun_induction dirAt v loc parts with
  | case1 loc =>
    cases found
    rw [walk]
  | case2 | case3 | case6 => cases found
  | case4 loc part rest here blank ih =>
    rw [walk, if_neg here, if_pos blank, ih found]
  | case5 loc rest here blank ih =>
    rw [walk, if_neg here, if_neg blank, if_pos rfl, ih found]
  | case7 loc part rest here filled down short ih =>
    rw [walk, if_neg here, if_neg filled, if_neg down, if_neg short,
      get?_of_isDirAt (isDirAt_of_dirAt found)]
    simpa using ih found

theorem locate_of_fits (fits : Fits p) (written : p.text ≠ "") (found : v.dirOf? p = some d) :
    v.locate p = .ok d := by
  rw [locate, spot_eq fits written, walk_of_dirAt _ found]

section Plain
variable (plain : v.Plain)
include plain

theorem dirAt_of_walk {links : Nat} {parts : List String}
    (walked : v.walk .use links loc parts = .ok (.node d)) (isDir : v.isDirAt d = true) :
    v.dirAt loc parts = some d := by
  induction parts generalizing loc with
  | nil =>
    rw [walk] at walked
    cases walked
    rw [dirAt, if_pos isDir]
  | cons part rest ih =>
    rw [walk] at walked
    rw [dirAt]
    split at walked
    · cases walked
    next here =>
      rw [if_neg here]
      split at walked
      next blank => rw [if_pos blank, ih walked]
      next filled =>
        rw [if_neg filled]
        split at walked
        next up => rw [if_pos up, ih walked]
        next down =>
          rw [if_neg down]
          split at walked
          · cases walked
          split at walked
          · cases walked
          next short =>
            rw [if_neg short]
            split at walked
            · split at walked <;> cases walked
            next target found => exact absurd found (plain.get?_ne_link _ target)
            next => exact ih walked

/-- When a path leads to a directory. -/
theorem isDir_iff_dirOf? :
    v.isDir p = true ↔ Fits p ∧ p.text ≠ "" ∧ ∃ d, v.dirOf? p = some d := by
  constructor
  · intro isDir
    obtain ⟨node, there, -⟩ := Option.any_eq_true _ _ |>.mp isDir
    obtain ⟨loc, located, -⟩ := locate_of_node? there
    obtain ⟨fits, written, walked⟩ := walk_of_spot (spot_of_locate located)
    rw [isDir_of_locate located] at isDir
    exact ⟨fits, written, loc, dirAt_of_walk plain walked isDir⟩
  · rintro ⟨fits, written, d, found⟩
    rw [isDir_of_locate (locate_of_fits fits written found)]
    exact isDirAt_dirAt found

theorem dirOf?_of_locate (isDir : v.isDir p = true) (located : v.locate p = .ok d) :
    v.dirOf? p = some d := by
  obtain ⟨fits, written, e, found⟩ := (isDir_iff_dirOf? plain).mp isDir
  obtain rfl : e = d := Except.ok.inj ((locate_of_fits fits written found).symm.trans located)
  exact found

/-- What a name in a directory leads to. -/
theorem locate_child (isName : IsName name) (written : p.text ≠ "") (fits : Fits (p.child name))
    (found : v.dirOf? p = some d) (there : v.get? (name :: d) = some node) :
    v.locate (p.child name) = .ok (name :: d) := by
  rw [locate, spot_child isName plain written .use fits found,
    if_neg (Nat.not_lt.mpr (plain.size_name there)), there]
  rfl

theorem exists_entries (isDir : v.isDir p = true) :
    ∃ d, v.dirOf? p = some d ∧ v.entries p = (v.namesAt d).map p.child := by
  obtain ⟨fits, written, d, found⟩ := (isDir_iff_dirOf? plain).mp isDir
  exact ⟨d, found, by rw [entries, if_pos isDir, locate_of_fits fits written found]⟩

theorem locate_of_dirOf? (isDir : IsName dir) (ends : p.EndsIn dir) (fits : Fits p)
    (found : v.dirOf? p = some d) : v.locate p = .ok d ∧ v.isDir p = true := by
  have written := Path.text_ne_empty isDir ends
  exact ⟨locate_of_fits fits written found, (isDir_iff_dirOf? plain).mpr ⟨fits, written, d, found⟩⟩

end Plain

end Spots

end HeaderMeta.Volume
