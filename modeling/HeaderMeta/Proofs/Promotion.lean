import HeaderMeta.Proofs.Tally

/-! Which verdicts base promotion changes.

Promotion looks at the plain verdicts and enters some names again, so what matters is what is found
under a name afterwards. It finds bases through their resolved names, and an opted-out type is the
only kind that it touches.
-/

set_option autoImplicit false

namespace HeaderMeta

namespace Verdicts
variable {vs : Verdicts} {name : String} {v : Verdict}

section Lookup
variable {α : Type} {as : List α} {key : α → String} {value : α → Verdict}

theorem get?_insert (vs : Verdicts) (name other : String) (v : Verdict) :
    (vs.insert name v).get? other = if name = other then some v else vs.get? other := by
  obtain ⟨entries⟩ := vs
  unfold insert get?
  induction entries with
  | nil => by_cases same : name = other <;> simp [insertIn, same]
  | cons e es ih =>
    by_cases here : e.1 = name
    · subst here
      by_cases same : e.1 = other <;> simp [insertIn, same]
    · simp only [insertIn, here, if_false, List.find?_cons]
      by_cases found : e.1 = other
      · simp [found, show ¬ name = other from fun same => here (found.trans same.symm)]
      · simpa [found] using ih

theorem get?_foldl_insert_of_not_mem (fresh : name ∉ as.map key) :
    (as.foldl (fun vs a => vs.insert (key a) (value a)) vs).get? name = vs.get? name := by
  induction as generalizing vs with
  | nil => rfl
  | cons a as ih =>
    rw [List.map_cons, List.mem_cons, not_or] at fresh
    rw [List.foldl_cons, ih fresh.2, get?_insert, if_neg (Ne.symm fresh.1)]

/-- Of names that are entered once, each is found with its own verdict. -/
theorem get?_foldl_insert (key : α → String) (value : α → Verdict)
    (distinct : (as.map key).Nodup) {a : α} (mem : a ∈ as) :
    (as.foldl (fun vs a => vs.insert (key a) (value a)) vs).get? (key a) = some (value a) := by
  induction as generalizing vs with
  | nil => cases mem
  | cons b as ih =>
    obtain ⟨fresh, others⟩ := List.nodup_cons.mp distinct
    rw [List.foldl_cons]
    rcases List.mem_cons.mp mem with rfl | later
    · rw [get?_foldl_insert_of_not_mem fresh, get?_insert, if_pos rfl]
    · exact ih others later

theorem get?_promote (vs : Verdicts) (names : List String) (name : String) :
    (vs.promote names).get? name =
      if name ∈ names then some .dummyRequired else vs.get? name := by
  unfold promote
  induction names generalizing vs with
  | nil => rfl
  | cons n names ih =>
    rw [List.foldl_cons, ih, get?_insert]
    by_cases later : name ∈ names
    · simp [later]
    · by_cases first : n = name
      · simp [first]
      · simp [later, first, Ne.symm first]

end Lookup

theorem mem_basesToPromote {index : TypeIndex} :
    name ∈ index.basesToPromote vs ↔
      (∃ w, vs.get? name = some w ∧ w.isNoReflect = true) ∧
        ∃ e ∈ vs.entries, e.2 = .reflectable ∧
          ∃ decl, index.decl? e.1 = some decl ∧ ∃ b ∈ decl.bases, b.resolved = some name := by
  have optedOut : (vs.get? name).any Verdict.isNoReflect = true ↔
      ∃ w, vs.get? name = some w ∧ w.isNoReflect = true := Option.any_eq_true _ _
  constructor
  · intro mem
    obtain ⟨e, entered, promoted⟩ := List.mem_flatMap.mp mem
    split at promoted
    next full =>
      obtain ⟨b, base, kept⟩ := List.mem_filterMap.mp promoted
      obtain ⟨resolved, out⟩ := Option.filter_eq_some_iff.mp kept
      cases found : index.decl? e.1 with
      | none => simp [found] at base
      | some decl =>
        rw [found] at base
        exact ⟨optedOut.mp out, e, entered, full, decl, found, b, base, resolved⟩
    next => cases promoted
  · rintro ⟨out, e, entered, full, decl, found, b, base, resolved⟩
    refine List.mem_flatMap.mpr ⟨e, entered, ?_⟩
    rw [if_pos full, found]
    exact List.mem_filterMap.mpr
      ⟨b, base, Option.filter_eq_some_iff.mpr ⟨resolved, optedOut.mpr out⟩⟩

section Module
variable {policy : PolicyConfig} {texts : HeaderTexts} {index : TypeIndex}
variable {isCandidate : Path → Bool} {t : IndexedType}

theorem get?_plain (distinct : index.names.Nodup) (mem : t ∈ index.eligible isCandidate) :
    (plain policy texts index isCandidate).get? t.name = some (policy.verdict texts t.decl) := by
  have apart : ((index.eligible isCandidate).map IndexedType.name).Nodup :=
    distinct.sublist ((List.filter_sublist.trans List.filter_sublist).map _)
  exact get?_foldl_insert IndexedType.name (fun t => policy.verdict texts t.decl) apart mem

/-- Some type that may have a verdict, and is reflectable by itself, has a base of this name. -/
def Derived (policy : PolicyConfig) (texts : HeaderTexts) (listed : List IndexedType)
    (name : String) : Prop :=
  ∃ d ∈ listed, policy.verdict texts d.decl = .reflectable ∧
    ∃ b ∈ d.decl.bases, b.resolved = some name

theorem mem_basesToPromote_plain (distinct : index.names.Nodup)
    (mem : t ∈ index.eligible isCandidate) :
    t.name ∈ index.basesToPromote (plain policy texts index isCandidate) ↔
      (policy.verdict texts t.decl).isNoReflect = true ∧
        Derived policy texts (index.eligible isCandidate) t.name := by
  have inside {d : IndexedType} (listed : d ∈ index.eligible isCandidate) : d ∈ index.entries :=
    List.mem_of_mem_filter (List.mem_of_mem_filter listed)
  rw [mem_basesToPromote, get?_plain distinct mem]
  refine and_congr (by simp) ⟨?_, ?_⟩
  · rintro ⟨⟨name, v⟩, entered, full, decl, found, base⟩
    have within := within_plain policy texts index isCandidate
    obtain ⟨d, listed, rfl⟩ :=
      List.mem_map.mp (within.known name (List.mem_map_of_mem (f := (·.1)) entered))
    obtain rfl : d.decl = decl :=
      Option.some.inj ((TypeIndex.decl?_of_mem distinct (inside listed)).symm.trans found)
    have own := (get?_of_mem within.distinct entered).symm.trans (get?_plain distinct listed)
    exact ⟨d, listed, (Option.some.inj own).symm.trans full, base⟩
  · rintro ⟨d, listed, full, base⟩
    exact ⟨(d.name, .reflectable), mem_of_get? (full ▸ get?_plain distinct listed), rfl, d.decl,
      TypeIndex.decl?_of_mem distinct (inside listed), base⟩

/-- The verdict on a type in the end: its own, unless it is opted out and somebody derives from it. -/
theorem get?_ofModule (distinct : index.names.Nodup) (mem : t ∈ index.eligible isCandidate)
    [Decidable (Derived policy texts (index.eligible isCandidate) t.name)] :
    (ofModule policy texts index isCandidate).get? t.name = some
      (if (policy.verdict texts t.decl).isNoReflect = true ∧
          Derived policy texts (index.eligible isCandidate) t.name then .dummyRequired
        else policy.verdict texts t.decl) := by
  simp only [ofModule, get?_promote, mem_basesToPromote_plain distinct mem,
    get?_plain distinct mem]
  split <;> rfl

theorem get?_ofModule_reflectable (distinct : index.names.Nodup)
    (mem : t ∈ index.eligible isCandidate) :
    (ofModule policy texts index isCandidate).get? t.name = some .reflectable ↔
      policy.verdict texts t.decl = .reflectable := by
  classical
  rw [get?_ofModule distinct mem, Option.some.injEq]
  split
  next promoted => cases own : policy.verdict texts t.decl <;> simp [own, Verdict.isNoReflect] at promoted ⊢
  next => rfl

theorem eligible_eq : index.eligible isCandidate =
    index.entries.filter fun t => isCandidate t.decl.path && t.accessible && !t.templated := by
  rw [TypeIndex.eligible, TypeIndex.candidates, List.filter_filter]
  exact List.filter_congr fun t _ => by
    cases isCandidate t.decl.path <;> cases t.accessible <;> cases t.templated <;> rfl

/-- The verdicts of a module are those of the types that are declared in its files, public and no
templates, in the order of the index. Each is the verdict on the type by itself, except that an
opted-out type becomes a dummy where a type that ends as reflectable has it as a base. An index has one
entry for a name, as `TypeIndex.ofRoot` enters the types of a tree. -/
theorem ofModule_promotes_bases (policy : PolicyConfig) (texts : HeaderTexts) (index : TypeIndex)
    (isCandidate : Path → Bool) (distinct : index.names.Nodup) :
    let verdicts := ofModule policy texts index isCandidate
    let listed := index.entries.filter fun t =>
      isCandidate t.decl.path && t.accessible && !t.templated
    let derived := fun name : String => ∃ d ∈ listed, verdicts.get? d.name = some .reflectable ∧
      ∃ b ∈ d.decl.bases, b.resolved = some name
    verdicts.entries.map (·.1) = listed.map IndexedType.name ∧
    (listed.map IndexedType.name).Nodup ∧
    (∀ t ∈ listed, (policy.verdict texts t.decl).isNoReflect = true → derived t.name →
      verdicts.get? t.name = some .dummyRequired) ∧
    (∀ t ∈ listed, ¬ ((policy.verdict texts t.decl).isNoReflect = true ∧ derived t.name) →
      verdicts.get? t.name = some (policy.verdict texts t.decl)) ∧
    (∀ t ∈ listed, derived t.name → ∀ v, verdicts.get? t.name = some v → v.isNoReflect = false) ∧
    ∀ t ∈ listed, policy.verdict texts t.decl = .reflectable →
      verdicts.get? t.name = some .reflectable := by
  intro verdicts listed derived
  classical
  have same : listed = index.eligible isCandidate := eligible_eq.symm
  -- what ends as reflectable is so by its own verdict: promotion makes dummies only
  have derived_iff (name : String) :
      derived name ↔ Derived policy texts (index.eligible isCandidate) name := by
    simp only [derived, Derived, same]
    exact exists_congr fun d => and_congr_right fun mem =>
      and_congr_left fun _ => get?_ofModule_reflectable distinct mem
  have found {t : IndexedType} (mem : t ∈ listed) : verdicts.get? t.name = _ :=
    get?_ofModule distinct (same ▸ mem)
  simp only [← derived_iff] at found
  refine ⟨?_, ?_, ?_, ?_, ?_, ?_⟩
  · rw [same]
    exact map_ofModule policy texts index isCandidate distinct
  · exact distinct.sublist (List.filter_sublist.map _)
  · intro t mem out base
    rw [found mem, if_pos ⟨out, base⟩]
  · intro t mem kept
    rw [found mem, if_neg kept]
  · intro t mem base v verdict
    rw [found mem, Option.some.injEq] at verdict
    subst verdict
    split
    next => rfl
    next kept => simpa [base] using kept
  · intro t mem full
    exact (get?_ofModule_reflectable distinct (same ▸ mem)).mpr full

/-- Classes are opted out and structs are not. Two structs derive from `Base`, one of them through
the other, before it is declared; what derives from `Frost` is opted out itself or hidden. -/
def family : TypeIndex :=
  let path : Path := ⟨"core/a.hpp"⟩
  let base (name : String) : Base := { spelling := name, resolved := some name, access := .pub }
  ⟨[⟨{ name := "Leaf", key := .struct, path, bases := [base "Mid", base "Base"] }, true, false⟩,
    ⟨{ name := "Mid", key := .struct, path, bases := [base "Base"] }, true, false⟩,
    ⟨{ name := "Base", key := .cls, path }, true, false⟩,
    ⟨{ name := "Cold", key := .cls, path, bases := [base "Frost"] }, true, false⟩,
    ⟨{ name := "Inner", key := .struct, path, bases := [base "Frost"] }, false, false⟩,
    ⟨{ name := "Any", key := .struct, path, bases := [base "Frost"] }, true, true⟩,
    ⟨{ name := "Frost", key := .cls, path }, true, false⟩]⟩

theorem ofModule_promotes_bases_family :
    let policy : PolicyConfig := { structDefault := .reflect }
    let verdicts := ofModule policy ⟨[]⟩ family fun _ => true
    family.names.Nodup ∧
      verdicts.entries.map (·.1) = ["Leaf", "Mid", "Base", "Cold", "Frost"] ∧
      verdicts.get? "Mid" = some .reflectable ∧
      verdicts.get? "Base" = some .dummyRequired ∧
      verdicts.get? "Frost" = some .noReflectDefault := by
  intro policy verdicts
  have distinct : family.names.Nodup := by decide
  obtain ⟨names, -, promoted, kept, -, full⟩ :=
    ofModule_promotes_bases policy ⟨[]⟩ family (fun _ => true) distinct
  have mid : verdicts.get? "Mid" = some .reflectable :=
    full family.entries[1] (List.mem_filter.mpr ⟨List.getElem_mem _, by decide⟩) (by decide)
  have base : verdicts.get? "Base" = some .dummyRequired :=
    promoted family.entries[2] (List.mem_filter.mpr ⟨List.getElem_mem _, by decide⟩) (by decide)
      ⟨family.entries[1], List.mem_filter.mpr ⟨List.getElem_mem _, by decide⟩, mid, _,
        List.mem_cons_self, rfl⟩
  refine ⟨distinct, names.trans (by decide), mid, base, ?_⟩
  refine kept family.entries[6] (List.mem_filter.mpr ⟨List.getElem_mem _, by decide⟩) ?_
  rintro ⟨-, d, listed, reflectable, derives⟩
  have cold : verdicts.get? "Cold" ≠ some .reflectable := by decide
  have users : ∀ d ∈ family.entries, (∃ b ∈ d.decl.bases, b.resolved = some "Frost") →
      d.name = "Cold" ∨ d.accessible = false ∨ d.templated = true := by decide
  obtain ⟨entry, eligible⟩ := List.mem_filter.mp listed
  rcases users d entry derives with named | hidden | templated
  · exact cold (named ▸ reflectable)
  · simp [hidden] at eligible
  · simp [templated] at eligible

end Module

end Verdicts

end HeaderMeta
