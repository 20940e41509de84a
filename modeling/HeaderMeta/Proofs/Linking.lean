import HeaderMeta.Proofs.Emission
import HeaderMeta.Proofs.NestedCycle

/-! Which of the constructors that generated code calls are generated too.

A reflectable type calls the constructors of the records its members nest and of the bases it
delegates to. Neither decision looks at what becomes of the other type, so a call may be left without
a definition: of a nested record that is opted out, and of a base that is given up for a cycle.
-/

set_option autoImplicit false

namespace HeaderMeta

namespace Verdicts
variable {vs : Verdicts} {name other : String} {v w : Verdict}

structure Within (names : List String) (vs : Verdicts) : Prop where
  distinct : (vs.entries.map (·.1)).Nodup
  known : ∀ n ∈ vs.entries.map (·.1), n ∈ names

theorem map_insertIn (name : String) (v : Verdict) (es : List (String × Verdict)) :
    (insertIn name v es).map (·.1) =
      if name ∈ es.map (·.1) then es.map (·.1) else es.map (·.1) ++ [name] := by
  induction es with
  | nil => rfl
  | cons e es ih =>
    by_cases same : e.1 = name
    · simp [insertIn, same]
    · simp only [insertIn, same, if_false, List.map_cons, ih, List.mem_cons, Ne.symm same, false_or]
      split <;> simp

theorem Within.insert {names : List String} (within : vs.Within names) (known : name ∈ names)
    (v : Verdict) : (vs.insert name v).Within names := by
  have entered : (vs.insert name v).entries.map (·.1) = _ := map_insertIn name v vs.entries
  refine ⟨?_, ?_⟩ <;> rw [entered] <;> split
  · exact within.distinct
  next fresh =>
    refine List.nodup_append.mpr ⟨within.distinct, by simp, ?_⟩
    rintro a mem b here rfl
    exact fresh (List.mem_singleton.mp here ▸ mem)
  · exact within.known
  next fresh =>
    intro n mem
    rcases List.mem_append.mp mem with old | new
    · exact within.known n old
    · exact List.mem_singleton.mp new ▸ known

theorem Within.foldl_insert {α : Type} {names : List String} (as : List α) (key : α → String)
    (value : α → Verdict) (known : ∀ a ∈ as, key a ∈ names) (within : vs.Within names) :
    (as.foldl (fun vs a => vs.insert (key a) (value a)) vs).Within names := by
  induction as generalizing vs with
  | nil => exact within
  | cons a as ih =>
    obtain ⟨first, rest⟩ := List.forall_mem_cons.mp known
    exact ih rest (within.insert first (value a))

theorem mem_of_get? (found : vs.get? name = some v) : (name, v) ∈ vs.entries := by
  obtain ⟨e, here, rfl⟩ := Option.map_eq_some_iff.mp found
  have named : e.1 = name := by simpa using List.find?_some here
  exact named ▸ List.mem_of_find?_eq_some here

theorem get?_of_mem (distinct : (vs.entries.map (·.1)).Nodup) (mem : (name, v) ∈ vs.entries) :
    vs.get? name = some v := by
  obtain ⟨entries⟩ := vs
  unfold get?
  induction entries with
  | nil => cases mem
  | cons e es ih =>
    obtain ⟨fresh, others⟩ := List.nodup_cons.mp distinct
    rcases List.mem_cons.mp mem with rfl | later
    · simp
    · have differs : e.1 ≠ name := by
        rintro rfl
        exact fresh (List.mem_map_of_mem (f := (·.1)) later)
      simpa [List.find?_cons, differs] using ih others later

theorem Within.mono {names more : List String} (within : vs.Within names)
    (sub : ∀ n ∈ names, n ∈ more) : vs.Within more :=
  ⟨within.distinct, fun n mem => sub n (within.known n mem)⟩

/-- Only names that have a verdict are promoted. -/
theorem known_of_mem_basesToPromote {index : TypeIndex} (mem : name ∈ index.basesToPromote vs) :
    name ∈ vs.entries.map (·.1) := by
  obtain ⟨entry, -, promoted⟩ := List.mem_flatMap.mp mem
  split at promoted
  next =>
    obtain ⟨b, -, resolved⟩ := List.mem_filterMap.mp promoted
    obtain ⟨-, optedOut⟩ := Option.filter_eq_some_iff.mp resolved
    obtain ⟨w, found, -⟩ := Option.any_eq_true _ _ |>.mp optedOut
    exact List.mem_map_of_mem (f := (·.1)) (mem_of_get? found)
  next => cases promoted

section Module
variable (policy : PolicyConfig) (texts : HeaderTexts) (index : TypeIndex)
variable (isCandidate : Path → Bool)

theorem within_plain : (plain policy texts index isCandidate).Within
    ((index.eligible isCandidate).map IndexedType.name) :=
  Within.foldl_insert _ _ _ (fun _ mem => List.mem_map_of_mem mem) ⟨List.nodup_nil, nofun⟩

theorem within_eligible : (ofModule policy texts index isCandidate).Within
    ((index.eligible isCandidate).map IndexedType.name) := by
  have within := within_plain policy texts index isCandidate
  exact Within.foldl_insert _ id (fun _ => .dummyRequired)
    (fun name mem => within.known name (known_of_mem_basesToPromote mem)) within

theorem within_ofModule : (ofModule policy texts index isCandidate).Within index.names := by
  refine (within_eligible policy texts index isCandidate).mono fun name mem => ?_
  obtain ⟨t, inside, rfl⟩ := List.mem_map.mp mem
  exact List.mem_map_of_mem (List.mem_of_mem_filter (List.mem_of_mem_filter inside))

end Module

end Verdicts

namespace TypeIndex

theorem qualifiedName_of_decl? {index : TypeIndex} {name : String} {decl : TypeDecl}
    (found : index.decl? name = some decl) : decl.qualifiedName = name := by
  obtain ⟨t, here, rfl⟩ := Option.map_eq_some_iff.mp found
  have named : t.name = name := by simpa using List.find?_some here
  exact named

theorem exists_decl? {index : TypeIndex} {name : String} (known : name ∈ index.names) :
    ∃ decl, index.decl? name = some decl := by
  obtain ⟨t, mem, named⟩ := List.mem_map.mp known
  cases found : index.get? name with
  | none => exact absurd (decide_eq_true named) (List.find?_eq_none.mp found t mem)
  | some u => exact ⟨u.decl, by simp [decl?, found]⟩

/-- Where no cycle can be reached from a type, none can be reached from a record it nests. -/
theorem checkNestedCycles_of_nested {index : TypeIndex} {name nested : String} {decl : TypeDecl}
    {f : Field} (found : index.decl? name = some decl) (field : f ∈ decl.fields)
    (nests : f.memberClass = .nested nested) (fine : index.checkNestedCycles name = .ok ()) :
    index.checkNestedCycles nested = .ok () := by
  have passes (root : String) :
      index.checkNestedCycles root = .ok () ↔ index.nestedGraph.cycleFrom? root = none := by
    unfold checkNestedCycles nestedCycle?
    cases index.nestedGraph.cycleFrom? root <;> simp
  rw [passes, Graph.cycleFrom?_eq_none_iff] at fine ⊢
  intro a way
  exact fine a (.head (nestedGraph_edge_iff.mpr ⟨decl, found, f, field, nests⟩) way)

theorem checkNestedCycles_of_leaf {index : TypeIndex} {name : String}
    (leaf : index.nestedGraph.next name = []) : index.checkNestedCycles name = .ok () := by
  cases known : index.nestedGraph.nodes.contains name <;>
    simp_all [checkNestedCycles, nestedCycle?, Graph.cycleFrom?, Graph.visit,
      Graph.visitAll, Except.map]

end TypeIndex

namespace Survey
variable {config : Config} {s : Survey} {dir : Path} {name : String}

/-- A type is generated when its verdict asks for it, unless it is reflectable and leads into a
cycle. -/
theorem exists_target?_iff {v : Verdict} {decl : TypeDecl} (found : s.index.decl? name = some decl) :
    (∃ c, s.target? (name, v) = some (decl, c)) ↔
      v.emits = true ∧ (v = .reflectable → s.index.checkNestedCycles name = .ok ()) := by
  unfold target?
  cases v with
  | reflectable =>
    cases s.index.checkNestedCycles name <;> simp [Verdict.emits, found]
  | _ => simp [Verdict.emits, found]

theorem exists_generated {a : Artifact} {entries : List (String × Verdict)} {stems : Stems}
    (mem : a ∈ s.artifactsFrom config dir stems entries) :
    ∃ entry ∈ entries, ∃ decl c stem, s.target? entry = some (decl, c) ∧
      a ∈ Artifact.generate config.emit dir decl entry.2 c stem := by
  fun_induction artifactsFrom config s dir stems entries with
  | case1 => cases mem
  | case2 stems entry rest passed ih =>
    obtain ⟨e, here, found⟩ := ih mem
    exact ⟨e, List.mem_cons_of_mem _ here, found⟩
  | case3 stems entry rest decl c target ih =>
    rcases List.mem_append.mp mem with own | later
    · exact ⟨entry, List.mem_cons_self, decl, c, _, target, own⟩
    · obtain ⟨e, here, found⟩ := ih later
      exact ⟨e, List.mem_cons_of_mem _ here, found⟩

theorem mem_artifactsFrom {a : Artifact} {entries : List (String × Verdict)} {stems : Stems}
    (mem : a ∈ s.artifactsFrom config dir stems entries) :
    ∃ entry ∈ entries, ∃ decl c, s.target? entry = some (decl, c) ∧
      a.typeName = decl.qualifiedName := by
  obtain ⟨entry, here, decl, c, stem, target, own⟩ := exists_generated mem
  obtain ⟨kind, -, rfl⟩ := List.mem_map.mp own
  exact ⟨entry, here, decl, c, target, rfl⟩

theorem exists_artifact {entry : String × Verdict} {decl : TypeDecl} {c : Classification}
    (target : s.target? entry = some (decl, c)) {entries : List (String × Verdict)}
    (mem : entry ∈ entries) (stems : Stems) (kind : ArtifactKind) :
    ∃ a ∈ s.artifactsFrom config dir stems entries, a.kind = kind ∧
      a.typeName = decl.qualifiedName := by
  fun_induction artifactsFrom config s dir stems entries with
  | case1 => cases mem
  | case2 stems first rest passed ih =>
    rcases List.mem_cons.mp mem with rfl | later
    · rw [target] at passed
      cases passed
    · exact ih later
  | case3 stems first rest decl' c' target' ih =>
    rcases List.mem_cons.mp mem with rfl | later
    · rw [target] at target'
      cases target'
      have listed : kind ∈ ArtifactKind.all := by cases kind <;> decide
      exact ⟨_, List.mem_append_left _ (List.mem_map_of_mem listed), rfl, rfl⟩
    · obtain ⟨a, here, named⟩ := ih later
      exact ⟨a, List.mem_append_right _ here, named⟩

/-- Just the types with a target have files. -/
theorem generates_iff (within : s.verdicts.Within s.index.names) {v : Verdict}
    (entered : s.verdicts.get? name = some v) :
    s.Generates config dir name ↔
      v.emits = true ∧ (v = .reflectable → s.index.checkNestedCycles name = .ok ()) := by
  have mem := Verdicts.mem_of_get? entered
  obtain ⟨decl, found⟩ :=
    TypeIndex.exists_decl? (within.known name (List.mem_map_of_mem (f := (·.1)) mem))
  rw [← exists_target?_iff found]
  constructor
  · intro generated
    obtain ⟨a, here, -, called⟩ := generated .reflectorHeader
    obtain ⟨⟨name', v'⟩, mem', decl', c, target, typeName⟩ := mem_artifactsFrom here
    -- the entry the file comes from is the one of this name
    have found' := decl?_of_target? target
    obtain rfl : name' = name :=
      (TypeIndex.qualifiedName_of_decl? found').symm.trans (typeName.symm.trans called)
    obtain rfl : v' = v :=
      Option.some.inj ((Verdicts.get?_of_mem within.distinct mem').symm.trans entered)
    obtain rfl : decl = decl' := Option.some.inj (found.symm.trans found')
    exact ⟨c, target⟩
  · rintro ⟨c, target⟩ kind
    obtain ⟨a, here, kind', called⟩ := exists_artifact target mem _ kind
    exact ⟨a, here, kind', called.trans (TypeIndex.qualifiedName_of_decl? found)⟩

/-- A type that nests a record which is opted out and derives from one that nests itself, with the
records in question before it. -/
def tangled : Survey :=
  let path : Path := ⟨"core/a.hpp"⟩
  let index : TypeIndex :=
    ⟨[⟨{ name := "Hidden", key := .cls, path }, true, false⟩,
      ⟨{ name := "Knot", key := .struct, path
         fields := [{ name := "k", type := ⟨"Knot", .record "Knot" none⟩, visibility := .pub }] },
        true, false⟩,
      ⟨{ name := "Shown", key := .struct, path
         fields := [{ name := "h", type := ⟨"Hidden", .record "Hidden" none⟩, visibility := .pub }]
         bases := [{ spelling := "Knot", resolved := some "Knot", access := .pub }] },
        true, false⟩]⟩
  ⟨{}, index, .ofModule { structDefault := .reflect } ⟨[]⟩ index fun _ => true⟩

theorem generates_tangled_iff {v : Verdict} (entered : tangled.verdicts.get? name = some v) :
    tangled.Generates config dir name ↔
      v.emits = true ∧ (v = .reflectable → tangled.index.checkNestedCycles name = .ok ()) :=
  generates_iff (Verdicts.within_ofModule _ _ _ _) entered

theorem nodes_tangled : tangled.index.nestedGraph.nodes = ["Hidden", "Knot", "Shown"] := by decide

theorem tangled_shown : tangled.Generates config dir "Shown" := by
  have entered : tangled.verdicts.get? "Shown" = some .reflectable := by decide
  have shown : tangled.index.nestedGraph.next "Shown" = ["Hidden"] := by decide +kernel
  have hidden : tangled.index.nestedGraph.next "Hidden" = [] := by decide +kernel
  have fine : tangled.index.checkNestedCycles "Shown" = .ok () := by
    simp [TypeIndex.checkNestedCycles, TypeIndex.nestedCycle?, Graph.cycleFrom?, Graph.visit,
      Graph.visitAll, Except.map, nodes_tangled, shown, hidden]
  exact (generates_tangled_iff entered).mpr ⟨rfl, fun _ => fine⟩

theorem tangled_knot :
    tangled.index.checkNestedCycles "Knot" = .error ⟨"Knot", ["Knot", "Knot"]⟩ := by
  have knot : tangled.index.nestedGraph.next "Knot" = ["Knot"] := by decide +kernel
  simp [TypeIndex.checkNestedCycles, TypeIndex.nestedCycle?, Graph.cycleFrom?, Graph.visit,
    Graph.visitAll, Graph.loopPath, Except.map, nodes_tangled, knot]

/-- A call that a generated reflectable type makes has a definition in two cases: to a record that a
member nests when the verdict on that record asks for files, and to a base when no cycle of nested
members can be reached from it. -/
theorem called_constructor_generated_iff (config : Config) (dir : Path) (scan : Scan)
    (policy : PolicyConfig) (texts : HeaderTexts) (index : TypeIndex) (isCandidate : Path → Bool)
    {name : String} {decl : TypeDecl}
    (reflectable : (Verdicts.ofModule policy texts index isCandidate).get? name = some .reflectable)
    (found : index.decl? name = some decl)
    (generated : Generates config ⟨scan, index, .ofModule policy texts index isCandidate⟩ dir name) :
    let s : Survey := ⟨scan, index, .ofModule policy texts index isCandidate⟩
    (∀ f ∈ decl.fields, ∀ q w, f.memberClass = .nested q → s.verdicts.get? q = some w →
      (s.Generates config dir q ↔ w.emits = true)) ∧
    ∀ b ∈ decl.bases, ∀ q w, b.link s.verdicts = .delegate q → s.verdicts.get? q = some w →
      (s.Generates config dir q ↔ index.checkNestedCycles q = .ok ()) := by
  intro s
  have within : s.verdicts.Within s.index.names :=
    Verdicts.within_ofModule policy texts index isCandidate
  have fine : index.checkNestedCycles name = .ok () :=
    ((generates_iff within reflectable).mp generated).2 rfl
  constructor
  · intro f field q w nests entered
    rw [generates_iff within entered, and_iff_left_iff_imp]
    intro _ _
    exact TypeIndex.checkNestedCycles_of_nested found field nests fine
  · intro b _ q w link entered
    -- a base is called only where its own verdict is reflectable
    have full : w = .reflectable := by
      unfold Base.link at link
      split at link
      next called =>
        cases link
        simp only [Bool.and_eq_true, decide_eq_true_eq] at called
        obtain ⟨r, resolved, verdict⟩ := Option.bind_eq_some_iff.mp called.1
        rw [Base.displayName, resolved, Option.getD_some, verdict] at entered
        exact (Option.some.inj entered).symm
      next => cases link
    rw [generates_iff within entered, full]
    simp [Verdict.emits, s]

theorem called_constructor_generated_iff_tangled :
    tangled.Generates {} ⟨"core/autogen"⟩ "Shown" ∧
      (tangled.Generates {} ⟨"core/autogen"⟩ "Hidden" ↔ Verdict.emits .noReflectDefault = true) ∧
      (tangled.Generates {} ⟨"core/autogen"⟩ "Knot" ↔
        tangled.index.checkNestedCycles "Knot" = .ok ()) := by
  have calls := called_constructor_generated_iff {} ⟨"core/autogen"⟩ {} { structDefault := .reflect }
    ⟨[]⟩ tangled.index (fun _ => true) (by decide : tangled.verdicts.get? "Shown" = _) rfl
    tangled_shown
  refine ⟨tangled_shown, ?_, ?_⟩
  · exact calls.1 _ List.mem_cons_self "Hidden" _ (by decide +kernel) (by decide)
  · exact calls.2 _ List.mem_cons_self "Knot" .reflectable (by decide) (by decide)

/-- Two calls without a definition: to a nested record that its key opts out, and to a base that
nests itself. -/
theorem called_constructor_missing :
    tangled.Generates {} ⟨"core/autogen"⟩ "Shown" ∧
      (tangled.index.decl? "Shown").map (·.fields.map Field.memberClass) =
        some [.nested "Hidden"] ∧
      (tangled.index.decl? "Shown").map (·.bases.map (Base.link tangled.verdicts)) =
        some [.delegate "Knot"] ∧
      tangled.verdicts.get? "Hidden" = some .noReflectDefault ∧
      tangled.verdicts.get? "Knot" = some .reflectable ∧
      ¬ tangled.Generates {} ⟨"core/autogen"⟩ "Hidden" ∧
      ¬ tangled.Generates {} ⟨"core/autogen"⟩ "Knot" := by
  have hidden : tangled.verdicts.get? "Hidden" = some .noReflectDefault := by decide
  have knot : tangled.verdicts.get? "Knot" = some .reflectable := by decide
  refine ⟨tangled_shown, by decide +kernel, by decide, hidden, knot, ?_, ?_⟩
  · rw [generates_tangled_iff hidden]
    simp [Verdict.emits]
  · rw [generates_tangled_iff knot, tangled_knot]
    simp

end Survey

end HeaderMeta
