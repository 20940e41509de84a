import HeaderMeta.Reflection.Cycle
import Mathlib.Data.List.Chain
import Mathlib.Data.List.Nodup
import Mathlib.Logic.Relation

/-! The search for cycles of nested members, against the graph it walks.

A node is settled when no cycle can be reached from it. A visit that succeeds settles its node: all
successors were settled one by one, and a node with settled successors is settled itself. A visit
that fails has met a node in progress again, and the nodes in progress form a way from the root.
-/

set_option autoImplicit false

namespace HeaderMeta

open Relation

namespace Graph

def Edge (g : Graph) (a b : String) : Prop :=
  a ∈ g.nodes ∧ b ∈ g.next a

/-- No cycle can be reached. -/
def Settled (g : Graph) (a : String) : Prop :=
  ∀ b, ReflTransGen g.Edge a b → ¬ TransGen g.Edge b b

/-- A closed way along edges that repeats no node before its end. -/
structure IsCycle (g : Graph) (path : List String) : Prop where
  two_le : 2 ≤ path.length
  closed : path.head? = path.getLast?
  distinct : path.dropLast.Nodup
  edges : path.IsChain g.Edge

section Settled
variable {g : Graph}

theorem settled_of_successors {a : String} (next : ∀ b, g.Edge a b → g.Settled b) :
    g.Settled a := by
  intro b way cycle
  rcases way.cases_head with rfl | ⟨c, edge, rest⟩
  · -- the cycle runs through `a`, so it can be reached from the successor it leaves by
    obtain ⟨c, edge, back⟩ := TransGen.head'_iff.mp cycle
    exact next c edge a back cycle
  · exact next c edge b rest cycle

theorem settled_of_not_mem {a : String} (outside : a ∉ g.nodes) : g.Settled a :=
  settled_of_successors fun _ edge => absurd edge.1 outside

end Settled

section Success

mutual
theorem settled_of_visit {g : Graph} {progress finished after : List String} {name : String}
    (known : ∀ a ∈ finished, g.Settled a) (ok : g.visit progress finished name = .ok after) :
    g.Settled name ∧ ∀ a ∈ after, g.Settled a := by
  rw [visit] at ok
  by_cases again : progress.contains name
  · rw [dif_pos again] at ok
    cases ok
  by_cases done : finished.contains name
  · rw [dif_neg again, if_pos done] at ok
    cases ok
    exact ⟨known name (by simpa using done), known⟩
  by_cases node : g.nodes.contains name
  · rw [dif_neg again, if_neg done, dif_pos node] at ok
    cases walked : g.visitAll (name :: progress) finished (g.next name) with
    | error path => rw [walked] at ok; cases ok
    | ok rest =>
      rw [walked] at ok
      cases ok
      obtain ⟨next, more⟩ := settled_of_visitAll known walked
      have settled : g.Settled name := settled_of_successors fun b edge => next b edge.2
      exact ⟨settled, List.forall_mem_cons.mpr ⟨settled, more⟩⟩
  · rw [dif_neg again, if_neg done, dif_neg node] at ok
    cases ok
    exact ⟨settled_of_not_mem (by simpa using node), known⟩
termination_by ((g.fresh progress).length, 0)
decreasing_by exact Prod.Lex.left _ _ (length_fresh_lt node (by simpa using again))

theorem settled_of_visitAll {g : Graph} {progress finished after names : List String}
    (known : ∀ a ∈ finished, g.Settled a)
    (ok : g.visitAll progress finished names = .ok after) :
    (∀ a ∈ names, g.Settled a) ∧ ∀ a ∈ after, g.Settled a := by
  match names with
  | [] =>
    rw [visitAll] at ok
    cases ok
    exact ⟨by simp, known⟩
  | name :: names =>
    rw [visitAll] at ok
    split at ok
    · cases ok
    next between visited =>
      obtain ⟨first, known'⟩ := settled_of_visit known visited
      obtain ⟨rest, more⟩ := settled_of_visitAll known' ok
      exact ⟨List.forall_mem_cons.mpr ⟨first, rest⟩, more⟩
termination_by ((g.fresh progress).length, names.length + 1)
decreasing_by
  · exact Prod.Lex.right _ (by omega)
  · exact Prod.Lex.right _ (by simp)
end

end Success

section Failure

/-- What is known of the nodes in progress when `name` is visited: they are distinct, and read
backwards they are a way from the root to `name`. -/
structure Trail (g : Graph) (root : String) (progress : List String) (name : String) : Prop where
  distinct : progress.Nodup
  backwards : (name :: progress).IsChain fun a b => g.Edge b a
  reached : ∀ a ∈ name :: progress, ReflTransGen g.Edge root a

theorem Trail.start (g : Graph) (root : String) : g.Trail root [] root where
  distinct := List.nodup_nil
  backwards := .singleton root
  reached := by simp [ReflTransGen.refl]

theorem Trail.step {g : Graph} {root name next : String} {progress : List String}
    (trail : g.Trail root progress name) (new : name ∉ progress) (edge : g.Edge name next) :
    g.Trail root (name :: progress) next where
  distinct := List.nodup_cons.mpr ⟨new, trail.distinct⟩
  backwards := List.isChain_cons_cons.mpr ⟨edge, trail.backwards⟩
  reached := by
    have here := trail.reached name (by simp)
    exact List.forall_mem_cons.mpr ⟨here.tail edge, trail.reached⟩

/-- The nodes in progress up to an earlier visit of `name`, turned around. -/
theorem Trail.isCycle_loopPath {g : Graph} {root name : String} {progress : List String}
    (trail : g.Trail root progress name) (again : name ∈ progress) :
    g.IsCycle (loopPath progress name) := by
  obtain ⟨inner, outer, rfl, new⟩ := List.eq_append_cons_of_mem again
  have upTo : (inner ++ name :: outer).takeWhile (· != name) = inner := by
    rw [List.takeWhile_append_of_pos (by grind)]
    simp
  have turned : loopPath (inner ++ name :: outer) name = (name :: inner ++ [name]).reverse := by
    simp [loopPath, upTo]
  have whole : (name :: inner ++ name :: outer).IsChain fun a b => g.Edge b a := trail.backwards
  rw [turned]
  constructor
  case two_le => simp
  case closed => simp [List.getLast?_cons]
  case distinct =>
    have apart : (name :: inner.reverse).Nodup :=
      List.nodup_cons.mpr ⟨by simpa using new,
        List.nodup_reverse.mpr (trail.distinct.sublist (List.sublist_append_left _ _))⟩
    have shorter : (name :: inner ++ [name]).reverse = (name :: inner.reverse) ++ [name] := by simp
    rwa [shorter, List.dropLast_concat]
  case edges => exact List.isChain_reverse.mpr (List.isChain_split.mp whole).1

mutual
theorem cycle_of_visit {g : Graph} {root name : String} {progress finished path : List String}
    (trail : g.Trail root progress name) (failed : g.visit progress finished name = .error path) :
    g.IsCycle path ∧ ∀ a ∈ path.head?, ReflTransGen g.Edge root a := by
  rw [visit] at failed
  by_cases again : progress.contains name
  · rw [dif_pos again] at failed
    cases failed
    refine ⟨trail.isCycle_loopPath (by simpa using again), ?_⟩
    simpa [loopPath] using trail.reached name (by simp)
  by_cases done : finished.contains name
  · rw [dif_neg again, if_pos done] at failed
    cases failed
  by_cases node : g.nodes.contains name
  · rw [dif_neg again, if_neg done, dif_pos node] at failed
    cases walked : g.visitAll (name :: progress) finished (g.next name) with
    | ok rest => rw [walked] at failed; cases failed
    | error found =>
      rw [walked] at failed
      cases failed
      refine cycle_of_visitAll (fun b next => ?_) walked
      exact trail.step (by simpa using again) ⟨by simpa using node, next⟩
  · rw [dif_neg again, if_neg done, dif_neg node] at failed
    cases failed
termination_by ((g.fresh progress).length, 0)
decreasing_by exact Prod.Lex.left _ _ (length_fresh_lt node (by simpa using again))

theorem cycle_of_visitAll {g : Graph} {root : String} {progress finished names path : List String}
    (trails : ∀ a ∈ names, g.Trail root progress a)
    (failed : g.visitAll progress finished names = .error path) :
    g.IsCycle path ∧ ∀ a ∈ path.head?, ReflTransGen g.Edge root a := by
  match names with
  | [] => rw [visitAll] at failed; cases failed
  | name :: names =>
    rw [visitAll] at failed
    obtain ⟨first, rest⟩ := List.forall_mem_cons.mp trails
    split at failed
    next found visited =>
      cases failed
      exact cycle_of_visit first visited
    next between visited => exact cycle_of_visitAll rest failed
termination_by ((g.fresh progress).length, names.length + 1)
decreasing_by
  · exact Prod.Lex.right _ (by omega)
  · exact Prod.Lex.right _ (by simp)
end

theorem IsCycle.transGen {g : Graph} {path : List String} (cycle : g.IsCycle path) :
    ∃ a ∈ path.head?, TransGen g.Edge a a := by
  obtain ⟨two_le, closed, -, edges⟩ := cycle
  match path with
  | a :: b :: rest =>
    have last : (b :: rest).getLast (by simp) = a := by
      simpa [List.getLast?_eq_some_getLast] using closed.symm
    have way := List.relationReflTransGen_of_exists_isChain_cons rest
      (List.isChain_cons_cons.mp edges).2 last
    exact ⟨a, rfl, TransGen.head' (List.isChain_cons_cons.mp edges).1 way⟩

end Failure

/-- A failed search shows a cycle that can be reached. -/
theorem cycleFrom?_eq_some {g : Graph} {root : String} {path : List String}
    (found : g.cycleFrom? root = some path) :
    g.IsCycle path ∧ ∀ a ∈ path.head?, ReflTransGen g.Edge root a := by
  unfold cycleFrom? at found
  split at found
  next visited =>
    cases found
    exact cycle_of_visit (.start g root) visited
  next => cases found

/-- The search succeeds just when there is no cycle to reach. -/
theorem cycleFrom?_eq_none_iff {g : Graph} {root : String} :
    g.cycleFrom? root = none ↔ g.Settled root := by
  constructor
  · intro none_found
    unfold cycleFrom? at none_found
    split at none_found
    next => cases none_found
    next visited => exact (settled_of_visit (by simp) visited).1
  · intro settled
    cases found : g.cycleFrom? root with
    | none => rfl
    | some path =>
      obtain ⟨cycle, reached⟩ := cycleFrom?_eq_some found
      obtain ⟨a, first, back⟩ := cycle.transGen
      exact absurd back (settled a (reached a first))

end Graph

namespace TypeIndex

def Nests (index : TypeIndex) (a b : String) : Prop :=
  ∃ decl, index.decl? a = some decl ∧ ∃ f ∈ decl.fields, f.memberClass = .nested b

theorem mem_names_of_decl? {index : TypeIndex} {name : String} {decl : TypeDecl}
    (found : index.decl? name = some decl) : name ∈ index.names := by
  obtain ⟨entry, here, -⟩ := Option.map_eq_some_iff.mp found
  have named : entry.name = name := by simpa using List.find?_some here
  exact named ▸ List.mem_map_of_mem (List.mem_of_find?_eq_some here)

theorem nestedGraph_edge_iff {index : TypeIndex} {a b : String} :
    index.nestedGraph.Edge a b ↔ index.Nests a b := by
  have target (f : Field) : f.nestedType? = some b ↔ f.memberClass = .nested b := by
    unfold Field.nestedType?
    cases f.memberClass <;> simp
  unfold Graph.Edge Nests nestedGraph
  cases found : index.decl? a with
  | none => simp [found]
  | some decl => simp [found, target, mem_names_of_decl? found]

theorem nestedGraph_edge {index : TypeIndex} : index.nestedGraph.Edge = index.Nests := by
  funext a b
  exact propext nestedGraph_edge_iff

/-- The check of a type passes just when no cycle of nested members can be reached from it, and
otherwise names that type and such a cycle. -/
theorem checkNestedCycles_sound_complete (index : TypeIndex) (root : String) :
    (index.checkNestedCycles root = .ok () ↔
      ¬ ∃ a, ReflTransGen index.Nests root a ∧ TransGen index.Nests a a) ∧
    ∀ failure, index.checkNestedCycles root = .error failure →
      failure.typeName = root ∧ 2 ≤ failure.path.length ∧
      failure.path.head? = failure.path.getLast? ∧ failure.path.dropLast.Nodup ∧
      failure.path.IsChain index.Nests ∧
      ∀ a ∈ failure.path.head?, ReflTransGen index.Nests root a := by
  have settled : index.nestedGraph.cycleFrom? root = none ↔ index.nestedGraph.Settled root :=
    Graph.cycleFrom?_eq_none_iff
  unfold Graph.Settled at settled
  rw [nestedGraph_edge] at settled
  unfold checkNestedCycles nestedCycle?
  constructor
  · cases found : index.nestedGraph.cycleFrom? root with
    | none => simpa using settled.mp found
    | some path => simpa [found] using settled
  · intro failure failed
    split at failed
    next path found =>
      cases failed
      obtain ⟨⟨two_le, closed, distinct, edges⟩, reached⟩ := Graph.cycleFrom?_eq_some found
      rw [nestedGraph_edge] at edges reached
      exact ⟨rfl, two_le, closed, distinct, edges, reached⟩
    next => cases failed

end TypeIndex

end HeaderMeta
