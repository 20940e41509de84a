import HeaderMeta.Declaration.Index
import HeaderMeta.Reflection.Member

/-! Cycles of nested members.

`Graph.visit` walks a finite graph depth first. It carries the nodes in progress, innermost first,
and the nodes that are known to lead into no cycle.
-/

set_option autoImplicit false

namespace HeaderMeta

/-- A graph on names. Edges leave only the listed nodes. -/
structure Graph where
  nodes : List String
  next : String → List String

namespace Graph

def fresh (g : Graph) (progress : List String) : List String :=
  g.nodes.filter fun n => !progress.contains n

theorem length_fresh_lt {g : Graph} {progress : List String} {name : String}
    (mem : g.nodes.contains name = true) (new : progress.contains name = false) :
    (g.fresh (name :: progress)).length < (g.fresh progress).length := by
  have fewer : g.fresh (name :: progress) = (g.fresh progress).filter fun n => n != name := by
    simp only [fresh, List.filter_filter]
    congr 1
    funext n
    by_cases h : n = name <;> simp [h]
  rw [fewer]
  refine Nat.lt_of_le_of_ne (List.length_filter_le _ _) fun same => ?_
  have all := List.length_filter_eq_length_iff.1 same name
    (List.mem_filter.2 ⟨by simpa using mem, by simpa using new⟩)
  simp at all

def loopPath (progress : List String) (name : String) : List String :=
  name :: (progress.takeWhile (· != name)).reverse ++ [name]

mutual
/-- Visit a node. The answer is the set of finished nodes, or a cycle. -/
def visit (g : Graph) (progress finished : List String) (name : String) :
    Except (List String) (List String) :=
  if _hp : progress.contains name then .error (loopPath progress name)
  else if finished.contains name then .ok finished
  else if _hn : g.nodes.contains name then
    (visitAll g (name :: progress) finished (g.next name)).map (name :: ·)
  else .ok finished
termination_by ((g.fresh progress).length, 0)
decreasing_by
  exact Prod.Lex.left _ _ (length_fresh_lt _hn (by simpa using _hp))

def visitAll (g : Graph) (progress finished : List String) :
    List String → Except (List String) (List String)
  | [] => .ok finished
  | name :: names =>
    match visit g progress finished name with
    | .error path => .error path
    | .ok finished => visitAll g progress finished names
termination_by names => ((g.fresh progress).length, names.length + 1)
decreasing_by
  · exact Prod.Lex.right _ (by omega)
  · exact Prod.Lex.right _ (by simp)
end

def cycleFrom? (g : Graph) (root : String) : Option (List String) :=
  match g.visit [] [] root with
  | .error path => some path
  | .ok _ => none

end Graph

def Field.nestedType? (f : Field) : Option String :=
  match f.memberClass with
  | .nested name => some name
  | _ => none

namespace TypeIndex

def nestedGraph (index : TypeIndex) : Graph where
  nodes := index.names
  next name := ((index.decl? name).map fun d => d.fields.filterMap Field.nestedType?).getD []

def nestedCycle? (index : TypeIndex) (root : String) : Option (List String) :=
  index.nestedGraph.cycleFrom? root

end TypeIndex

structure CyclicReflection where
  typeName : String
  /-- The types of the cycle in order, the first one again at the end. -/
  path : List String
  deriving DecidableEq, Repr

def CyclicReflection.message (e : CyclicReflection) : String :=
  "Cyclic reflection in '" ++ e.typeName ++ "': " ++ Text.joinWith " -> " e.path

def TypeIndex.checkNestedCycles (index : TypeIndex) (root : String) :
    Except CyclicReflection Unit :=
  match index.nestedCycle? root with
  | some path => .error ⟨root, path⟩
  | none => .ok ()

end HeaderMeta
