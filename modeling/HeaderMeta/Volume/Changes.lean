import HeaderMeta.Volume

/-! What differs between two volumes. -/

set_option autoImplicit false

namespace HeaderMeta.Volume

def below? (dir loc : Location) : Option (List String) :=
  if dir.isSuffixOf loc && loc ≠ dir then some (loc.take (loc.length - dir.length)).reverse else none

def changed (before after : Volume) (dir : Location) : List (Path × Node) :=
  after.nodes.filterMap fun n =>
    if (before.get? n.1).any n.2.same then none
    else (below? dir n.1).map fun names => (⟨Text.joinWith "/" names⟩, n.2)

def gone (before after : Volume) (dir : Location) : List Path :=
  before.nodes.filterMap fun n =>
    if (after.get? n.1).isSome then none
    else (below? dir n.1).map fun names => ⟨Text.joinWith "/" names⟩

end HeaderMeta.Volume
