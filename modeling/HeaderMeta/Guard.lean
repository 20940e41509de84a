/-! Limits on reading a file: a loop may not run too long or stand still, and bodies may not nest
too deep.

`Guard.check` is one test of a loop; `loop` runs a step under a fresh guard.
-/

set_option autoImplicit false

namespace HeaderMeta

def maxDepth : Nat := 64

def maxIterations : Nat := 1000000

/-- Why the rest of a file is given up. -/
inductive Limit where
  | iterations (loop : String) (limit : Nat)
  | stalled (loop : String)
  | depth (body : String)
  deriving DecidableEq, Repr

def Limit.message : Limit → String
  | iterations loop limit => "Loop '" ++ loop ++ "' exceeded " ++ toString limit ++ " iterations"
  | stalled loop => "Parser made no progress in '" ++ loop ++ "'"
  | depth body =>
    "Maximum nesting depth (" ++ toString maxDepth ++ ") exceeded in " ++ body

/-- The state of a watched loop: how many more rounds it may take, and where the last one began. -/
structure Guard where
  name : String
  limit : Nat := maxIterations
  left : Nat := limit
  last : Option Nat := none
  deriving DecidableEq, Repr

def Guard.check (g : Guard) (position : Nat) : Guard × Option Limit :=
  match g.left with
  | 0 => (g, some (.iterations g.name g.limit))
  | left + 1 =>
    if g.last = some position then ({ g with left }, some (.stalled g.name))
    else ({ g with left, last := some position }, none)

/-- How a round of a loop ends. -/
inductive Round (σ : Type) where
  | again (state : σ)
  | done (state : σ)
  | refused (state : σ) (limit : Limit)

namespace Guard

variable {σ : Type}

/-- Run rounds from `state` until one is done or refused, or the guard stops them. The state
reached is returned in either case. -/
def loopFrom (name : String) (position : σ → Nat) (step : σ → Round σ) :
    (left : Nat) → (last : Option Nat) → (state : σ) → σ × Option Limit
  | 0, _, state => (state, some (.iterations name maxIterations))
  | left + 1, last, state =>
    if last = some (position state) then (state, some (.stalled name))
    else
      match step state with
      | .again next => loopFrom name position step left (some (position state)) next
      | .done final => (final, none)
      | .refused final limit => (final, some limit)

def loop (name : String) (position : σ → Nat) (step : σ → Round σ) (state : σ) :
    σ × Option Limit :=
  loopFrom name position step maxIterations none state

end Guard

/-- How deep the reader stands. -/
structure Depth where
  depth : Nat := 0
  deriving DecidableEq, Repr

namespace Depth

def enter (d : Depth) (body : String) : Except Limit Depth :=
  if maxDepth ≤ d.depth then .error (.depth body) else .ok ⟨d.depth + 1⟩

def leave (d : Depth) : Depth :=
  ⟨d.depth - 1⟩

end Depth

end HeaderMeta
