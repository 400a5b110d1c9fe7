import Transport.Dependence.Reach
import Transport.Dependence.Timing

/-!
# Priorities

The priority of a move is the length of the longest path from it to a sink, or from a source to
it. All distances of one direction are found together and kept until the graph changes.
-/

namespace Transport.Graph

/-- The edges that lead on from `n`, each with the move at its other end. -/
def stepsFrom (g : Graph) (way : Way) (n : MoveId) : List (Link × MoveId) :=
  match way with
  | .forward => (g.leaving n).map fun (_, l) => (l, l.head)
  | .backward => (g.entering n).map fun (_, l) => (l, l.tail)

/-- The longest way on from `n`, given the distances of its neighbours. -/
def longestStep (g : Graph) (way : Way) (dist : Array Nat) (n : MoveId) : Checked Nat :=
  let steps := (g.stepsFrom way n).filter fun (l, _) => !l.dep.isBack
  steps.foldlM (fun best (l, other) => do
    let weight := (max (← g.linkLatency l) 1).toNat
    return max best (← addWord (dist[other.val]?.getD 0) weight)) 0

/-- The longest distance of every move to a sink (`forward`) or from a source (`backward`). -/
def longestDistances (g : Graph) (way : Way) : Checked (Array Nat) :=
  (g.postorder way).foldlM (fun dist n => do
    return dist.setIfInBounds n.val (← g.longestStep way dist n)) (.replicate g.moves.size 0)

def keptDistances (g : Graph) : Way → Option (Array Nat)
  | .forward => g.distances.toSink
  | .backward => g.distances.toSource

def keepDistances (g : Graph) (way : Way) (dist : Array Nat) : Graph :=
  match way with
  | .forward => { g with distances := { g.distances with toSink := some dist } }
  | .backward => { g with distances := { g.distances with toSource := some dist } }

/-- The kept distance of `n`, if there is one. -/
def keptDistance (g : Graph) (way : Way) (n : MoveId) : Checked (Option Nat) :=
  match g.keptDistances way with
  | some dist => return dist[← n.index]?
  | none => return none

/-- The longest distance of `n`, and the graph with all distances kept. -/
def distance (g : Graph) (way : Way) (n : MoveId) : Checked (Nat × Graph) := do
  match ← g.keptDistance way n with
  | some d => return (d, g)
  | none =>
    let dist ← g.longestDistances way
    return (← n.fetch dist, g.keepDistances way dist)

end Transport.Graph
