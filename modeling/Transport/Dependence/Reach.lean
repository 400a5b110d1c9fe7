import Transport.Dependence.Graph
import Transport.MoveSet

/-!
# Reachability inside one iteration

Walks along edges that are not loop carried. Each walk visits a move at most once, so the number
of moves bounds its length.
-/

namespace Transport

/-- Which way a walk follows the edges. -/
inductive Way
  | forward
  | backward
deriving DecidableEq

namespace Graph

/-- The moves one edge away in the same iteration, in list order. -/
def neighbours (g : Graph) (way : Way) (n : MoveId) : List MoveId :=
  match way with
  | .forward => ((g.leaving n).filter fun (_, l) => !l.dep.isBack).map fun (_, l) => l.head
  | .backward => ((g.entering n).filter fun (_, l) => !l.dep.isBack).map fun (_, l) => l.tail

/-- Mark the unmarked moves of `ns` and put them on the stack. -/
def pushFresh (seen : MoveSet) (stack : List MoveId) : List MoveId → MoveSet × List MoveId
  | [] => (seen, stack)
  | n :: ns =>
    if seen.has n.val then pushFresh seen stack ns else pushFresh (seen.add n.val) (n :: stack) ns

/-- Does a walk from the stack step onto `goal`? -/
def walkHits (g : Graph) (goal : MoveId) : Nat → MoveSet → List MoveId → Bool
  | _, _, [] => false
  | 0, _, _ :: _ => false
  | fuel + 1, seen, n :: stack =>
    let next := g.neighbours .forward n
    next.contains goal ||
      let (seen, stack) := pushFresh seen stack next
      walkHits g goal fuel seen stack

/-- Is `b` reached from `a` inside one iteration? -/
def hasPath (g : Graph) (a b : MoveId) : Checked Bool := do
  if a = b then return true
  let _ ← g.move a
  return g.walkHits b (g.moves.size + 1) (MoveSet.empty.add a.val) [a]

/-- Visit `n` and all it leads to. The list has the finished moves, the latest first. -/
def visit (g : Graph) (way : Way) : Nat → MoveId → MoveSet × List MoveId → MoveSet × List MoveId
  | 0, _, s => s
  | fuel + 1, n, (seen, done) =>
    if seen.has n.val then (seen, done) else
    let (seen, done) :=
      (g.neighbours way n).foldl (fun s m => visit g way fuel m s) (seen.add n.val, done)
    (seen, n :: done)

/-- Every move of the graph after the moves it leads to, as far as cycles allow. -/
def postorder (g : Graph) (way : Way) : List MoveId :=
  (g.moveIds.foldl (fun s n => g.visit way (g.moves.size + 1) n s) (MoveSet.empty, [])).2.reverse

end Graph

end Transport
