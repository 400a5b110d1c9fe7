import Transport.Dependence.Distance
import Transport.Group
import Transport.Heap
import Transport.MoveSet

/-!
# The ready list

The selector hands out groups of moves that wait for nothing but each other, the most critical
first. A move is put on the ready list at most once: whether its group is ready is looked at again
whenever a neighbour has been placed, and a last sweep finds the groups no neighbour reported.
-/

namespace Transport

/-- A ready group. -/
structure Candidate where
  priority : Nat
  group : Group
deriving DecidableEq

/-- The first move of the group. -/
def Candidate.first (c : Candidate) : MoveId := c.group.headD .invalid

/-- Is `a` not more urgent than `b`? Of equally critical groups the one with the smaller first move
is more urgent. -/
def Candidate.le (a b : Candidate) : Bool :=
  a.priority < b.priority || a.priority = b.priority && b.first.val ≤ a.first.val

structure Selector where
  direction : Direction
  orphans : OrphanPolicy
  /-- The ready groups, the most urgent on top. -/
  ready : Heap Candidate := {}
  /-- The moves whose group has been put on the ready list. -/
  queued : MoveSet := .empty
  /-- Top-down, these moves wait for all others, which no neighbour reports. -/
  controlFlow : List MoveId
deriving DecidableEq

namespace Selector

/-- Along which way a move's distance makes it critical. -/
def way (s : Selector) : Way :=
  match s.direction with
  | .topDown => .forward
  | .bottomUp => .backward

/-- Is `n` ready if the moves of `group` are placed together with it? -/
def isReady (s : Selector) (g : Graph) (n : MoveId) (group : Group) : Checked Bool :=
  match s.direction with
  | .topDown => g.predecessorsPlaced n group
  | .bottomUp => g.successorsPlaced n group

/-- The largest distance in the group, and the graph with the distances kept. -/
def priority (s : Selector) (g : Graph) (group : Group) : Checked (Nat × Graph) :=
  group.foldlM (fun (best, g) n => do
    let (d, g) ← g.distance s.way n
    return (max best d, g)) (0, g)

/-- Put the group of `n` on the ready list if all its pending moves are ready, and tell whether
it was put there. -/
def offer (s : Selector) (g : Graph) (n : MoveId) : Logged (Bool × Selector × Graph) := do
  unless ← g.isPending n do return (false, s, g)
  if s.queued.has n.val then return (false, s, g)
  let group ← (← g.groupOf n).pending g
  if group.isEmpty || group.any fun m => s.queued.has m.val then return (false, s, g)
  unless ← group.allM fun m => s.isReady g m group do return (false, s, g)
  let queued := group.foldl (fun q m => q.add m.val) s.queued
  let (priority, g) ← s.priority g group
  let ready := s.ready.push Candidate.le { priority, group }
  return (true, { s with ready, queued }, g)

def offerAll (s : Selector) (g : Graph) (ns : List MoveId) : Logged (Selector × Graph) :=
  ns.foldlM (fun (s, g) n => return (← s.offer g n).2) (s, g)

/-- The selector for a graph of which nothing is placed yet. -/
def ofGraph (g : Graph) (direction : Direction) (orphans : OrphanPolicy) :
    Logged (Selector × Graph) :=
  let controlFlow := g.moveIds.filter fun n => (g.move? n).any Move.controlFlow
  let roots := match direction with
    | .topDown => g.sources
    | .bottomUp => g.sinks
  offerAll { direction, orphans, controlFlow } g roots

/-- Look again at the moves that `n` held back. -/
def notify (s : Selector) (g : Graph) (n : MoveId) : Logged (Selector × Graph) :=
  match s.direction with
  | .topDown => do
    let (s, g) ← s.offerAll g (← g.successors n)
    s.offerAll g s.controlFlow
  | .bottomUp => do s.offerAll g (← g.predecessors n)

/-- Take candidates from the top until one has a pending move: its pending moves, and the
candidates left. -/
def firstPending (g : Graph) : Nat → Heap Candidate → Checked (Group × Heap Candidate)
  | 0, ready => pure ([], ready)
  | fuel + 1, ready => do
    let some (c, ready) := ready.pop? Candidate.le | return ([], ready)
    match ← c.group.pending g with
    | [] => firstPending g fuel ready
    | group => pure (group, ready)

/-- Take the most urgent group that has a pending move, if there is one. -/
def take (s : Selector) (g : Graph) : Checked (Group × Selector) := do
  let (group, ready) ← firstPending g s.ready.size s.ready
  return (group, { s with ready })

/-- Put every ready group on the list that no neighbour reported. -/
def recoverOrphans (s : Selector) (g : Graph) : Logged (Selector × Graph) := do
  let pending := g.moveIds.filter fun n =>
    (g.move? n).any (!·.isPlaced) && !s.queued.has n.val
  pending.foldlM (fun (s, g) n => do
    let (added, s, g) ← s.offer g n
    if added then
      match s.orphans with
      | .warn => Logged.note (.orphanRecovered n)
      | .abort => throw (.orphan n)
    return (s, g)) (s, g)

/-- The most critical ready group; empty if no move can be placed. -/
def next (s : Selector) (g : Graph) : Logged (Group × Selector × Graph) := do
  match ← s.take g with
  | ([], s) =>
    let (s, g) ← s.recoverOrphans g
    let (group, s) ← s.take g
    return (group, s, g)
  | (group, s) => return (group, s, g)

/-- Allow the group of `n` to be handed out again. -/
def offerAgain (s : Selector) (g : Graph) (n : MoveId) : Logged (Selector × Graph) := do
  let group ← g.groupOf n
  let queued := group.foldl (fun q m => q.drop m.val) s.queued
  return (← { s with queued }.offer g n).2

end Selector

end Transport
