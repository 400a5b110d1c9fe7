import Std.Data.ExtTreeSet
import Transport.Dependence.Move
import Transport.Machine
import Transport.Sorting

/-!
# The dependence graph

Moves, dependences and operations stand in tables and refer to each other by identifier. Removing
an edge unlinks it from its two moves and leaves its table entry behind, so that undoing the
removal brings back the same edge. The lookups `move`, `link` and `op` are faults on identifiers
from outside; the lookups with a question mark serve walks that follow the graph's own links.
-/

namespace Transport

abbrev RegSet := Std.ExtTreeSet Reg

abbrev MoveIdSet := Std.ExtTreeSet MoveId

/-- Sorted and without repetitions. -/
def sortMoves (ns : List MoveId) : List MoveId := (Std.ExtTreeSet.ofList ns compare).toList

/-- Longest distances of every move, kept until the graph changes. -/
structure Distances where
  toSink : Option (Array Nat) := none
  toSource : Option (Array Nat) := none
deriving DecidableEq

/-- A dependence with one end outside an extracted block. -/
structure BoundaryEdge where
  /-- The move inside the block. -/
  inner : MoveId
  /-- The other move, in the graph the block was taken from. -/
  outer : MoveId
  dep : Dependence
  /-- The edge points into the block. -/
  incoming : Bool
deriving DecidableEq

structure Graph where
  moves : Array Move := #[]
  links : Array Link := #[]
  ops : Array Operation := #[]
  /-- Register files whose values are bypassed away. -/
  forcedFiles : List FileId
  /-- Total guard latency of each register file. -/
  guardLatencies : Array Nat
  /-- Registers read after the region. If unknown, every register is. -/
  liveOut : Option RegSet := none
  /-- Registers that hold a value on entry. -/
  liveIn : RegSet := ∅
  boundary : List BoundaryEdge := []
  /-- For an extracted block: each move's identifier in the graph it was taken from. -/
  parents : Array MoveId := #[]
  distances : Distances := {}

namespace Graph

/-- The graph of no moves on a machine. -/
def ofMachine (m : Machine) : Checked Graph := do
  let latencies ← (Id.below m.files.size).mapM m.totalGuardLatency
  return { forcedFiles := m.forcedFiles, guardLatencies := latencies.toArray }

/-! ## Lookup -/

def move (g : Graph) (n : MoveId) : Checked Move := n.fetch g.moves

def link (g : Graph) (e : EdgeId) : Checked Link := e.fetch g.links

def op (g : Graph) (o : OpId) : Checked Operation := o.fetch g.ops

def move? (g : Graph) (n : MoveId) : Option Move := g.moves[n.val]?

def link? (g : Graph) (e : EdgeId) : Option Link := g.links[e.val]?

def op? (g : Graph) (o : OpId) : Option Operation := g.ops[o.val]?

/-- The moves in the graph, in order of creation. -/
def moveIds (g : Graph) : List MoveId :=
  (Id.below g.moves.size).filter fun n => (g.move? n).any Move.live

/-- The edges in the graph, in order of creation. -/
def edgeIds (g : Graph) : List EdgeId :=
  (Id.below g.links.size).filter fun e => (g.link? e).any Link.live

def opIds (g : Graph) : List OpId := Id.below g.ops.size

/-- The edges of a list with their table entries. -/
def entries (g : Graph) (es : List EdgeId) : List (EdgeId × Link) :=
  es.filterMap fun e => (g.link? e).map fun l => (e, l)

/-- The edges into `n`. -/
def entering (g : Graph) (n : MoveId) : List (EdgeId × Link) :=
  match g.move? n with
  | some m => g.entries m.ins
  | none => []

/-- The edges out of `n`. -/
def leaving (g : Graph) (n : MoveId) : List (EdgeId × Link) :=
  match g.move? n with
  | some m => g.entries m.outs
  | none => []

def isPlaced (g : Graph) (n : MoveId) : Checked Bool := return (← g.move n).isPlaced

def isLive (g : Graph) (n : MoveId) : Checked Bool := return (← g.move n).live

/-- `n` is in the graph and has no place yet. -/
def isPending (g : Graph) (n : MoveId) : Checked Bool := do
  let m ← g.move n
  return m.live && !m.isPlaced

/-- `n` is in the graph and has a place. -/
def isSettled (g : Graph) (n : MoveId) : Checked Bool := do
  let m ← g.move n
  return m.live && m.isPlaced

/-- The identifier `n` had before its block was extracted. -/
def parent (g : Graph) (n : MoveId) : Checked MoveId := do
  return (g.parents[← n.index]?).getD n

/-! ## Registers -/

def isLiveIn (g : Graph) (r : Reg) : Bool := g.liveIn.contains r

def isForced (g : Graph) (r : Reg) : Bool := g.forcedFiles.contains r.file

/-- A register of a forced-bypass file never holds a value past the region. -/
def isLiveOut (g : Graph) (r : Reg) : Bool :=
  !g.isForced r && g.liveOut.all (·.contains r)

def guardLatency (g : Graph) (r : Reg) : Checked Nat := do
  return (g.guardLatencies[← r.file.index]?).getD 1

/-! ## Changing the tables -/

def modifyMove (g : Graph) (n : MoveId) (f : Move → Move) : Graph :=
  { g with moves := g.moves.modify n.val f }

def modifyLink (g : Graph) (e : EdgeId) (f : Link → Link) : Graph :=
  { g with links := g.links.modify e.val f }

def modifyOp (g : Graph) (o : OpId) (f : Operation → Operation) : Graph :=
  { g with ops := g.ops.modify o.val f }

def forgetDistances (g : Graph) : Graph := { g with distances := {} }

def addMove (g : Graph) (m : Move) : Graph × MoveId :=
  ({ g with moves := g.moves.push m, distances := {} }, ⟨g.moves.size⟩)

def addOperation (g : Graph) (o : Operation) : Graph × OpId :=
  ({ g with ops := g.ops.push o }, ⟨g.ops.size⟩)

/-- Make `n` write an operand of `o`. A move feeds at most one operation. -/
def addInput (g : Graph) (o : OpId) (n : MoveId) : Checked Graph := do
  if (← g.move n).isOperand then throw .assertion
  let _ ← g.op o
  return (g.modifyMove n fun m => { m with dstOp := some o }).modifyOp o fun op =>
    { op with inputs := op.inputs ++ [n] }

/-- Make `n` read a result of `o`. -/
def addOutput (g : Graph) (o : OpId) (n : MoveId) : Checked Graph := do
  let _ ← g.move n
  let _ ← g.op o
  return (g.modifyMove n fun m => { m with srcOp := some o }).modifyOp o fun op =>
    { op with outputs := op.outputs ++ [n] }

def setPlacement (g : Graph) (n : MoveId) (p : Option Placement) : Checked Graph := do
  let _ ← g.move n
  return g.modifyMove n fun m => { m with placement := p }

/-- Put edge `e` at the end of its two moves' lists. -/
def attach (g : Graph) (e : EdgeId) (tail head : MoveId) : Graph :=
  (g.modifyMove tail fun m => { m with outs := m.outs ++ [e] }).modifyMove head fun m =>
    { m with ins := m.ins ++ [e] }

/-- Take edge `e` out of its two moves' lists. -/
def detach (g : Graph) (e : EdgeId) (tail head : MoveId) : Graph :=
  (g.modifyMove tail fun m => { m with outs := m.outs.filter (· ≠ e) }).modifyMove head fun m =>
    { m with ins := m.ins.filter (· ≠ e) }

/-- Add an edge between two moves of the graph. -/
def connect (g : Graph) (tail head : MoveId) (dep : Dependence) : Checked (Graph × EdgeId) := do
  unless ← g.isLive tail do throw .assertion
  unless ← g.isLive head do throw .assertion
  let e : EdgeId := ⟨g.links.size⟩
  let g := { g with links := g.links.push { tail, head, dep } }
  return ((g.attach e tail head).forgetDistances, e)

/-- Does an edge that carries exactly `dep` lead from `tail` to `head`? -/
def hasEdge (g : Graph) (tail head : MoveId) (dep : Dependence) : Checked Bool := do
  return (g.entries (← g.move tail).outs).any fun (_, l) => l.head = head && l.dep = dep

/-- Add an edge unless an equal one is there. -/
def ensureEdge (g : Graph) (tail head : MoveId) (dep : Dependence) :
    Checked (Graph × Option EdgeId) := do
  if ← g.hasEdge tail head dep then return (g, none)
  let (g, e) ← g.connect tail head dep
  return (g, some e)

def removeEdge (g : Graph) (e : EdgeId) : Checked Graph := do
  let l ← g.link e
  unless l.live do throw (.removesDeadEdge e)
  return ((g.modifyLink e fun l => { l with live := false }).detach e l.tail l.head).forgetDistances

/-- Bring back a removed edge with all its data. -/
def restoreEdge (g : Graph) (e : EdgeId) : Checked Graph := do
  let l ← g.link e
  if l.live then throw (.restoresLiveEdge e)
  return ((g.modifyLink e fun l => { l with live := true }).attach e l.tail l.head).forgetDistances

/-! ## Neighbours -/

/-- The edges from `a` to `b`. -/
def connecting (g : Graph) (a b : MoveId) : Checked (List (EdgeId × Link)) := do
  return (g.entries (← g.move a).outs).filter fun (_, l) => l.head = b

def predecessors (g : Graph) (n : MoveId) : Checked (List MoveId) := do
  return sortMoves ((g.entries (← g.move n).ins).map fun (_, l) => l.tail)

def successors (g : Graph) (n : MoveId) : Checked (List MoveId) := do
  return sortMoves ((g.entries (← g.move n).outs).map fun (_, l) => l.head)

/-- Moves without an edge into a later move of the same iteration. -/
def sinks (g : Graph) : List MoveId :=
  g.moveIds.filter fun n => (g.leaving n).all fun (_, l) => l.dep.isBack

/-- Moves without an edge from an earlier move of the same iteration. -/
def sources (g : Graph) : List MoveId :=
  g.moveIds.filter fun n => (g.entering n).all fun (_, l) => l.dep.isBack

/-- The input that starts the operation. -/
def trigger (g : Graph) (o : OpId) : Checked (Option MoveId) := do
  return (← g.op o).inputs.find? fun n => (g.move? n).any Move.isTrigger

def sameOperation (g : Graph) (a b : MoveId) : Checked Bool := do
  return (← g.move a).sharesOperation (← g.move b)

def excluding (g : Graph) (a b : MoveId) : Checked Bool := do
  return (← g.move a).excludes (← g.move b)

/-- The one move whose register value `n` reads, if there is exactly one. -/
def rawSource (g : Graph) (n : MoveId) : Checked (Option MoveId) := do
  let raw := (g.entries (← g.move n).ins).filter fun (_, l) =>
    l.dep.isRaw && !l.dep.guardUse
  match raw with
  | [(_, l)] => return some l.tail
  | _ => return none

/-- The moves that read the register `n` writes, unless one reads it as a guard or in a later
iteration. -/
def rawDestinations (g : Graph) (n : MoveId) : Checked (Option (List MoveId)) := do
  let raw := (g.entries (← g.move n).outs).filter fun (_, l) => l.dep.isRaw
  if raw.any fun (_, l) => l.dep.guardUse || l.dep.isBack then return none
  return some (raw.map fun (_, l) => l.head)

/-! ## Snapshots -/

/-- By tail, then head, then text. -/
def snapshotLe (a b : String × Link) : Bool :=
  a.2.tail.val < b.2.tail.val || a.2.tail = b.2.tail &&
    (a.2.head.val < b.2.head.val || a.2.head = b.2.head && a.1 ≤ b.1)

/-- The edges sorted by tail, head and text. Equal ones stay in order of creation. -/
def snapshot (g : Graph) : Checked (List (MoveId × MoveId × Dependence)) := do
  let links := g.edgeIds.filterMap g.link?
  let sorted ← match links with
    -- Nothing to compare, so no text is needed.
    | [] | [_] => pure links
    | links => do
      let keyed ← links.mapM fun l => return ((← l.dep.text), l)
      pure ((sortBy snapshotLe keyed).map Prod.snd)
  return sorted.map fun l => (l.tail, l.head, l.dep)

end Graph

end Transport
