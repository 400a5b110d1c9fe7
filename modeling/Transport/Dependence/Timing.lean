import Transport.Dependence.Graph

/-!
# Timing and readiness

How far apart two dependent moves are placed, which cycles the placed neighbours of a move allow
it, and whether the moves around it are placed already.
-/

namespace Transport.Graph

/-- Cycles until a guard register written now can be read. -/
def guardDelay (g : Graph) (dep : Dependence) : Checked Cycle :=
  match dep.reg? with
  | some r => return Cycle.ofLatency (max (← g.guardLatency r) 1)
  | none => return 1

/-- Operands may share the trigger's cycle, results wait for the operation to finish. -/
def operationLatency (g : Graph) (l : Link) : Cycle :=
  match (g.move? l.head).bind Move.srcOp with
  | some o =>
    if (g.move? l.tail).bind Move.dstOp = some o
    then ((g.op? o).map fun op => Cycle.ofLatency op.latency).getD 0
    else 0
  | none => 0

/-- Least distance in cycles from the tail to the head. Anti dependences allow zero and less. -/
def linkLatency (g : Graph) (l : Link) : Checked Cycle :=
  match l.dep.reason, l.dep.hazard, l.dep.guardUse with
  | .operation, _, _ => return g.operationLatency l
  | _, .raw, true => g.guardDelay l.dep
  | _, .war, true => do Cycle.sub 1 (← g.guardDelay l.dep)
  | _, .war, false => return 0
  | _, .raw, false | _, .waw, _ | _, .unknown, _ => return 1

def edgeLatency (g : Graph) (e : EdgeId) : Checked Cycle := do
  g.linkLatency (← g.link e)

/-- Does the edge bound cycles? With `free`, register reuse does not. -/
def boundsCycles (free : Bool) (dep : Dependence) : Bool :=
  !dep.isBack && !(free && dep.isAnti)

def earliestOver (g : Graph) (free : Bool) (n : MoveId) : Checked Cycle := do
  let ins := (g.entries (← g.move n).ins).filter fun (_, l) => boundsCycles free l.dep
  ins.foldlM (fun earliest (_, l) => do
    match (g.move? l.tail).bind Move.cycle? with
    | some c => return max earliest (← Cycle.add c (← g.linkLatency l))
    | none => return earliest) 0

def latestOver (g : Graph) (free : Bool) (n : MoveId) : Checked (Option Cycle) := do
  let outs := (g.entries (← g.move n).outs).filter fun (_, l) => boundsCycles free l.dep
  outs.foldlM (fun latest (_, l) => do
    match (g.move? l.head).bind Move.cycle? with
    | some c => do
      let bound ← Cycle.sub c (← g.linkLatency l)
      return some (match latest with | some b => min b bound | none => bound)
    | none => return latest) none

/-- The earliest cycle the placed predecessors allow. -/
def earliest (g : Graph) (n : MoveId) : Checked Cycle := g.earliestOver false n

/-- The earliest cycle if no register were reused. -/
def earliestFree (g : Graph) (n : MoveId) : Checked Cycle := g.earliestOver true n

/-- The latest cycle the placed successors allow, if one of them bounds it. -/
def latest (g : Graph) (n : MoveId) : Checked (Option Cycle) := g.latestOver false n

def latestFree (g : Graph) (n : MoveId) : Checked (Option Cycle) := g.latestOver true n

/-! ## Readiness -/

/-- Does `other` hold back `m`? Not if it is placed, part of the group placed together with `m`,
or a move of the same operation. -/
def holdsBack (g : Graph) (m : Move) (group : List MoveId) (other : MoveId) : Bool :=
  match g.move? other with
  | some o => !(o.isPlaced || group.contains other || o.sharesOperation m)
  | none => false

/-- Is every predecessor of `n` placed or in `group`? A control-flow move waits for all moves. -/
def predecessorsPlaced (g : Graph) (n : MoveId) (group : List MoveId) : Checked Bool := do
  let m ← g.move n
  let others := if m.controlFlow then g.moveIds.filter (· ≠ n)
    else ((g.entries m.ins).filter fun (_, l) => !l.dep.isBack).map fun (_, l) => l.tail
  return !others.any (g.holdsBack m group)

/-- Is every successor of `n` placed or in `group`? A control-flow move waits for none. -/
def successorsPlaced (g : Graph) (n : MoveId) (group : List MoveId) : Checked Bool := do
  let m ← g.move n
  let others := if m.controlFlow then []
    else ((g.entries m.outs).filter fun (_, l) => !l.dep.isBack).map fun (_, l) => l.head
  return !others.any (g.holdsBack m group)

end Transport.Graph
