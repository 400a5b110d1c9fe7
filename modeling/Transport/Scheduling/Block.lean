import Transport.Schedule
import Transport.Scheduling.BottomUp
import Transport.Scheduling.TopDown
import Transport.Scheduling.Units

/-!
# Scheduling a block

The most critical ready group is placed, unit by unit, until none is left. The selector hands out
a move at most once, so the number of moves bounds the number of groups.
-/

namespace Transport

namespace RegionM

/-- The cycle that moves are placed down from: room for every move and every latency. -/
def endCycleOf (g : Graph) : Checked Cycle := do
  let latencies ← g.ops.toList.foldlM (fun sum o => addWord sum o.latency) 0
  let total ← addWord g.moveIds.length latencies
  Cycle.add (Cycle.ofLatency total) 10

/-- Place a move that belongs to no operation. -/
def placeLone (options : Options) (endCycle : Cycle) (n : MoveId) : RegionM Unit := do
  renameIfUseful n options.direction endCycle
  let placed ← match options.direction with
    | .topDown => placeEarly n 0
    | .bottomUp => placeLate n endCycle
  if placed.isNone then throw (.error (.unschedulable n))

/-- Place the moves of a unit that are still pending. -/
def placeUnit (options : Options) (endCycle : Cycle) (unit : List MoveId) : RegionM Unit := do
  let pending ← ask (Group.pending unit)
  if pending.isEmpty then return
  if ← ask (Group.isOperation pending) then
    match options.direction with
    | .topDown => placeOperationEarly options pending
    | .bottomUp => placeOperationLate options endCycle pending
  else pending.forM (placeLone options endCycle)

/-- Tell the selector which moves of a unit are placed. -/
def reportUnit (unit : List MoveId) : RegionM Unit :=
  unit.forM fun n => do
    if ← ask (·.isSettled n) then updateSelector fun s g => s.notify g n

def placeUnitAndReport (options : Options) (endCycle : Cycle) (unit : List MoveId) :
    RegionM Unit := do
  placeUnit options endCycle unit
  reportUnit unit

/-- The next group of the selector. -/
def nextGroup : RegionM Group := do
  let r ← get
  let some s := r.selector | return []
  let (group, s, graph) ← s.next r.graph
  modify fun r => { r with graph, selector := some s }
  return group

/-- Place groups until the selector has none. -/
def placeGroups (options : Options) (endCycle : Cycle) : Nat → RegionM Unit
  | 0 => return
  | fuel + 1 => do
    let group ← nextGroup
    if group.isEmpty then return
    count fun s => { s with groups := s.groups + 1 }
    let units ← ask fun g => group.orderedUnits g options.direction
    units.forM (placeUnitAndReport options endCycle)
    placeGroups options endCycle fuel

/-- Moves that are left make the block unschedulable. -/
def rejectUnplaced : RegionM Unit := do
  let g ← graph
  let left := g.moveIds.countP fun n => (g.move? n).any (!·.isPlaced)
  if 0 < left then
    note (.stuck left)
    throw (.error (.deadlock left))

/-- Place every move of the region, with its selector and bypasser. -/
def placeAll (options : Options) : RegionM Unit := do
  let g ← graph
  let endCycle ← match options.direction with
    | .topDown => pure 0
    | .bottomUp => endCycleOf g
  placeGroups options endCycle (g.moves.size + 1)
  rejectUnplaced
  let removed ← dropDeadResults
  count fun s => { s with deadResultsRemoved := s.deadResultsRemoved + removed }
  clearBypasses

/-- Give the region a selector and a bypasser of its own, and allow its renamer what the options
allow. -/
def prepare (options : Options) : RegionM Unit := do
  let (s, graph) ← Selector.ofGraph (← graph) options.direction options.orphans
  modify fun r => { r with
    graph, stats := {}
    selector := some s
    bypasser := { lookBack := options.bypassDistance, killDeadResults := options.killDeadResults }
    renamer := if options.renameRegisters
      then r.renamer.map ({ · with longImmediates := options.longImmediates }) else none }

/-- Schedule the moves of the region with a selector, a bypasser and counters of its own. -/
def scheduleWithin (options : Options) : RegionM Schedule := do
  prepare options
  note (.started (← graph).moveIds.length options.direction options.bypassDistance)
  placeAll options
  let r ← get
  let schedule ← Schedule.ofGraph r.graph r.stats
  note (.finished schedule.moveCount schedule.length r.stats)
  return schedule

/-- Schedule the moves of the region. Afterwards the region has its former selector, bypasser and
counters again, and its former renamer if the options do not allow to use it. -/
def schedule (options : Options) : RegionM Schedule := fun r =>
  let restore := fun (r' : Region) => { r' with
    selector := r.selector, bypasser := r.bypasser, stats := r.stats
    renamer := if options.renameRegisters then r'.renamer else r.renamer }
  match (scheduleWithin options).run r with
  | .ok s r' => .ok s (restore r')
  | .error e r' => .error e (restore r')

end RegionM

/-- Schedule the moves of a graph on a machine from scratch, with or without a renamer. Gives the
region as it was left in either case. -/
def Graph.schedule (g : Graph) (machine : Machine) (renamer : Option Renamer) (options : Options) :
    Except Halt Schedule × Region :=
  match (RegionM.schedule options).run { machine, graph := g, renamer } with
  | .ok s r => (.ok s, r)
  | .error e r => (.error e, r)

end Transport
