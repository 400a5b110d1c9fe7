import Transport.Bypassing

/-!
# Placing single moves

One move is placed as early or as late as its placed neighbours allow. Before that, its live range
may be renamed if nothing but the reuse of a register keeps it from a better cycle.
-/

namespace Transport.RegionM

/-- Place a move as early as possible, not before `lower`. A control-flow move comes after all
others. -/
def placeEarly (n : MoveId) (lower : Cycle) : RegionM (Option Cycle) := do
  let earliest := max (← guardedEarliest n) lower
  let last := (← get).usage.lastCycle.getD 0
  let earliest := if ← isControlFlow n then max earliest last else earliest
  let some cycle ← earliestFit earliest n | return none
  assign n cycle
  return some cycle

/-- Place a move as late as possible, not after `upper`. -/
def placeLate (n : MoveId) (upper : Cycle) : RegionM (Option Cycle) := do
  let latest := match ← ask (·.latest n) with
    | some l => min l upper
    | none => upper
  let floor ← guardBound n
  let floor := max floor (← ask (·.earliest n))
  if latest < floor then return none
  let some cycle ← latestFit latest n | return none
  if cycle < floor then return none
  assign n cycle
  return some cycle

/-- The cycle a write could have if no register were reused, if that is earlier. -/
def earlierCycle? (n : MoveId) : RegionM (Option Cycle) := do
  unless (← move n).dst.isRegister do return none
  let free ← ask (·.earliestFree n)
  let bound ← ask (·.earliest n)
  return if free < bound then some free else none

/-- The cycle a read could have if no register were reused, if that is later. -/
def laterCycle? (n : MoveId) (endCycle : Cycle) : RegionM (Option Cycle) := do
  unless (← move n).src.isRegister do return none
  let some bound ← ask (·.latest n) | return none
  let free := (← ask (·.latestFree n)).getD endCycle
  return if bound < free then some free else none

/-- Rename the live range of a move if only the reuse of a register keeps it from an earlier
(bottom-up: a later) cycle. The renaming stays even if the move gets no better cycle. -/
def renameIfUseful (n : MoveId) (direction : Direction) (endCycle : Cycle) : RegionM Unit := do
  if (← get).renamer.isNone then return
  let cycle? ← match direction with
    | .topDown => earlierCycle? n
    | .bottomUp => laterCycle? n endCycle
  let some cycle := cycle? | return
  let change := Change.rename n (decide (direction = .topDown)) cycle direction
  if (← Attempt.tryStep reversal [] (.single change)).1 then
    count fun s => { s with renames := s.renames + 1 }

/-- Does a move read a forced-bypass register? -/
def readsForced (n : MoveId) : RegionM Bool := do
  let g ← graph
  return (← move n).src.reg?.any g.isForced

/-- The first of the operands that reads a forced-bypass register. -/
def forcedOperand? (operands : List MoveId) : RegionM (Option MoveId) :=
  operands.findM? readsForced

/-- The operands of a unit and its results. -/
def operandsAndResults (unit : List MoveId) : RegionM (List MoveId × List MoveId) := do
  let operands ← unit.filterM fun n => return (← move n).isOperand
  let results ← unit.filterM fun n => return !(← move n).isOperand
  return (operands, results)

end Transport.RegionM
