import Transport.Scheduling.Placing

/-!
# Placing an operation bottom-up

The operands are bypassed before anything is placed. Then the results are placed, then the
operands, and the trigger last. If that fails, the operation is tried from an earlier cycle.
-/

namespace Transport.RegionM

/-- Place results as late as possible, renaming what they read where that helps, until one does
not fit. -/
def placeResultsLate (endCycle start : Cycle) : List MoveId → RegionM Bool
  | [] => return true
  | n :: ns => do
    renameIfUseful n .bottomUp endCycle
    match ← placeLate n start with
    | some _ => placeResultsLate endCycle start ns
    | none => return false

/-- Place operands not after `upper`, until one does not fit. Gives whether all were placed and
the last of their cycles. -/
def placeOperandsUpTo (upper : Cycle) :
    List MoveId → Option Cycle → RegionM (Bool × Option Cycle)
  | [], last => return (true, last)
  | n :: ns, last => do
    match ← placeLate n upper with
    | some c =>
      placeOperandsUpTo upper ns (some (match last with | some l => max l c | none => c))
    | none => return (false, last)

/-- Place the operands not after `upper` and then the trigger not before them. -/
def placeInputsUpTo (others : List MoveId) (trigger : Option MoveId) (upper : Cycle) :
    RegionM Bool := do
  let (ok, last) ← placeOperandsUpTo upper others none
  unless ok do return false
  let some t := trigger | return true
  match ← placeLate t upper with
  | some c =>
    if last.all (· ≤ c) then return true
    unassignAll [t]
    return false
  | none => return false

/-- Lower the bound `k - 1` on the trigger until operands and trigger fit. -/
def lowerTrigger (operands others : List MoveId) (trigger : Option MoveId) : Nat → RegionM Bool
  | 0 => return false
  | k + 1 => do
    if ← placeInputsUpTo others trigger k then return true
    unassignAll operands
    lowerTrigger operands others trigger k

/-- Place the operands at or before the latest cycle of the trigger, and the trigger after
them. -/
def placeInputsLate (operands : List MoveId) (start : Cycle) : RegionM Bool := do
  let trigger ← operands.findM? fun n => return (← move n).isTrigger
  let others := operands.filter fun n => some n ≠ trigger
  let upper ← match trigger with
    | some t => do
      match ← ask (·.latest t) with
      | some l => pure (min l start)
      | none => pure start
    | none => pure start
  lowerTrigger operands others trigger (upper + 1).toNat

/-- Try to place an operation from cycle `k - 1` down to the first one. -/
def retryLate (options : Options) (endCycle : Cycle) (unit operands results : List MoveId) :
    Nat → RegionM Bool
  | 0 => return false
  | k + 1 => do
    if ← placeResultsLate endCycle k results then
      if ← placeInputsLate operands k then
        if options.verbose then note (.placedDownFrom unit k)
        return true
    unassignAll results
    count fun s => { s with operationRetries := s.operationRetries + 1 }
    retryLate options endCycle unit operands results k

/-- An operand that still reads a forced-bypass register makes the block unschedulable. The
bypasses of its operation are taken back first. -/
def rejectForcedLate (operands : List MoveId) (bypassed : Nat) : RegionM Unit := do
  if let some n ← forcedOperand? operands then
    note (.notBypassed n)
    if 0 < bypassed then unbypass operands
    throw (.error (.unschedulable n))

/-- Place an operation bottom-up, if need be without its bypasses. -/
def placeOperationLate (options : Options) (endCycle : Cycle) (unit : List MoveId) :
    RegionM Unit := do
  let (operands, results) ← operandsAndResults unit
  count fun s => { s with operations := s.operations + 1 }
  let place := retryLate options endCycle unit operands results (endCycle + 1).toNat
  let bypassed ← bypassBelow operands
  rejectForcedLate operands bypassed
  if ← place then
    count fun s => { s with bypasses := s.bypasses + bypassed }
    return
  if 0 < bypassed then
    unbypass operands
    count fun s => { s with bypassFallbacks := s.bypassFallbacks + 1 }
    rejectForcedLate operands 0
    if ← place then return
  throw (.error (.unschedulable (unit.headD .invalid)))

end Transport.RegionM
