import Transport.Scheduling.Placing

/-!
# Placing an operation top-down

The operands are placed first, then they are bypassed, then the results are placed. If that fails,
the operation is taken off and tried again, without bypassing or from a later cycle on.
-/

namespace Transport.RegionM

/-- How many cycles past the end of the schedule an operation is tried from. -/
def retryWindow : Cycle := 20

/-- The operands with the latest inputs first, and the trigger last. -/
def operandOrder (operands : List MoveId) : RegionM (List MoveId) := do
  let isTrigger := fun n => return (← move n).isTrigger
  let others ← operands.filterM fun n => return !(← isTrigger n)
  let triggers ← operands.filterM isTrigger
  match others with
  -- Nothing to compare.
  | [] | [_] => return others ++ triggers
  | _ =>
    let keyed ← others.mapM fun n => return (← ask (·.earliest n), n)
    return (sortBy (fun a b => b.1 ≤ a.1) keyed).map Prod.snd ++ triggers

/-- Where the operands placed so far are. -/
structure OperandCycles where
  /-- The cycle of the operand placed first. -/
  anchor : Option Cycle := none
  /-- The earliest cycle. -/
  first : Option Cycle := none
  /-- The latest cycle, and at least the start. -/
  last : Cycle

/-- Place operands in order, not before `start`. The trigger is not placed before another operand
and no operand before the one placed first. Tells whether all were placed. -/
def placeOperandsFrom (start : Cycle) :
    List MoveId → OperandCycles → RegionM (Bool × OperandCycles)
  | [], cs => return (true, cs)
  | n :: ns, cs => do
    let lower := if (← move n).isTrigger then cs.last else cs.anchor.getD start
    match ← placeEarly n lower with
    | some c =>
      placeOperandsFrom start ns
        { anchor := cs.anchor.or (some c)
          first := some (match cs.first with | some f => min f c | none => c)
          last := max cs.last c }
    | none => return (false, cs)

/-- Try to place all operands, a given number of times, each time from a later cycle on. Gives the
earliest cycle of an operand. -/
def placeOperandRounds (operands order : List MoveId) : Nat → Cycle → RegionM (Option Cycle)
  | 0, _ => return none
  | rounds + 1, start => do
    let (ok, cs) ← placeOperandsFrom start order { last := start }
    if ok then return cs.first
    unassignAll operands
    let start ← Cycle.add (match cs.anchor with | some a => max a start | none => start) 1
    placeOperandRounds operands order rounds start

/-- Place the operands at or after `start`. Gives the earliest of their cycles; if they do not all
fit, none of them is placed. -/
def placeOperands (operands : List MoveId) (start : Cycle) : RegionM (Option Cycle) := do
  if operands.isEmpty then return some start
  placeOperandRounds operands (← operandOrder operands) 2 start

/-- Place results as early as possible, renaming their registers where that helps, until one does
not fit. -/
def placeResultsEarly : List MoveId → RegionM Bool
  | [] => return true
  | n :: ns => do
    renameIfUseful n .topDown 0
    match ← placeEarly n 0 with
    | some _ => placeResultsEarly ns
    | none => return false

/-- What to do next about an operation. -/
inductive Retry
  /-- It is placed. -/
  | done
  /-- Try again from the cycle on, with or without bypassing. -/
  | again (start : Cycle) (bypassing : Bool)

def countRetry : RegionM Unit :=
  count fun s => { s with operationRetries := s.operationRetries + 1 }

/-- Bypass the placed operands if that is wanted. Gives the number of bypassed operands; if there
is none, the bypasses were taken back and the operands are off their cycles. -/
def bypassPlaced (operands : List MoveId) (bypassing : Bool) : RegionM (Option Nat) := do
  unless bypassing do return some 0
  match ← bypass operands with
  | .unchanged => return some 0
  | .bypassed k => return some k
  | .needsFallback =>
    unbypass operands
    count fun s => { s with bypassFallbacks := s.bypassFallbacks + 1 }
    return none

/-- An operand that still reads a forced-bypass register makes the block unschedulable. -/
def rejectForced (operands : List MoveId) : RegionM Unit := do
  if let some n ← forcedOperand? operands then
    note (.notBypassed n)
    unassignAll operands
    throw (.error (.unschedulable n))

/-- Place the results, or take the operation off again. -/
def finishEarly (options : Options) (unit operands results : List MoveId)
    (start first : Cycle) (bypassing : Bool) (bypassed : Nat) : RegionM Retry := do
  if ← placeResultsEarly results then
    count fun s => { s with bypasses := s.bypasses + bypassed }
    if options.verbose then note (.placedFrom unit first)
    return .done
  unassignAll results
  countRetry
  if 0 < bypassed then
    unbypass operands
    return .again start false
  unassignAll operands
  return .again (max (← Cycle.add first 1) (start + 1)) bypassing

/-- Try to place an operation from the cycle `start` on. -/
def tryEarly (options : Options) (unit operands results : List MoveId) (start : Cycle)
    (bypassing : Bool) : RegionM Retry := do
  match ← placeOperands operands start with
  | none =>
    countRetry
    return .again (start + 1) bypassing
  | some first =>
    match ← bypassPlaced operands bypassing with
    | none => return .again start false
    | some bypassed =>
      rejectForced operands
      finishEarly options unit operands results start first bypassing bypassed

/-- Try until the operation is placed or the horizon is passed. Tells whether it is placed. -/
def retryEarly (options : Options) (unit operands results : List MoveId) (horizon : Cycle) :
    Nat → Cycle → Bool → RegionM Bool
  | 0, _, _ => return false
  | fuel + 1, start, bypassing => do
    if horizon < start then return false
    match ← tryEarly options unit operands results start bypassing with
    | .done => return true
    | .again start bypassing =>
      retryEarly options unit operands results horizon fuel start bypassing

/-- Place an operation top-down. Every try but one, which gives up bypassing, starts later than
the one before, so their number is bounded by the horizon. -/
def placeOperationEarly (options : Options) (unit : List MoveId) : RegionM Unit := do
  let (operands, results) ← operandsAndResults unit
  count fun s => { s with operations := s.operations + 1 }
  let bypassing := (← bypasser).isEnabled
  let horizon ← Cycle.add ((← get).usage.lastCycle.getD 0) retryWindow
  unless ← retryEarly options unit operands results horizon (horizon + 3).toNat 0 bypassing do
    throw (.error (.unschedulable (unit.headD .invalid)))

end Transport.RegionM
