import Transport.Region

/-!
# Software bypassing

An operand whose value was produced shortly before reads it from the producer directly. The
register write in between may then be without readers and is taken out at the end.

Top-down, operands are redirected after they were placed, and may move to an earlier cycle.
Bottom-up, the consumer is placed before its producer, so operands are redirected before they are
placed, and a producer without readers is taken out right away. Writes to forced-bypass registers
are taken out whether or not dead results are otherwise.
-/

namespace Transport

/-- The outcome of bypassing the operands of an operation. -/
inductive BypassOutcome
  /-- No operand was bypassed. -/
  | unchanged
  /-- This many operands read their producer directly. -/
  | bypassed (count : Nat)
  /-- A redirected operand fits into no cycle up to its old one. The bypasses of the group have to
  be removed. -/
  | needsFallback
deriving DecidableEq

/-- The outcome for one operand. -/
inductive OperandBypass
  | skipped
  | bypassed
  | failed
deriving DecidableEq

namespace Bypasser

def isEnabled (b : Bypasser) : Bool := 0 < b.lookBack

def isBypassed (b : Bypasser) (n : MoveId) : Bool := b.log.any (·.dest = n)

/-- Keep a bypass. Its producer, unless it is gone already, may have lost its last reader. -/
def keep (b : Bypasser) (e : Bypass) : Bypasser :=
  { b with
    log := e :: b.log
    deadCandidates :=
      if e.sourceRemoved || b.deadCandidates.contains e.source then b.deadCandidates
      else b.deadCandidates ++ [e.source] }

end Bypasser

namespace Graph

/-- The only move whose register value `n` reads, leaving aside pseudo reads. -/
def soleSource (g : Graph) (n : MoveId) : Option MoveId :=
  let raw := (g.entering n).filter fun (_, l) =>
    l.dep.isRaw && !l.dep.guardUse && !l.dep.headPseudo
  match raw with
  | [(_, l)] => some l.tail
  | _ => none

/-- Can the source of a producer be read directly instead of its register? Only a result or an
immediate can, and not if it comes from a forced-bypass register itself. -/
def isBypassable (g : Graph) (source : Move) : Bool :=
  (source.isResult || source.src.isImmediate) && !source.src.reg?.any g.isForced

/-- A conditional producer is bypassed only under its own guard. -/
def guardsAgree (source dest : Move) : Bool :=
  source.guard.all fun guard => dest.guard = some guard

end Graph

namespace RegionM

def bypasser : RegionM Bypasser := return (← get).bypasser

def setBypasser (bypasser : Bypasser) : RegionM Unit := modify fun r => { r with bypasser }

def isControlFlow (n : MoveId) : RegionM Bool := return (← move n).controlFlow

/-- The earliest cycle for a move, its guard included. -/
def guardedEarliest (n : MoveId) : RegionM Cycle := do
  return max (← ask (·.earliest n)) (← guardBound n)

/-! ## Top-down -/

/-- Is the producer close enough to the operand? For a forced-bypass register it always is. -/
def withinLookBack (r : Reg) (produced cycle : Cycle) : RegionM Bool := do
  if (← graph).isForced r then return true
  return cycle ≤ (← Cycle.add produced (Cycle.ofLatency (← bypasser).lookBack))

/-- The producer that a placed operand may be bypassed from, and the cycle of the operand. -/
def bypassSource? (n : MoveId) : RegionM (Option (MoveId × Cycle)) := do
  let m ← move n
  let some r := m.src.reg? | return none
  let cycle ← m.cycle
  let some source := (← graph).soleSource n | return none
  let s ← move source
  let some produced := s.cycle? | return none
  unless ← withinLookBack r produced cycle do return none
  unless Graph.guardsAgree s m && (← graph).isBypassable s do return none
  return some (source, cycle)

/-- Place a redirected operand again, not later than before. -/
def replaceBefore (n : MoveId) (cycle : Cycle) (attempt : Attempt ChangeRecord) :
    RegionM (Bool × Attempt ChangeRecord) := do
  let earliest ← guardedEarliest n
  match ← earliestFit earliest n with
  | some c =>
    if c ≤ cycle then attempt.tryStep reversal (.single (.assign n c)) else return (false, attempt)
  | none => return (false, attempt)

/-- Bypass one placed operand. -/
def bypassOperand (n : MoveId) : RegionM OperandBypass := do
  let some (source, cycle) ← bypassSource? n | return .skipped
  let (ok, attempt) ← Attempt.tryStep reversal [] (.single (.unassign n))
  unless ok do return .skipped
  let (ok, attempt) ← attempt.tryStep reversal (.merge source n false)
  unless ok do
    reversal.undoAll attempt
    return .skipped
  let (ok, attempt) ← replaceBefore n cycle attempt
  unless ok do
    reversal.undoAll attempt
    return .failed
  setBypasser ((← bypasser).keep { dest := n, source, steps := attempt, sourceRemoved := false })
  return .bypassed

/-- Bypass operands in order, until one fails. Gives the bypassed ones and the last trigger. -/
def bypassOperands : List MoveId → List MoveId → Option MoveId →
    RegionM (Option (List MoveId × Option MoveId))
  | [], done, trigger => return some (done, trigger)
  | n :: ns, done, trigger => do
    let m ← move n
    if !(m.live && m.isPlaced && m.isOperand) then bypassOperands ns done trigger else
    let trigger := if m.isTrigger then some n else trigger
    match ← bypassOperand n with
    | .skipped => bypassOperands ns done trigger
    | .bypassed => bypassOperands ns (done ++ [n]) trigger
    | .failed => return none

/-- Move a placed move to the earliest cycle, if that is earlier than its own. -/
def moveUp (n : MoveId) : RegionM Unit := do
  let old ← (← move n).cycle
  unassign n
  let fit ← earliestFit (← guardedEarliest n) n
  assign n (match fit with
    | some c => if c < old then c else old
    | none => old)

/-- The last cycle in which another operand of the trigger's operation is placed. -/
def lastOperandCycle (trigger : MoveId) (group : Group) : RegionM (Option Cycle) := do
  let op := (← move trigger).dstOp
  let moves ← (group.filter (· ≠ trigger)).mapM move
  let operands := moves.filter fun m => m.live && m.isOperand && m.dstOp = op
  return (operands.filterMap Move.cycle?).max?

/-- Keep the trigger from being before another operand. -/
def settleTrigger (trigger : MoveId) (group : Group) : RegionM Unit := do
  let last ← lastOperandCycle trigger group
  let cycle ← (← move trigger).cycle
  let some last := last | return
  unless cycle < last do return
  unassign trigger
  let lower := max (← ask (·.earliest trigger)) last
  assign trigger ((← earliestFit lower trigger).getD cycle)

/-- The placed operands that were not bypassed, the trigger last. -/
def unbypassed (group : Group) (done : List MoveId) (trigger : Option MoveId) :
    RegionM (List MoveId) := do
  let rest ← group.filterM fun n => do
    let m ← move n
    return m.live && m.isPlaced && m.isOperand && !done.contains n && some n ≠ trigger
  return rest ++ trigger.toList.filter fun t => !done.contains t

/-- Bypass the placed operands of a group. The others may then move up. -/
def bypass (group : Group) : RegionM BypassOutcome := do
  unless (← bypasser).isEnabled do return .unchanged
  if ← group.anyM isControlFlow then return .unchanged
  let some (done, trigger) ← bypassOperands group [] none | return .needsFallback
  if done.isEmpty then return .unchanged
  (← unbypassed group done trigger).forM moveUp
  if let some t := trigger then settleTrigger t group
  return .bypassed done.length

/-! ## Bottom-up -/

/-- The producer that an operand may be bypassed from before both are placed. -/
def bypassSourceBelow? (n : MoveId) : RegionM (Option (MoveId × Reg)) := do
  let m ← move n
  unless m.live && !m.isPlaced && m.isOperand do return none
  let some r := m.src.reg? | return none
  let some source := (← graph).soleSource n | return none
  let s ← move source
  unless s.live && !s.isPlaced do return none
  if ← ask (·.mergesAcrossLoop source n) then return none
  unless (← graph).isBypassable s && Graph.guardsAgree s m do return none
  return some (source, r)

/-- Take out the producer of a bypassed value if nobody reads it any more. -/
def dropSource (source : MoveId) (r : Reg) (attempt : Attempt ChangeRecord) :
    RegionM (Bool × Attempt ChangeRecord) := do
  unless (← bypasser).killDeadResults || (← graph).isForced r do return (false, attempt)
  unless (← move source).isResult do return (false, attempt)
  if ← ask (·.resultNeeded source) then return (false, attempt)
  attempt.tryStep reversal (.single (.removeDead source))

/-- Bypass one operand before it is placed, and tell whether it was possible. -/
def bypassOperandBelow (n : MoveId) : RegionM Bool := do
  let some (source, r) ← bypassSourceBelow? n | return false
  let (ok, attempt) ← Attempt.tryStep reversal [] (.merge source n false)
  unless ok do return false
  let (sourceRemoved, attempt) ← dropSource source r attempt
  setBypasser ((← bypasser).keep { dest := n, source, steps := attempt, sourceRemoved })
  return true

/-- Bypass the operands of a group before they are placed. Gives their number. -/
def bypassBelow (group : Group) : RegionM Nat := do
  unless (← bypasser).isEnabled do return 0
  if ← group.anyM isControlFlow then return 0
  group.foldlM (fun count n => do
    return if ← bypassOperandBelow n then count + 1 else count) 0

/-! ## Taking bypasses back -/

/-- Take back every bypass into a group, and take the moves of the group off their cycles. -/
def unbypass (group : Group) : RegionM Unit := do
  unassignAll group
  let b ← bypasser
  let (gone, log) := b.log.partition fun e => group.contains e.dest
  setBypasser { b with log }
  gone.forM fun e => reversal.undoAll e.steps
  -- That put the operands back into their old cycles.
  unassignAll group

/-- Take out a producer if nobody reads its value any more. -/
def removeDeadSource (source : MoveId) : RegionM Bool := do
  let m ← move source
  unless m.live && m.isResult do return false
  if ← ask (·.resultNeeded source) then return false
  let g ← graph
  unless (← bypasser).killDeadResults || m.dst.reg?.any g.isForced do return false
  return (← Attempt.tryStep reversal [] (.single (.removeDead source))).1

/-- Take out the bypassed producers that have no reader any more. Gives the number of producers
that are gone, those taken out while bypassing included. -/
def dropDeadResults : RegionM Nat := do
  let b ← bypasser
  setBypasser { b with deadCandidates := [] }
  let removed ← b.deadCandidates.foldlM (fun count source => do
    return if ← removeDeadSource source then count + 1 else count)
    (b.log.countP (·.sourceRemoved))
  if 0 < removed then note (.deadResultsRemoved removed)
  return removed

/-- Forget all bypasses. They stay in force. -/
def clearBypasses : RegionM Unit :=
  modify fun r => { r with bypasser := { r.bypasser with log := [], deadCandidates := [] } }

end RegionM

end Transport
