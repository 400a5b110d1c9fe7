import Transport.Resource.Fit

/-!
# Placing moves

Placing a move enters it into the usage and into the graph; taking it off its cycle removes both
entries. An operation is bound to a unit as long as one of its moves is placed.
-/

namespace Transport.Usage

/-- How far past the last used cycle a place is looked for. -/
def searchWindow : Cycle := 64

/-- The smallest cycle from `lower` on into which `n` fits. -/
def earliestFit (u : Usage) (m : Machine) (g : Graph) (lower : Cycle) (n : MoveId) :
    Checked (Option Cycle) := do
  let lower := max lower 0
  let horizon ← Cycle.add (max lower (u.lastCycle.getD 0)) searchWindow
  searchUp (u.fits m g n) (horizon - lower + 1).toNat lower

/-- The largest cycle up to `upper`, and not negative, into which `n` fits. -/
def latestFit (u : Usage) (m : Machine) (g : Graph) (upper : Cycle) (n : MoveId) :
    Checked (Option Cycle) :=
  searchDown (u.fits m g n) (upper + 1).toNat

def canAssign (u : Usage) (m : Machine) (g : Graph) (cycle : Cycle) (n : MoveId) :
    Checked Bool := do
  if ← g.isPlaced n then return false
  u.fits m g n cycle

/-- Enter a transport into the tables of buses, ports and immediates. -/
def occupy (u : Usage) (n : MoveId) (move : Move) (a : Assignment) : Usage :=
  let u := { u with
    buses := u.buses.insert ⟨a.cycle, a.bus⟩ n
    assignments := u.assignments.insert n a
    longImmediates := if a.long then countUp u.longImmediates a.cycle else u.longImmediates }
  let u := match move.src, a.srcUnit, move.srcOp with
    | .register r, _, _ => { u with fileReads := countUp u.fileReads ⟨a.cycle, r.file⟩ }
    | .output k, some unit, some o => { u with results := ownUp u.results ⟨a.cycle, unit, k⟩ o }
    | _, _, _ => u
  match move.dst, a.dstUnit, move.dstOp with
  | .register r, _, _ => { u with fileWrites := countUp u.fileWrites ⟨a.cycle, r.file⟩ }
  | .input k trigger, some unit, some o => { u with
      inputs := u.inputs.insert ⟨a.cycle, unit, k⟩ n
      triggers := if trigger then u.triggers.insert ⟨a.cycle, unit⟩ o else u.triggers }
  | _, _, _ => u

/-- Take a transport out of the tables of buses, ports and immediates. -/
def vacate (u : Usage) (n : MoveId) (move : Move) (a : Assignment) : Usage :=
  let u := { u with
    buses := u.buses.erase ⟨a.cycle, a.bus⟩
    assignments := u.assignments.erase n
    longImmediates := if a.long then countDown u.longImmediates a.cycle else u.longImmediates }
  let u := match move.src, a.srcUnit with
    | .register r, _ => { u with fileReads := countDown u.fileReads ⟨a.cycle, r.file⟩ }
    | .output k, some unit => { u with results := ownDown u.results ⟨a.cycle, unit, k⟩ }
    | _, _ => u
  match move.dst, a.dstUnit with
  | .register r, _ => { u with fileWrites := countDown u.fileWrites ⟨a.cycle, r.file⟩ }
  | .input k trigger, some unit => { u with
      inputs := u.inputs.erase ⟨a.cycle, unit, k⟩
      triggers := if trigger then u.triggers.erase ⟨a.cycle, unit⟩ else u.triggers }
  | _, _ => u

/-- Bind an operation to a unit once more. -/
def bind (u : Usage) (g : Graph) (op : Option OpId) (unit : Option UnitId) :
    Checked (Usage × Graph) := do
  let (some o, some v) := (op, unit) | return (u, g)
  if (u.boundUnit o).any (· ≠ v) then throw .assertion
  let _ ← g.op o
  return ({ u with bindings := ownUp u.bindings o v },
    g.modifyOp o fun op => { op with unit? := some v })

/-- Take back one binding of an operation. -/
def unbind (u : Usage) (g : Graph) (op : Option OpId) (unit : Option UnitId) :
    Checked (Usage × Graph) := do
  let (some o, some _) := (op, unit) | return (u, g)
  if (u.boundUnit o).isNone then return (u, g)
  let u := { u with bindings := ownDown u.bindings o }
  if (u.boundUnit o).isSome then return (u, g)
  let _ ← g.op o
  return (u, g.modifyOp o fun op => { op with unit? := none })

/-- Place `n` in the cycle. -/
def assign (u : Usage) (m : Machine) (g : Graph) (cycle : Cycle) (n : MoveId) :
    Checked (Usage × Graph) := do
  if ← g.isPlaced n then throw (.alreadyPlaced n)
  let some a ← u.fit m g cycle n | throw (.noResources n cycle)
  let move ← g.move n
  let u := u.occupy n move a
  let (u, g) ← u.bind g move.srcOp a.srcUnit
  let (u, g) ← u.bind g move.dstOp a.dstUnit
  return (u, ← g.setPlacement n (some { cycle, bus := a.bus }))

/-- Take `n` off its cycle. -/
def unassign (u : Usage) (g : Graph) (n : MoveId) : Checked (Usage × Graph) := do
  unless ← g.isPlaced n do throw (.notPlaced n)
  let some a := u.assignments[n]? | throw (.foreignPlacement n)
  let move ← g.move n
  let u := u.vacate n move a
  let (u, g) ← u.unbind g move.srcOp a.srcUnit
  let (u, g) ← u.unbind g move.dstOp a.dstUnit
  return (u, ← g.setPlacement n none)

/-- Does the immediate of `n` fit inline on a bus to its destination? Other moves have none. -/
def canCarryImmediate (u : Usage) (m : Machine) (g : Graph) (n : MoveId) : Checked Bool := do
  let move ← g.move n
  let .immediate v := move.src | return true
  (← u.unitChoices g move.dstOp []).anyM fun unit => do
    return m.takesShortImmediate v (← destPort move.dst unit)

end Transport.Usage
