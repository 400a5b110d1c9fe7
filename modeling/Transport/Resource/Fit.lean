import Transport.Resource.Usage

/-!
# Fitting a move into a cycle

A move fits into a cycle if some choice of units leaves it a free bus between its two ports and
takes nothing away from the moves placed already. A unit's input keeps an operand from its write
until the trigger of its operation, and a unit's output keeps a result until the next operation
on the unit finishes.
-/

namespace Transport.Usage

/-- The units an operation may still run on; no unit for a move of no operation. -/
def unitChoices (u : Usage) (g : Graph) (op : Option OpId) (restrict : List UnitId) :
    Checked (List (Option UnitId)) := do
  let some o := op | return [none]
  match u.boundUnit o with
  | some unit => return [some unit]
  | none =>
    let units := (← g.op o).units
    return (units.filter fun v => restrict.isEmpty || restrict.contains v).map some

def sourcePort (t : Terminal) (unit : Option UnitId) : Checked (Option Port) :=
  match t with
  | .register r => return some (.fileRead r.file)
  | .output k => return unit.map (.unitOut · k)
  | .returnAddress => return some .returnRead
  | .immediate _ => return none
  | .input .. => throw .readsInput

def destPort (t : Terminal) (unit : Option UnitId) : Checked Port :=
  match t, unit with
  | .register r, _ => return .fileWrite r.file
  | .input k _, some u => return .unitIn u k
  | .input .., none => throw .operandWithoutOperation
  | .returnAddress, _ => return .returnWrite
  | .immediate _, _ | .output _, _ => throw .writesReadOnly

/-! ## State of the units -/

def triggerCycle (g : Graph) (o : OpId) : Checked (Option Cycle) := do
  let some t ← g.trigger o | return none
  return (← g.move t).cycle?

/-- The cycles in which results of the operation are read. -/
def readCycles (g : Graph) (o : Operation) : List Cycle :=
  o.outputs.filterMap fun n => (g.move? n).bind Move.cycle?

/-- The other operations bound to a unit. -/
def othersOn (u : Usage) (unit : UnitId) (o : OpId) : List OpId :=
  (u.bindings.toList.filter fun (other, v, _) => other ≠ o && v = unit).map Prod.fst

/-- Is a result of `o` replaced by a later operation on the unit before it is read at `read`? -/
def resultLost (u : Usage) (g : Graph) (unit : UnitId) (o : OpId) (read : Cycle) :
    Checked Bool := do
  let some t ← triggerCycle g o | return false
  (u.othersOn unit o).anyM fun other => do
    let some t' ← triggerCycle g other | return false
    if t' ≤ t then return false
    return (← Cycle.add t' (Cycle.ofLatency (← g.op other).latency)) ≤ read

/-- Would `o`, triggered at `t`, conflict with the results of `other` on the same unit? If `other`
has results read but no trigger yet, its trigger is at the latest its latency before the first
read. -/
def triggersClash (g : Graph) (o other : Operation) (t : Cycle) (t' : Option Cycle) :
    Checked Bool := do
  let latency := Cycle.ofLatency o.latency
  let latency' := Cycle.ofLatency other.latency
  match t' with
  | none =>
    match (readCycles g other).min?, (readCycles g other).max? with
    | some first, some last =>
      if t < (← Cycle.sub first latency') then return false
      return (← Cycle.add t latency) ≤ last
    | _, _ => return false
  | some t' =>
    if t' < t then
      match (readCycles g other).max? with
      | some last => return (← Cycle.add t latency) ≤ last
      | none => return false
    else if t < t' then
      match (readCycles g o).max? with
      | some last => return (← Cycle.add t' latency') ≤ last
      | none => return false
    else return false

/-- Would triggering `o` at `t` replace a pending result, or have its own results replaced? -/
def triggerDestroys (u : Usage) (g : Graph) (unit : UnitId) (o : OpId) (t : Cycle) :
    Checked Bool := do
  let op ← g.op o
  (u.othersOn unit o).anyM fun other => do
    triggersClash g op (← g.op other) t (← triggerCycle g other)

/-- The cycles in which an input keeps the value written at `write`, as far as they are known. -/
def holdWindow (trigger : Option Cycle) (write : Cycle) : Cycle × Cycle :=
  match trigger with
  | some t => (write, max t write)
  | none => (write, write)

/-- The cycles in which move `n` of an operation needs input `port`. A write that is still to come
happens with the trigger at the latest. -/
def inputWindow (g : Graph) (port : Nat) (trigger : Option Cycle) (n : MoveId) :
    Option (Cycle × Cycle) := do
  let m ← g.move? n
  match m.dst with
  | .input k _ => if k ≠ port then none
  | _ => none
  match m.cycle? with
  | some c => some (holdWindow trigger c)
  | none => trigger.map fun t => (t, t)

/-- Does another operation on the unit need input `port` in the cycles from `lo` to `hi`? -/
def inputBusy (u : Usage) (g : Graph) (unit : UnitId) (o : OpId) (port : Nat) (lo hi : Cycle) :
    Checked Bool :=
  (u.othersOn unit o).anyM fun other => do
    let trigger ← triggerCycle g other
    return (← g.op other).inputs.any fun n =>
      (inputWindow g port trigger n).any fun (lo', hi') => lo' ≤ hi && lo ≤ hi'

/-- Would triggering `o` at `t` read an operand that another operation has replaced? -/
def triggerStrands (u : Usage) (g : Graph) (unit : UnitId) (o : OpId) (port : Nat) (t : Cycle) :
    Checked Bool := do
  if ← u.inputBusy g unit o port t t then return true
  (← g.op o).inputs.anyM fun n => do
    let some m := g.move? n | return false
    match m.dst, m.cycle? with
    | .input k false, some c => u.inputBusy g unit o k (min c t) t
    | _, _ => return false

/-! ## Ports and buses -/

def destFree (u : Usage) (m : Machine) (g : Graph) (cycle : Cycle) (move : Move) (dst : Port) :
    Checked Bool := do
  match dst, move.dstOp with
  | .unitIn unit k, some o =>
    if u.inputs.contains ⟨cycle, unit, k⟩ then return false
    if move.isTrigger then
      if u.triggers.contains ⟨cycle, unit⟩ then return false
      if ← u.triggerDestroys g unit o cycle then return false
      return !(← u.triggerStrands g unit o k cycle)
    let (lo, hi) := holdWindow (← triggerCycle g o) cycle
    return !(← u.inputBusy g unit o k lo hi)
  | .fileWrite f, _ => return u.fileWrites.getD ⟨cycle, f⟩ 0 < (← m.file f).writePorts
  | _, _ => return true

def sourceFree (u : Usage) (m : Machine) (g : Graph) (cycle : Cycle) (move : Move)
    (src : Option Port) : Checked Bool := do
  match src, move.srcOp with
  | some (.fileRead f), _ => return u.fileReads.getD ⟨cycle, f⟩ 0 < (← m.file f).readPorts
  | some (.unitOut unit k), some o =>
    if (u.results[(⟨cycle, unit, k⟩ : At UnitPort)]?).any fun (reader, _) => reader ≠ o then
      return false
    return !(← u.resultLost g unit o cycle)
  | _, _ => return true

/-- The first bus that is free in the cycle and suits. -/
def freeBus (u : Usage) (m : Machine) (cycle : Cycle) (suits : Bus → Bool) : Option BusId :=
  (Id.below m.buses.size).find? fun b =>
    !u.buses.contains ⟨cycle, b⟩ && (m.buses[b.val]?).any suits

/-- The bus for a transport, and whether it takes a long-immediate slot. -/
def busFor (u : Usage) (m : Machine) (cycle : Cycle) (src : Terminal) (srcPort : Option Port)
    (dst : Port) : Option (BusId × Bool) :=
  match src, srcPort with
  | .immediate v, _ =>
    match u.freeBus m cycle fun b => b.attaches dst && immediateWidth v ≤ b.immediateWidth with
    | some b => some (b, false)
    | none =>
      if u.longImmediates.getD cycle 0 < m.longImmediates
      then (u.freeBus m cycle (·.attaches dst)).map (·, true)
      else none
  | _, some p => (u.freeBus m cycle fun b => b.attaches p && b.attaches dst).map (·, false)
  | _, none => none

/-- How a move is carried in the cycle if its operations run on the given units. -/
def fitOn (u : Usage) (m : Machine) (g : Graph) (cycle : Cycle) (move : Move)
    (srcUnit dstUnit : Option UnitId) : Checked (Option Assignment) := do
  let dst ← destPort move.dst dstUnit
  unless ← u.destFree m g cycle move dst do return none
  let src ← sourcePort move.src srcUnit
  unless ← u.sourceFree m g cycle move src do return none
  return (u.busFor m cycle move.src src dst).map fun (bus, long) =>
    { cycle, bus, srcUnit, dstUnit, long }

/-- How `n` is carried in the cycle, if it fits. -/
def fit (u : Usage) (m : Machine) (g : Graph) (cycle : Cycle) (n : MoveId) :
    Checked (Option Assignment) := do
  if cycle < 0 then return none
  let move ← g.move n
  (← u.unitChoices g move.srcOp move.srcUnits).findSomeM? fun srcUnit => do
    (← u.unitChoices g move.dstOp []).findSomeM? fun dstUnit =>
      u.fitOn m g cycle move srcUnit dstUnit

def fits (u : Usage) (m : Machine) (g : Graph) (n : MoveId) (cycle : Cycle) : Checked Bool :=
  return (← u.fit m g cycle n).isSome

end Transport.Usage
