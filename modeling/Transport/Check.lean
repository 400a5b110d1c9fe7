import Transport.Dependence.Timing
import Transport.Machine
import Transport.Sorting

/-!
# Checking a schedule

The checker does not trust the scheduler's account of resources. It looks at the places recorded
in the graph and finds every rule they break: all moves are placed, all latencies kept, every bus
carries one value between ports it joins, every operation runs on one unit that implements it, and
operands and results stay where they are until they are used.
-/

namespace Transport

/-- A broken rule. -/
inductive Violation
  | unscheduled (n : MoveId)
  | latencyViolated (e : EdgeId) (tail head latency : Cycle)
  | busConflict (cycle : Cycle) (bus : BusId) (first second : MoveId)
  | notConnected (n : MoveId) (bus : BusId)
  | immediateTooWide (n : MoveId) (bus : BusId)
  | unboundOperation (o : OpId)
  | unitCannotExecute (o : OpId) (unit : UnitId)
  | triggerConflict (cycle : Cycle) (unit : UnitId) (first second : OpId)
  /-- Another operation's move writes the input between the operand's write and the trigger. -/
  | operandOverwritten (o : OpId) (unit : UnitId) (operand : Nat) (writer : MoveId)
  /-- Another operation's result arrives before the result is read. -/
  | resultOverwritten (o writer : OpId) (read : MoveId)
deriving DecidableEq

namespace Violation

/-- The name of the rule, and what breaks it. -/
def fields : Violation → String × List (String × String)
  | .unscheduled n => ("Unscheduled", [("node", n.detail)])
  | .latencyViolated e tail head latency =>
    ("LatencyViolated", [("edge", e.detail), ("tail_cycle", toString tail),
      ("head_cycle", toString head), ("latency", toString latency)])
  | .busConflict cycle bus first second =>
    ("BusConflict", [("cycle", toString cycle), ("bus", bus.detail), ("first", first.detail),
      ("second", second.detail)])
  | .notConnected n bus => ("NotConnected", [("node", n.detail), ("bus", bus.detail)])
  | .immediateTooWide n bus => ("ImmediateTooWide", [("node", n.detail), ("bus", bus.detail)])
  | .unboundOperation o => ("UnboundOperation", [("op", o.detail)])
  | .unitCannotExecute o unit => ("UnitCannotExecute", [("op", o.detail), ("fu", unit.detail)])
  | .triggerConflict cycle unit first second =>
    ("TriggerConflict", [("cycle", toString cycle), ("fu", unit.detail), ("first", first.detail),
      ("second", second.detail)])
  | .operandOverwritten o unit operand writer =>
    ("OperandOverwritten", [("op", o.detail), ("fu", unit.detail),
      ("operand", toString operand), ("by", writer.detail)])
  | .resultOverwritten o writer read =>
    ("ResultOverwritten", [("op", o.detail), ("by", writer.detail), ("read", read.detail)])

/-- `Unscheduled { node: MoveId(0) }`. -/
def text (v : Violation) : String :=
  let fields := v.fields.2.map fun (name, value) => name ++ ": " ++ value
  v.fields.1 ++ " \x7b " ++ ", ".intercalate fields ++ " \x7d"

end Violation

namespace Graph

/-! ## Moves -/

/-- The unit an operation is bound to. -/
def boundUnit (g : Graph) (op : Option OpId) : Option UnitId :=
  (op.bind g.op?).bind Operation.unit?

/-- The port a move reads, if it is known. -/
def readPort? (g : Graph) (m : Move) : Option Port :=
  match m.src with
  | .register r => some (.fileRead r.file)
  | .output k => (g.boundUnit m.srcOp).map (.unitOut · k)
  | .returnAddress => some .returnRead
  | .immediate _ | .input .. => none

/-- The port a move writes, if it is known. -/
def writePort? (g : Graph) (m : Move) : Option Port :=
  match m.dst with
  | .register r => some (.fileWrite r.file)
  | .input k _ => (g.boundUnit m.dstOp).map (.unitIn · k)
  | .returnAddress => some .returnWrite
  | .immediate _ | .output _ => none

/-- Is a port, if there is one, on the bus? -/
def isOnBus (machine : Machine) (bus : BusId) : Option Port → Checked Bool
  | some p => machine.busReaches bus p
  | none => return true

/-- Does the bus join the ports of a move? Operations without a unit are reported apart. -/
def checkPorts (g : Graph) (machine : Machine) (n : MoveId) (m : Move) (bus : BusId) :
    Checked (List Violation) := do
  if ← isOnBus machine bus (g.writePort? m) then
    if ← isOnBus machine bus (g.readPort? m) then return []
  return [.notConnected n bus]

/-- Does an immediate fit the bus? A machine with long immediates carries any. -/
def checkImmediate (machine : Machine) (n : MoveId) (m : Move) (bus : BusId) :
    Checked (List Violation) := do
  let .immediate v := m.src | return []
  unless machine.longImmediates = 0 do return []
  return if (← machine.bus bus).immediateWidth < immediateWidth v then [.immediateTooWide n bus]
    else []

/-- The move among `earlier` that has the place already. -/
def holder? (g : Graph) (earlier : List MoveId) (p : Placement) : Option MoveId :=
  earlier.find? fun n => (g.move? n).any fun m => m.placement = some p

/-- What is wrong with the place of a move, given the moves before it. -/
def checkMove (g : Graph) (machine : Machine) (earlier : List MoveId) (n : MoveId) :
    Checked (List Violation) := do
  let m ← g.move n
  let some p := m.placement | return [.unscheduled n]
  let conflict := (g.holder? earlier p).toList.map fun first =>
    Violation.busConflict p.cycle p.bus first n
  return conflict ++ (← g.checkPorts machine n m p.bus) ++ (← checkImmediate machine n m p.bus)

/-- Check moves in order; `earlier` are those before them. -/
def checkMoves (g : Graph) (machine : Machine) :
    List MoveId → List MoveId → Checked (List Violation)
  | _, [] => return []
  | earlier, n :: ns => do
    let found ← g.checkMove machine earlier n
    return found ++ (← g.checkMoves machine (earlier ++ [n]) ns)

/-! ## Edges and operations -/

/-- Is the latency of an edge kept? -/
def checkLink (g : Graph) (e : EdgeId) (l : Link) : Checked (List Violation) := do
  if l.dep.isBack then return []
  match (g.move? l.tail).bind Move.cycle?, (g.move? l.head).bind Move.cycle? with
  | some tail, some head =>
    let latency ← g.linkLatency l
    return if head < (← Cycle.add tail latency) then [.latencyViolated e tail head latency] else []
  | _, _ => return []

/-- Does an operation with a placed move run on a unit that implements it? -/
def checkOperation (g : Graph) (machine : Machine) (o : OpId) : Checked (List Violation) := do
  let op ← g.op o
  unless op.moves.any fun n => (g.move? n).any Move.isPlaced do return []
  match op.unit? with
  | none => return [.unboundOperation o]
  | some unit =>
    return if (← machine.operation unit op.opcode).isNone then [.unitCannotExecute o unit] else []

/-! ## Units -/

/-- An operation that was started. -/
structure Start where
  unit : UnitId
  cycle : Cycle
  op : OpId
deriving DecidableEq

/-- By unit, then by cycle, then by operation. -/
def startLe (a b : Start) : Bool :=
  a.unit.val < b.unit.val || a.unit = b.unit &&
    (a.cycle < b.cycle || a.cycle = b.cycle && a.op.val ≤ b.op.val)

/-- The operation's start, if it has a unit and its trigger is placed. -/
def start? (g : Graph) (o : OpId) : Option Start := do
  let op ← g.op? o
  let unit ← op.unit?
  let trigger ← op.inputs.find? fun n => (g.move? n).any Move.isTrigger
  let cycle ← (← g.move? trigger).cycle?
  return { unit, cycle, op := o }

/-- The started operations in order. -/
def starts (g : Graph) : List Start := sortBy startLe (g.opIds.filterMap g.start?)

/-- Two operations started on one unit in one cycle. -/
def triggerConflicts : List Start → List Violation
  | a :: b :: rest =>
    (if a.unit = b.unit && a.cycle = b.cycle
      then [.triggerConflict a.cycle a.unit a.op b.op] else []) ++ triggerConflicts (b :: rest)
  | _ => []

/-- The placed operand writes of an operation: the move, the operand and the cycle. -/
def operandWrites (g : Graph) (o : OpId) : List (MoveId × Nat × Cycle) :=
  ((g.op? o).map Operation.inputs).getD [] |>.filterMap fun n => do
    let m ← g.move? n
    match m.dst, m.cycle? with
    | .input k _, some c => some (n, k, c)
    | _, _ => none

/-- Operands of a started operation that another one overwrites before the trigger. -/
def overwrittenOperands (g : Graph) (s : Start) (others : List Start) : List Violation :=
  (g.operandWrites s.op).flatMap fun (_, operand, write) =>
    others.flatMap fun other =>
      ((g.operandWrites other.op).filter fun (_, k, c) =>
        k = operand && write < c && c ≤ s.cycle).map fun (n, _, _) =>
          .operandOverwritten s.op s.unit operand n

/-- Does a result of `other` arrive after the start of `s` and not after the cycle `read`? -/
def arrivesBefore (g : Graph) (s other : Start) (read : Cycle) : Checked Bool := do
  if other.cycle ≤ s.cycle then return false
  return (← Cycle.add other.cycle (Cycle.ofLatency (← g.op other.op).latency)) ≤ read

/-- Results of a started operation that another one replaces before they are read. -/
def overwrittenResults (g : Graph) (s : Start) (others : List Start) :
    Checked (List Violation) := do
  let reads := (← g.op s.op).outputs.filterMap fun n =>
    ((g.move? n).bind Move.cycle?).map fun c => (n, c)
  let found ← reads.mapM fun (n, c) => do
    let writers ← others.filterM fun other => g.arrivesBefore s other c
    return writers.map fun other => Violation.resultOverwritten s.op other.op n
  return found.flatten

/-- What other operations on its unit do to a started operation. -/
def checkStart (g : Graph) (all : List Start) (s : Start) : Checked (List Violation) := do
  let others := all.filter fun other => other.unit = s.unit && other.op ≠ s.op
  return g.overwrittenOperands s others ++ (← g.overwrittenResults s others)

/-- Every rule that the places in the graph break. -/
def check (g : Graph) (machine : Machine) : Checked (List Violation) := do
  let moves ← g.checkMoves machine [] g.moveIds
  let links ← (g.entries g.edgeIds).mapM fun (e, l) => g.checkLink e l
  let ops ← g.opIds.mapM (g.checkOperation machine)
  let units ← g.starts.mapM (g.checkStart g.starts)
  return moves ++ links.flatten ++ ops.flatten ++ triggerConflicts g.starts ++ units.flatten

end Graph

end Transport
