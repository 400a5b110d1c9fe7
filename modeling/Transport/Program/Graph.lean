import Transport.Program
import Transport.Program.Flow

/-!
# The graph of a program

Operations and moves are entered in program order, each checked as it comes; then the operations
are checked, and at last the dependences are drawn.
-/

namespace Transport.Program

abbrev Built := Except Halt

def invalid {α : Type} (d : Defect) (n : MoveId) : Built α := throw (.error (.invalidProgram d n))

/-- Enter the operations, each with the units that can execute it. -/
def enterOperations (p : Program) (m : Machine) (g : Graph) : Graph :=
  p.operations.toList.foldl (fun g o =>
    (g.addOperation {
      opcode := o.opcode, units := m.unitsWith o.opcode, latency := m.latencyOf o.opcode,
      memory := o.memory }).1) g

/-- A destination operation is given exactly for moves into a unit. -/
def linkDest (g : Graph) (n : MoveId) (m : ProgramMove) : Built Graph :=
  match m.dstOp with
  | some op => do
    if g.ops.size ≤ op then invalid .unknownOperation n
    unless m.dst.isInput do invalid .operandNotAtUnit n
    g.addInput ⟨op⟩ n
  | none => if m.dst.isInput then invalid .operandWithoutOperation n else pure g

/-- A source operation is given exactly for moves out of a unit. -/
def linkSource (g : Graph) (n : MoveId) (m : ProgramMove) : Built Graph :=
  match m.srcOp with
  | some op => do
    if g.ops.size ≤ op then invalid .unknownOperation n
    unless m.src.isOutput do invalid .resultNotAtUnit n
    g.addOutput ⟨op⟩ n
  | none => if m.src.isOutput then invalid .resultWithoutOperation n else pure g

def enterMove (g : Graph) (m : ProgramMove) : Built Graph := do
  let (g, n) := g.addMove { src := m.src, dst := m.dst, guard := m.guard, block := m.block }
  let g ← linkDest g n m
  linkSource g n m

/-- Check an operation, and mark the trigger of a jump or call. -/
def checkOperation (m : Machine) (g : Graph) (o : OpId) : Built Graph := do
  let op ← (g.op o : Checked Operation)
  let first := op.moves.head?.getD .invalid
  if op.units.isEmpty then invalid .noUnit first
  let triggers := op.inputs.countP fun n => (g.move? n).any Move.isTrigger
  if !op.inputs.isEmpty && triggers ≠ 1 then invalid .notOneTrigger first
  let control ← (op.units.allM fun u => return (← m.unit u).control : Checked Bool)
  match control, (← (g.trigger o : Checked (Option MoveId))) with
  | true, some t =>
    return g.modifyMove t fun m => { m with controlFlow := true, call := op.opcode = "call" }
  | _, _ => return g

/-- The moves of the graph as the walk over them needs them. -/
def flowMoves (g : Graph) : List (Move × MoveId × Option MemoryAccess) :=
  g.moves.toList.zipIdx.map fun (m, i) => (m, ⟨i⟩, (m.dstOp.bind g.op?).bind Operation.memory)

def drawFlow (p : Program) (g : Graph) : Checked Graph :=
  (Flow.edges p.isLoop (flowMoves g)).foldlM (fun g (tail, head, dep) =>
    return (← g.ensureEdge tail head dep).1) g

/-- Operands before the trigger, the trigger before the results. -/
def drawOperation (g : Graph) (o : OpId) : Checked Graph := do
  let some t ← g.trigger o | return g
  let op ← g.op o
  let g ← (op.inputs.filter (· ≠ t)).foldlM
    (fun g n => return (← g.connect n t .operation).1) g
  op.outputs.foldlM (fun g n => return (← g.connect t n .operation).1) g

/-- The dependence graph of a program on a machine. -/
def graph (p : Program) (m : Machine) : Built Graph := do
  let g ← (Graph.ofMachine m : Checked Graph)
  let g := p.enterOperations m { g with liveIn := p.liveIn, liveOut := p.liveOut }
  let g ← p.moves.toList.foldlM enterMove g
  let g ← g.opIds.foldlM (checkOperation m) g
  let g ← (p.drawFlow g : Checked Graph)
  (g.opIds.foldlM drawOperation g : Checked Graph)

end Transport.Program
