import Transport.Cycle
import Transport.Dependence.Edge

/-!
# Moves and operations

The entries of the dependence graph. A removed move or edge keeps its place in its table, so that
it can be brought back under the same identifier.
-/

namespace Transport

/-- Where a move was placed. -/
structure Placement where
  cycle : Cycle
  bus : BusId
deriving DecidableEq

def Placement.detail (p : Placement) : String :=
  s!"Placement \x7b cycle: {p.cycle}, bus: {p.bus.detail} \x7d"

/-- One data transport. -/
structure Move where
  src : Terminal
  dst : Terminal
  guard : Option Guard := none
  /-- The operation whose result the move reads. -/
  srcOp : Option OpId := none
  /-- The operation whose operand or trigger the move writes. -/
  dstOp : Option OpId := none
  block : BlockId
  /-- The move triggers a jump or call that ends the block. -/
  controlFlow : Bool := false
  call : Bool := false
  /-- Units that may produce the source value; empty if any may. -/
  srcUnits : List UnitId := []
  placement : Option Placement := none
  ins : List EdgeId := []
  outs : List EdgeId := []
  live : Bool := true
deriving DecidableEq

namespace Move

def isPlaced (m : Move) : Bool := m.placement.isSome

def cycle? (m : Move) : Option Cycle := m.placement.map Placement.cycle

def cycle (m : Move) : Checked Cycle :=
  match m.placement with
  | some p => pure p.cycle
  | none => throw .cycleOfUnplaced

def isOperand (m : Move) : Bool := m.dstOp.isSome

def isResult (m : Move) : Bool := m.srcOp.isSome

def isTrigger (m : Move) : Bool := m.dst.isTrigger

def isUnguarded (m : Move) : Bool := m.guard.isNone

/-- A plain copy between registers. -/
def isCopy (m : Move) : Bool := m.src.isRegister && m.dst.isRegister

/-- The operations the move takes part in, the source side first. -/
def ops (m : Move) : List OpId := m.srcOp.toList ++ m.dstOp.toList

def inOperation (m : Move) : Bool := m.isResult || m.isOperand

def sharesOperation (a b : Move) : Bool := a.ops.any b.ops.contains

/-- At most one of the two moves executes. -/
def excludes (a b : Move) : Bool :=
  match a.guard, b.guard with
  | some g, some h => g.excludes h
  | _, _ => false

/-- `?rf1.0 rf0.1 -> fu.0t @3:b0`. -/
def text (m : Move) : Checked String := do
  let mark ← guardMark m.guard
  let src ← m.src.text
  let dst ← m.dst.text
  let place ← match m.placement with
    | some p => do
      let bus ← p.bus.index
      pure s!" @{p.cycle}:b{bus}"
    | none => pure ""
  return mark ++ src ++ " -> " ++ dst ++ place

/-- Terminals, guard and placement spelled out field by field. -/
def detail (m : Move) : Checked String := do
  let src ← m.src.detail
  let dst ← m.dst.detail
  let guard ← match m.guard with
    | some g => do
      let g ← g.detail
      pure s!"Some({g})"
    | none => pure "None"
  let place := match m.placement with
    | some p => s!"Some({p.detail})"
    | none => "None"
  return s!"{src} | {dst} | {guard} | {place}"

end Move

inductive MemoryAccess
  | load
  | store
deriving DecidableEq

/-- One invocation of a machine operation. -/
structure Operation where
  opcode : String
  inputs : List MoveId := []
  outputs : List MoveId := []
  /-- Units allowed to execute it. -/
  units : List UnitId
  latency : Nat
  /-- The unit it is bound to while some of its moves are placed. -/
  unit? : Option UnitId := none
  memory : Option MemoryAccess := none
deriving DecidableEq

/-- Every move of the operation, inputs first. -/
def Operation.moves (o : Operation) : List MoveId := o.inputs ++ o.outputs

/-- A dependence in the graph. -/
structure Link where
  tail : MoveId
  head : MoveId
  dep : Dependence
  live : Bool := true
deriving DecidableEq

end Transport
