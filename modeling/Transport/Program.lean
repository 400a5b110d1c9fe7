import Std.Data.ExtTreeSet
import Transport.Dependence.Graph

/-!
# Programs

The input of the scheduler: moves in program order, the operations they feed and read, and which
registers are live around them.
-/

namespace Transport

structure OperationDecl where
  opcode : String
  memory : Option MemoryAccess := none
deriving DecidableEq

structure ProgramMove where
  src : Terminal
  dst : Terminal
  guard : Option Guard := none
  /-- Index of the declared operation the move feeds. -/
  dstOp : Option Nat := none
  /-- Index of the declared operation the move reads a result of. -/
  srcOp : Option Nat := none
  block : BlockId := ⟨0⟩
deriving DecidableEq

structure Program where
  operations : Array OperationDecl := #[]
  moves : Array ProgramMove := #[]
  liveIn : RegSet := ∅
  /-- Registers live at the end; unknown if nothing was said about them. -/
  liveOut : Option RegSet := none
  /-- The moves are the body of a single-block loop. -/
  isLoop : Bool := false
  /-- The block that further moves belong to. -/
  label : BlockId := ⟨0⟩

namespace Program

def addLiveIn (p : Program) (r : Reg) : Program := { p with liveIn := p.liveIn.insert r }

/-- Once one register is declared live out, all others are dead at the end. -/
def addLiveOut (p : Program) (r : Reg) : Program :=
  { p with liveOut := some ((p.liveOut.getD ∅).insert r) }

/-- Nothing is live out unless declared otherwise. -/
def closeLiveOut (p : Program) : Program := { p with liveOut := some (p.liveOut.getD ∅) }

def addOperation (p : Program) (o : OperationDecl) : Program × Nat :=
  ({ p with operations := p.operations.push o }, p.operations.size)

def addMove (p : Program) (m : ProgramMove) : Program × MoveId :=
  ({ p with moves := p.moves.push m }, ⟨p.moves.size⟩)

/-- A move of no operation: a register copy or an immediate load. -/
def transport (p : Program) (src dst : Terminal) : Program × MoveId :=
  p.addMove { src, dst, block := p.label }

/-- Write an input of a declared operation. -/
def operand (p : Program) (op operand : Nat) (trigger : Bool) (src : Terminal) :
    Program × MoveId :=
  p.addMove { src, dst := .input operand trigger, dstOp := some op, block := p.label }

/-- Read an output of a declared operation. -/
def result (p : Program) (op operand : Nat) (dst : Terminal) : Program × MoveId :=
  p.addMove { src := .output operand, dst, srcOp := some op, block := p.label }

def setGuard (p : Program) (n : MoveId) (guard : Guard) : Checked Program := do
  let m ← n.fetch p.moves
  return { p with moves := p.moves.setIfInBounds n.val { m with guard := some guard } }

/-! ## Text -/

/-- A terminal with the declared operation it belongs to. -/
def terminalText (t : Terminal) (op : Option Nat) : Checked String :=
  match t, op with
  | .register r, _ => r.text
  | .immediate v, _ => return s!"#{v}"
  | .input k trigger, some op => return s!"op{op}.{k}" ++ if trigger then "t" else ""
  | .output k, some op => return s!"op{op}.{k}"
  | .input k _, none | .output k, none => return s!"?.{k}"
  | .returnAddress, _ => return "ra"

def moveText (m : ProgramMove) : Checked String := do
  let mark ← guardMark m.guard
  let src ← terminalText m.src m.srcOp
  let dst ← terminalText m.dst m.dstOp
  return mark ++ src ++ " -> " ++ dst

/-- The program as a listing, headed by the name of the machine it is meant for. -/
def text (p : Program) (machine : String) : Checked String := do
  let ops := p.operations.toList.zipIdx.map fun (o, i) => s!"  op{i}: {o.opcode}\n"
  let moves ← p.moves.toList.zipIdx.mapM fun (m, i) => do
    let move ← moveText m
    return s!"  move{i}: {move}\n"
  return s!"block on {machine} \x7b\n" ++ String.join ops ++ String.join moves ++ "\x7d"

end Program

end Transport
