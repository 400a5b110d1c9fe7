import Transport.Cycle
import Transport.Terminal

/-!
# Target machines

A machine has register files, function units and buses; a bus carries a value between two ports
it has sockets on. The scheduler asks a machine only the questions below: which ports a bus
joins, which unit executes an opcode and for how long, how long a guard takes to be read.
-/

namespace Transport

/-- What a bus socket attaches to. -/
inductive Port
  | fileRead (f : FileId)
  | fileWrite (f : FileId)
  | unitIn (u : UnitId) (operand : Nat)
  | unitOut (u : UnitId) (operand : Nat)
  | returnRead
  | returnWrite
deriving DecidableEq

structure RegisterFile where
  name : String
  size : Nat
  readPorts : Nat
  writePorts : Nat
  guardLatency : Nat := 0
  /-- The last register is reserved and never handed out by renaming. -/
  temporary : Bool := false
  /-- Values in this file exist only before scheduling: each write is bypassed to its readers. -/
  forcedBypass : Bool := false
deriving DecidableEq

/-- The register of file `f` at `index`. -/
def RegisterFile.reg (file : RegisterFile) (f : FileId) (index : Nat) : Checked Reg :=
  if index < file.size then pure ⟨f, index⟩ else throw .assertion

structure OperationDesc where
  name : String
  latency : Nat
  inputs : Nat
  outputs : Nat
deriving DecidableEq

structure FunctionUnit where
  name : String
  operations : List OperationDesc
  /-- The operand whose write starts an operation. -/
  trigger : Nat
  /-- The unit executes jumps and calls. -/
  control : Bool
deriving DecidableEq

structure Bus where
  name : String
  /-- Width of the inline immediate field; 0 if the bus carries no inline immediates. -/
  immediateWidth : Nat
  sockets : List Port
deriving DecidableEq

def Bus.attaches (b : Bus) (p : Port) : Bool := b.sockets.contains p

structure Machine where
  name : String
  files : Array RegisterFile := #[]
  units : Array FunctionUnit := #[]
  buses : Array Bus := #[]
  /-- How many long immediates one instruction carries. -/
  longImmediates : Nat := 1
  guardLatency : Nat := 1
deriving DecidableEq

/-- Bits needed to write `n` in base two; none for zero. -/
def bitLength (n : Nat) : Nat := if n = 0 then 0 else n.log2 + 1

/-- Bits needed to hold `v` as a sign-extended field. -/
def immediateWidth (v : Int) : Nat :=
  bitLength (if v < 0 then -v - 1 else v).toNat + 1

/-- What tells machines apart where results are shared between them. -/
structure Machine.Key where
  name : String
  files : List (String × Nat)
  units : Nat
  buses : Nat
deriving DecidableEq

namespace Machine

def key (m : Machine) : Key where
  name := m.name
  files := m.files.toList.map fun f => (f.name, f.size)
  units := m.units.size
  buses := m.buses.size

def file (m : Machine) (f : FileId) : Checked RegisterFile := f.fetch m.files

def unit (m : Machine) (u : UnitId) : Checked FunctionUnit := u.fetch m.units

def bus (m : Machine) (b : BusId) : Checked Bus := b.fetch m.buses

/-- A guard register is written this many cycles before the move it guards. -/
def totalGuardLatency (m : Machine) (f : FileId) : Checked Nat := do
  addWord m.guardLatency (← m.file f).guardLatency

def busReaches (m : Machine) (b : BusId) (p : Port) : Checked Bool := do
  return (← m.bus b).attaches p

/-- Does some bus join the two ports? -/
def connected (m : Machine) (p q : Port) : Bool :=
  m.buses.any fun b => b.attaches p && b.attaches q

/-- Does some bus deliver `v` inline to the port? -/
def takesShortImmediate (m : Machine) (v : Int) (p : Port) : Bool :=
  m.buses.any fun b => immediateWidth v ≤ b.immediateWidth && b.attaches p

/-- Can a long immediate be delivered to the port? -/
def takesLongImmediate (m : Machine) (p : Port) : Bool :=
  0 < m.longImmediates && m.buses.any (·.attaches p)

/-- How the unit executes the opcode. -/
def operation (m : Machine) (u : UnitId) (opcode : String) : Checked (Option OperationDesc) := do
  return (← m.unit u).operations.find? (·.name = opcode)

/-- The units that execute the opcode. -/
def unitsWith (m : Machine) (opcode : String) : List UnitId :=
  (Id.below m.units.size).filter fun u =>
    (m.units[u.val]?).any fun unit => unit.operations.any (·.name = opcode)

/-- The longest time any unit takes for the opcode. -/
def latencyOf (m : Machine) (opcode : String) : Nat :=
  let latencies := m.units.toList.filterMap fun u =>
    (u.operations.find? (·.name = opcode)).map OperationDesc.latency
  latencies.max?.getD 1

/-- The files whose values are bypassed away. -/
def forcedFiles (m : Machine) : List FileId :=
  (Id.below m.files.size).filter fun f => (m.files[f.val]?).any RegisterFile.forcedBypass

end Machine

end Transport
