import Transport.Machine

/-!
# Assembling machines

A machine is put together part by part; each part returns the identifier under which later parts
refer to it.
-/

namespace Transport.Machine

def addFile (m : Machine) (file : RegisterFile) : Machine × FileId :=
  ({ m with files := m.files.push file }, ⟨m.files.size⟩)

/-- Add a unit. The last input of its widest operation is the trigger. -/
def addUnit (m : Machine) (name : String) (operations : List OperationDesc)
    (control : Bool := false) : Machine × UnitId :=
  let trigger := (operations.map OperationDesc.inputs).max?.getD 1 - 1
  ({ m with units := m.units.push { name, operations, trigger, control } }, ⟨m.units.size⟩)

def addBus (m : Machine) (bus : Bus) : Machine × BusId :=
  ({ m with buses := m.buses.push bus }, ⟨m.buses.size⟩)

/-- The ports of a unit: its inputs, then its outputs. Operands are numbered in eight bits. -/
def unitPorts (u : UnitId) (unit : FunctionUnit) : Checked (List Port) := do
  let inputs := (unit.operations.map OperationDesc.inputs).max?.getD 0
  let outputs := (unit.operations.map OperationDesc.outputs).max?.getD 0
  let all ← addByte inputs outputs
  return (List.range inputs).map (Port.unitIn u) ++
    (List.range' inputs (all - inputs)).map (Port.unitOut u)

def ports (m : Machine) : Checked (List Port) := do
  let files := (Id.below m.files.size).flatMap fun f => [Port.fileRead f, Port.fileWrite f]
  let units ← (Id.below m.units.size).mapM fun u => do unitPorts u (← m.unit u)
  return files ++ units.flatten ++ [.returnRead, .returnWrite]

/-- Add `count` buses, each attached to every port assembled so far. -/
def addFullBuses (m : Machine) (count immediateWidth : Nat) : Checked Machine := do
  let sockets ← m.ports
  return (List.range count).foldl
    (fun m i => (m.addBus { name := s!"b{i}", immediateWidth, sockets }).1) m

end Transport.Machine
