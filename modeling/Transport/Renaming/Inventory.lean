import Transport.Machine

/-!
# Register inventories

The registers renaming may hand out on a machine, found once for all machines of one key.
-/

namespace Transport

namespace Machine

/-- The registers of a file that renaming may hand out. The last register of a temporary file is
reserved, and a forced-bypass file has none. -/
def usableRegistersOf (m : Machine) (f : FileId) : List Reg :=
  match m.files[f.val]? with
  | some file =>
    if file.forcedBypass then []
    else (List.range (if file.temporary then file.size - 1 else file.size)).map (Reg.mk f)
  | none => []

/-- Every register renaming may hand out. -/
def usableRegisters (m : Machine) : List Reg :=
  (Id.below m.files.size).flatMap m.usableRegistersOf

end Machine

/-- The inventories found so far, by machine key. -/
structure Inventory where
  entries : List (Machine.Key × List Reg) := []
deriving DecidableEq

namespace Inventory

def size (inv : Inventory) : Nat := inv.entries.length

def isEmpty (inv : Inventory) : Bool := inv.entries.isEmpty

/-- The registers for a machine: those of the first machine with its key. -/
def registers (inv : Inventory) (m : Machine) : List Reg × Inventory :=
  match inv.entries.lookup m.key with
  | some regs => (regs, inv)
  | none => (m.usableRegisters, ⟨inv.entries ++ [(m.key, m.usableRegisters)]⟩)

end Inventory

end Transport
