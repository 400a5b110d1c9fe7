import Transport.Terminal

/-!
# Dependences

A dependence says in which order two moves take place and why.
-/

namespace Transport

/-- What two dependent moves share. -/
inductive Reason
  | register
  | memory
  /-- Order inside one operation: operands, then the trigger, then results. -/
  | operation
  | returnAddress
  | unknown
deriving DecidableEq

/-- In which order two accesses meet. -/
inductive Hazard
  | raw
  | waw
  | war
  | unknown
deriving DecidableEq

structure Dependence where
  reason : Reason
  hazard : Hazard
  /-- The register the dependence is about, which tells parallel edges apart. -/
  reg? : Option Reg := none
  /-- The register is read as a guard rather than as a source. -/
  guardUse : Bool := false
  tailPseudo : Bool := false
  headPseudo : Bool := false
  /-- How many loop iterations the edge crosses. -/
  loopDepth : Nat := 0
deriving DecidableEq

namespace Dependence

def register (hazard : Hazard) (r : Reg) : Dependence :=
  { reason := .register, hazard, reg? := some r }

/-- The order of two moves of one operation. -/
def operation : Dependence := { reason := .operation, hazard := .unknown }

/-- Loop carried. -/
def isBack (d : Dependence) : Bool := 0 < d.loopDepth

def isPseudo (d : Dependence) : Bool := d.tailPseudo || d.headPseudo

/-- A value travels through a register. -/
def isRaw (d : Dependence) : Bool := d.reason = .register && d.hazard = .raw

/-- Only the reuse of a register orders the two moves. -/
def isAnti (d : Dependence) : Bool :=
  d.reason = .register && (d.hazard = .war || d.hazard = .waw)

/-- The dependence carries register `r` in the given way. -/
def carries (d : Dependence) (hazard : Hazard) (r : Reg) : Bool :=
  d.reason = .register && d.hazard = hazard && d.reg? = some r

/-- `R_raw_g:rf1.0_L1`. -/
def text (d : Dependence) : Checked String := do
  let reason := match d.reason with
    | .register => "R"
    | .memory => "M"
    | .operation => "O"
    | .returnAddress => "RA"
    | .unknown => "?"
  let hazard := match d.hazard with
    | .raw => "raw"
    | .waw => "waw"
    | .war => "war"
    | .unknown => ""
  let mark := if d.guardUse then "_g" else ""
  let reg ← match d.reg? with
    | some r => do pure (":" ++ (← r.text))
    | none => pure ""
  let depth := if d.isBack then s!"_L{d.loopDepth}" else ""
  return reason ++ "_" ++ hazard ++ mark ++ reg ++ depth

end Dependence

end Transport
