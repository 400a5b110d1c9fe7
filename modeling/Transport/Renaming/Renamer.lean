import Transport.Options
import Transport.Renaming.Inventory
import Transport.Renaming.Lifetimes

/-!
# Registers to rename to

The renamer keeps the registers that a live range may be moved to: those the block does not use,
those it uses in a part only, and those a range was moved to before.
-/

namespace Transport

structure Renamer where
  all : RegSet
  /-- Not used in the block. -/
  free : RegSet
  /-- Used in a part of the block only. -/
  partly : RegSet
  /-- A live range was moved there. -/
  used : RegSet := ∅
  lifetimes : Lifetimes
  /-- Immediates may also reach a file in a long-immediate slot. -/
  longImmediates : Bool := false
deriving DecidableEq

namespace Renamer

/-- The renamer of a block. A register whose value is needed after the block is never handed
out. -/
def ofGraph (regs : List Reg) (g : Graph) : Renamer :=
  let all := Std.ExtTreeSet.ofList regs compare
  let lifetimes := Lifetimes.ofGraph g
  let dead := all.filter fun r => !g.isLiveOut r
  let touched := fun r => lifetimes.isLiveIn r || lifetimes.isDefined r
  { all, lifetimes, free := dead.filter fun r => !touched r, partly := dead.filter touched }

def inFile (r : Renamer) (f : FileId) : List Reg := r.all.toList.filter (·.file = f)

def freeIn (r : Renamer) (f : FileId) : List Reg := (r.inFile f).filter r.free.contains

/-- The registers of a file that a range can share with another one. -/
def reusableIn (r : Renamer) (f : FileId) : List Reg :=
  (r.inFile f).filter fun reg => r.partly.contains reg || r.used.contains reg

/-- Registers of a file all accesses to which are placed before the cycle. -/
def reusableBefore (r : Renamer) (g : Graph) (f : FileId) (earliest : Cycle) : List Reg :=
  if earliest < 1 then [] else
  (r.reusableIn f).filter fun reg =>
    match g.occupation reg with
    | .unused => true
    | .unscheduled => false
    | .span _ last => last < earliest

/-- Registers of a file all accesses to which are placed after the cycle, and that do not hold a
value on entry. -/
def reusableAfter (r : Renamer) (g : Graph) (f : FileId) (latest : Cycle) : List Reg :=
  (r.reusableIn f).filter fun reg => !r.lifetimes.isLiveIn reg &&
    match g.occupation reg with
    | .unused => true
    | .unscheduled => false
    | .span first _ => latest < first

end Renamer

/-! ## Reachable register files -/

namespace Graph

/-- The units an operation may run on. -/
def unitsOf (g : Graph) (op : Option OpId) : List UnitId :=
  match op.bind g.op? with
  | some o => match o.unit? with
    | some u => [u]
    | none => o.units
  | none => []

/-- Can `n` write into file `f` instead? -/
def canWrite (g : Graph) (m : Machine) (long : Bool) (f : FileId) (n : MoveId) : Checked Bool := do
  let move ← g.move n
  let port := Port.fileWrite f
  match move.src with
  | .register r => return m.connected (.fileRead r.file) port
  | .immediate v =>
    return m.takesShortImmediate v port || long && m.takesLongImmediate port
  | .output k => return (g.unitsOf move.srcOp).any fun u => m.connected (.unitOut u k) port
  | .returnAddress => return m.connected .returnRead port
  | .input .. => return false

/-- Can `n` read from file `f` instead? -/
def canRead (g : Graph) (m : Machine) (f : FileId) (n : MoveId) : Checked Bool := do
  let move ← g.move n
  let port := Port.fileRead f
  match move.dst with
  | .register r => return m.connected port (.fileWrite r.file)
  | .input k _ => return (g.unitsOf move.dstOp).any fun u => m.connected port (.unitIn u k)
  | .returnAddress => return m.connected port .returnWrite
  | .immediate _ | .output _ => return false

/-- The file a live range is in. -/
def fileOf (g : Graph) (range : LiveRange) : Checked (Option FileId) := do
  let some w := range.writes.toList.head? | return none
  return (← g.move w).dst.reg?.map Reg.file

/-- The files a live range can be moved to: its own one, and those that all its writes reach and
all its reads can be fed from. A range with guard reads stays in its file. -/
def connectedFiles (g : Graph) (m : Machine) (range : LiveRange) (long : Bool) :
    Checked (List FileId) := do
  let own ← g.fileOf range
  unless range.guards.isEmpty do return own.toList
  let others := (Id.below m.files.size).filter fun f =>
    own ≠ some f && (m.files[f.val]?).any (!·.forcedBypass)
  let reachable ← others.filterM fun f => do
    unless ← range.writes.toList.allM (g.canWrite m long f) do return false
    range.reads.toList.allM (g.canRead m f)
  return own.toList ++ reachable

end Graph

end Transport
