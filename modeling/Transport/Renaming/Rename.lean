import Transport.Dependence.Retag
import Transport.Renaming.Renamer

/-!
# Renaming a live range

Anti and output dependences exist only because two live ranges share a register. Moving one of
them to another register takes the dependence away; if that register has a lifetime of its own,
edges keep the two apart. Every renaming returns a record with which it is taken back.
-/

namespace Transport

/-- How the new register relates to the lifetimes it has already. -/
inductive RenameMode
  /-- It has none. -/
  | free
  /-- They end before the renamed range. -/
  | reuseBefore
  /-- They start after the renamed range. -/
  | reuseAfter
deriving DecidableEq

/-- Which of the renamer's sets a register is in. -/
structure Membership where
  free : Bool
  partly : Bool
  used : Bool
deriving DecidableEq

structure RenameRecord where
  old : Reg
  new : Reg
  /-- The renamed moves with the place of the register in them. -/
  moves : List (MoveId × Role)
  /-- The changes of edges, in order. -/
  edges : List EdgeRecord
  membership : Membership
  oldUse : Option Lifetime
deriving DecidableEq

/-- The move with another register in the given role. -/
def Move.setReg (m : Move) (r : Reg) : Role → Move
  | .dest => { m with dst := .register r }
  | .source => { m with src := .register r }
  | .guard => { m with guard := m.guard.map fun g => { g with reg := r } }

/-- The moves of a range with the role the register has in them. -/
def LiveRange.roles (range : LiveRange) : List (MoveId × Role) :=
  range.writes.toList.map (·, Role.dest) ++ range.reads.toList.map (·, Role.source) ++
    range.guards.toList.map (·, Role.guard)

/-- Reads and guard reads. -/
def LiveRange.users (range : LiveRange) : MoveIdSet := range.reads.insertMany range.guards.toList

namespace Renamer

def membership (r : Renamer) (reg : Reg) : Membership where
  free := r.free.contains reg
  partly := r.partly.contains reg
  used := r.used.contains reg

def setMembership (r : Renamer) (reg : Reg) (c : Membership) : Renamer :=
  let put := fun (on : Bool) (s : RegSet) => if on then s.insert reg else s.erase reg
  { r with free := put c.free r.free, partly := put c.partly r.partly, used := put c.used r.used }

/-- Is the register there for a renaming of this mode? -/
def isAvailable (r : Renamer) (reg : Reg) : RenameMode → Bool
  | .free => r.free.contains reg
  | .reuseBefore | .reuseAfter => r.partly.contains reg || r.used.contains reg

/-- Note that a range now uses the register, as its first or as its last lifetime. -/
def recordUse (r : Renamer) (range : LiveRange) (reg : Reg) (mode : RenameMode) : Renamer :=
  let kill := range.writes.toList.head?
  let u := r.lifetimes.use reg
  let u := if mode = .reuseBefore then u else
    { u with firstKill := kill, firstDefines := range.writes, firstUses := range.users }
  let u := if mode = .reuseAfter then u else
    { u with lastKill := kill, defines := range.writes, lastUses := range.users }
  { r with lifetimes := { r.lifetimes with regs := r.lifetimes.regs.insert reg u } }

/-- Take the register for a range. -/
def take (r : Renamer) (range : LiveRange) (reg : Reg) (mode : RenameMode) : Renamer :=
  (r.recordUse range reg mode).setMembership reg { free := false, partly := false, used := true }

end Renamer

namespace Graph

/-- Does the value that `w` writes to `r` reach the end of the block? -/
def leavesRegion (g : Graph) (w : MoveId) (r : Reg) : Bool :=
  g.isLiveOut r && !(g.leaving w).any fun (_, l) =>
    l.dep.carries .waw r && !l.dep.isBack && (g.move? l.head).any Move.isUnguarded

/-- Is some move of the range placed in a cycle with the property? -/
def anyCycle (g : Graph) (range : LiveRange) (p : Cycle → Bool) : Checked Bool :=
  range.moves.anyM fun n => return (← g.move n).cycle?.any p

/-- Edges that put a range, written by `w`, behind the lifetimes of `r`. -/
def edgesBehind (g : Graph) (w : MoveId) (r : Reg) : List (MoveId × MoveId × Dependence) :=
  let war := Dependence.register .war r
  (g.lastReads r .source).map (·, w, war) ++
    (g.lastReads r .guard).map (·, w, { war with guardUse := true }) ++
    (g.lastWrites r).map (·, w, Dependence.register .waw r)

/-- Edges that put a range, written by `w`, before the lifetimes of `r`. -/
def edgesBefore (g : Graph) (range : LiveRange) (w : MoveId) (r : Reg) :
    List (MoveId × MoveId × Dependence) :=
  let war := Dependence.register .war r
  (g.firstWrites r).flatMap fun d =>
    (w, d, Dependence.register .waw r) :: range.reads.toList.map (·, d, war) ++
      range.guards.toList.map (·, d, { war with guardUse := true })

/-- The edges that keep a range apart from the lifetimes of its new register; none at all if the
two overlap or are not placed far enough to tell. -/
def separatingEdges (g : Graph) (rn : Renamer) (range : LiveRange) (w : MoveId) (r : Reg) :
    RenameMode → Checked (Option (List (MoveId × MoveId × Dependence)))
  | .free => return some []
  | .reuseBefore => do
    let overlaps ← match g.occupation r with
      | .unused => pure false
      | .unscheduled => pure true
      | .span _ last => g.anyCycle range (· ≤ last)
    return if overlaps then none else some (g.edgesBehind w r)
  | .reuseAfter => do
    if rn.lifetimes.isLiveIn r then return none
    let overlaps ← match g.occupation r with
      | .unused => pure false
      | .unscheduled => pure true
      | .span first _ => g.anyCycle range (first ≤ ·)
    return if overlaps then none else some (g.edgesBefore range w r)

/-- Do the places of two moves already keep the distance? -/
def isOrdered (g : Graph) (tail head : MoveId) (latency : Cycle) : Checked Bool := do
  match (← g.move tail).cycle?, (← g.move head).cycle? with
  | some t, some h => return (← Cycle.add t latency) ≤ h
  | _, _ => return false

/-- Is the separating edge needed? Not within the range, and not if the places say the same. -/
def needsEdge (g : Graph) (range : LiveRange) (guardWar : Cycle)
    (edge : MoveId × MoveId × Dependence) : Checked Bool := do
  let (tail, head, dep) := edge
  let latency := match dep.hazard, dep.guardUse with
    | .war, true => guardWar
    | .war, false => 0
    | _, _ => 1
  if tail = head || range.contains tail && range.contains head then return false
  return !(← g.isOrdered tail head latency)

/-- The needed separating edges; none at all if one of them would close a cycle. -/
def neededEdges (g : Graph) (range : LiveRange) (r : Reg)
    (edges : List (MoveId × MoveId × Dependence)) :
    Checked (Option (List (MoveId × MoveId × Dependence))) := do
  let guardWar ← Cycle.sub 1 (Cycle.ofLatency (max (← g.guardLatency r) 1))
  let edges ← edges.filterM (g.needsEdge range guardWar)
  if ← edges.anyM fun (tail, head, _) => g.hasPath head tail then return none
  return some edges

/-- Write a register into moves. -/
def setRegs (g : Graph) (r : Reg) (moves : List (MoveId × Role)) : Checked Graph :=
  moves.foldlM (fun g (n, role) => do
    let _ ← g.move n
    return g.modifyMove n (·.setReg r role)) g

/-- Repair the edges of a move after its register in the given role was renamed. -/
def renamedAt (g : Graph) (n : MoveId) : Role → Checked (Graph × EdgeRecord)
  | .dest => g.retagDest n
  | .source => g.retagSource n
  | .guard => g.retagGuard n

/-- Add the separating edges, write the register and repair the edges. -/
def applyRename (g : Graph) (range : LiveRange) (r : Reg)
    (edges : List (MoveId × MoveId × Dependence)) : Checked (Graph × List EdgeRecord) := do
  let (g, added) ← edges.foldlM (fun (g, u) (tail, head, dep) => g.growEdge u tail head dep)
    (g, ({} : EdgeRecord))
  let g ← g.setRegs r range.roles
  range.roles.foldlM (fun (g, us) (n, role) => do
    let (g, u) ← g.renamedAt n role
    return (g, us ++ [u])) (g, [added])

end Graph

namespace Renamer

/-- The register a range can be moved away from: it has one write, which is certain and whose
value is not needed after the block, and at least one read. -/
def movable (g : Graph) (range : LiveRange) : Checked (Option (MoveId × Reg)) := do
  let [w] := range.writes.toList | return none
  if range.reads.isEmpty then return none
  let m ← g.move w
  let some old := m.dst.reg? | return none
  return if m.isUnguarded && !g.leavesRegion w old then some (w, old) else none

/-- Is `new` a register that a range may be moved to from `old`? -/
def admits (r : Renamer) (range : LiveRange) (old new : Reg) (mode : RenameMode) : Bool :=
  old ≠ new && r.all.contains new && (range.guards.isEmpty || new.file = old.file) &&
    r.isAvailable new mode

/-- Move a range to another register. Nothing changes if that is not possible. -/
def rename (r : Renamer) (g : Graph) (range : LiveRange) (new : Reg) (mode : RenameMode) :
    Checked (Option (RenameRecord × Renamer × Graph)) := do
  let some (w, old) ← movable g range | return none
  unless r.admits range old new mode do return none
  let some planned ← g.separatingEdges r range w new mode | return none
  let some planned ← g.neededEdges range new planned | return none
  let (g, edges) ← g.applyRename range new planned
  let undo : RenameRecord :=
    { old, new, moves := range.roles, edges, membership := r.membership new,
      oldUse := r.lifetimes.regs[new]? }
  return some (undo, r.take range new mode, g)

/-- Take a renaming back. -/
def undo (r : Renamer) (g : Graph) (u : RenameRecord) : Checked (Renamer × Graph) := do
  let g ← u.edges.reverse.foldlM Graph.undoEdges g
  let g ← g.setRegs u.old u.moves.reverse
  let r := r.setMembership u.new u.membership
  let regs := match u.oldUse with
    | some use => r.lifetimes.regs.insert u.new use
    | none => r.lifetimes.regs.erase u.new
  return ({ r with lifetimes := { r.lifetimes with regs } }, g)

/-! ## Choosing a register -/

/-- The files a range is looked for a register in. A range with a placed move stays in its
file. -/
def filesFor (r : Renamer) (m : Machine) (g : Graph) (range : LiveRange) :
    Checked (List FileId) := do
  if ← range.moves.anyM g.isPlaced then return (← g.fileOf range).toList
  g.connectedFiles m range r.longImmediates

/-- Registers of a file to share, and how, when `cycle` is to become free. -/
def reusable (r : Renamer) (g : Graph) (cycle : Cycle) (direction : Direction) (f : FileId) :
    List (Reg × RenameMode) :=
  match direction with
  | .topDown => (r.reusableBefore g f cycle).map (·, .reuseBefore)
  | .bottomUp => (r.reusableAfter g f cycle).map (·, .reuseAfter)

/-- Move a range to the first register possible, so that one of its moves can be placed at
`cycle`: one to share, in any of the files, before a free one. -/
def renameSomewhere (r : Renamer) (m : Machine) (g : Graph) (range : LiveRange) (cycle : Cycle)
    (direction : Direction) : Checked (Option (RenameRecord × Renamer × Graph)) := do
  if range.writes.size ≠ 1 || range.reads.isEmpty then return none
  if (← g.fileOf range).isNone then return none
  let files ← r.filesFor m g range
  let choices := files.flatMap (r.reusable g cycle direction) ++
    files.flatMap fun f => (r.freeIn f).map (·, RenameMode.free)
  choices.findSomeM? fun (reg, mode) => r.rename g range reg mode

/-- Rename the range that `n` writes (`dest`) or reads. -/
def renameAt (r : Renamer) (m : Machine) (g : Graph) (n : MoveId) (dest : Bool) (cycle : Cycle)
    (direction : Direction) : Checked (Option (RenameRecord × Renamer × Graph)) := do
  let role : Role := if dest then .dest else .source
  if ((← g.move n).regAt? role).isNone then return none
  r.renameSomewhere m g (← g.liveRange n role) cycle direction

end Renamer

end Transport
