import Transport.Dependence.Timing
import Transport.Note

/-!
# Groups of moves

The moves that are decided on together: all moves of an operation, together with the producers
and consumers of values that live in forced-bypass registers.
-/

namespace Transport

abbrev Group := List MoveId

namespace Group

/-- Add a move that is not in the group yet. -/
def push (ns : Group) (n : MoveId) : Group := if ns.contains n then ns else ns ++ [n]

/-- Is every move of the group placed? -/
def isPlaced (ns : Group) (g : Graph) : Checked Bool := ns.allM g.isPlaced

/-- Does the group realise an operation, as opposed to a lone copy? -/
def isOperation (ns : Group) (g : Graph) : Checked Bool :=
  ns.anyM fun n => return (← g.move n).inOperation

/-- The moves of the group that still have to be placed. -/
def pending (ns : Group) (g : Graph) : Checked Group := ns.filterM g.isPending

/-- `{mv1 mv2}`. -/
def text (ns : Group) : String := "\x7b" ++ " ".intercalate (ns.map Id.text) ++ "\x7d"

end Group

namespace Graph

/-- The producer of a forced-bypass value that `m` reads. -/
def forcedSource (g : Graph) (n : MoveId) (m : Move) : Logged (Option MoveId) := do
  let some r := m.src.reg? | return none
  unless g.isForced r do return none
  let source ← g.rawSource n
  if source.isNone then Logged.note (.noForcedSource r n)
  return source

/-- The consumers of a forced-bypass value that `m` writes. -/
def forcedReaders (g : Graph) (m : Move) : List MoveId :=
  if m.dst.reg?.any g.isForced then
    ((g.entries m.outs).filter fun (_, l) => l.dep.isRaw && !l.dep.isBack).map
      fun (_, l) => l.head
  else []

/-- The moves that are decided on together with `n`. -/
def companions (g : Graph) (n : MoveId) : Logged (List MoveId) := do
  let m ← g.move n
  let siblings := (m.ops.filterMap g.op?).flatMap Operation.moves
  let source ← g.forcedSource n m
  return siblings ++ source.toList ++ g.forcedReaders m

/-- Put the unseen moves of a list on the work list, the last one on top. -/
def pushUnseen (seen : MoveIdSet) (work : List MoveId) (ns : List MoveId) :
    MoveIdSet × List MoveId :=
  ns.foldl (fun (seen, work) n =>
    if seen.contains n then (seen, work) else (seen.insert n, n :: work)) (seen, work)

/-- Work off a list of moves, collecting everything related to them. -/
def closeGroup (g : Graph) : Nat → MoveIdSet → List MoveId → List MoveId → Logged (List MoveId)
  | _, _, [], group => pure group
  | 0, _, _ :: _, group => pure group
  | fuel + 1, seen, n :: work, group => do
    let (seen, work) := pushUnseen seen work (← g.companions n)
    closeGroup g fuel seen work (n :: group)

/-- The group of `n`, in order of identifiers. -/
def groupOf (g : Graph) (n : MoveId) : Logged Group := do
  let group ← g.closeGroup (g.moves.size + 1) ((∅ : MoveIdSet).insert n) [n] []
  return sortMoves group

end Graph

end Transport
