import Transport.Dependence.Graph

/-!
# Live ranges

The writes, reads and guard reads that share one definition of a register: the moves connected by
value-carrying edges of that register. A range that crosses a loop iteration or a pseudo
dependence cannot be renamed and is reported as empty.
-/

namespace Transport

structure LiveRange where
  writes : MoveIdSet := ∅
  reads : MoveIdSet := ∅
  guards : MoveIdSet := ∅
deriving DecidableEq

namespace LiveRange

def isEmpty (lr : LiveRange) : Bool := lr.writes.isEmpty && lr.reads.isEmpty && lr.guards.isEmpty

/-- Writes, then reads, then guard reads. -/
def moves (lr : LiveRange) : List MoveId :=
  lr.writes.toList ++ lr.reads.toList ++ lr.guards.toList

def contains (lr : LiveRange) (n : MoveId) : Bool :=
  lr.writes.contains n || lr.reads.contains n || lr.guards.contains n

end LiveRange

/-- Which register of a move is meant. -/
inductive Role
  | dest
  | guard
  | source
deriving DecidableEq

def Move.regAt? (m : Move) : Role → Option Reg
  | .dest => m.dst.reg?
  | .guard => m.guard.map Guard.reg
  | .source => m.src.reg?

namespace LiveRange

/-- The range of one move in the given role. -/
def single (n : MoveId) : Role → LiveRange
  | .dest => { writes := (∅ : MoveIdSet).insert n }
  | .guard => { guards := (∅ : MoveIdSet).insert n }
  | .source => { reads := (∅ : MoveIdSet).insert n }

/-- Add the move `n` in a role, and to the work list if it is new there. -/
def take (lr : LiveRange) (work : List (Bool × MoveId)) (n : MoveId) :
    Role → LiveRange × List (Bool × MoveId)
  | .dest => ({ lr with writes := lr.writes.insert n },
      if lr.writes.contains n then work else (true, n) :: work)
  | .guard => ({ lr with guards := lr.guards.insert n },
      if lr.guards.contains n then work else (false, n) :: work)
  | .source => ({ lr with reads := lr.reads.insert n },
      if lr.reads.contains n then work else (false, n) :: work)

end LiveRange

namespace Graph

/-- The edges that carry a value of `r` out of a write (`true`) or into a read (`false`). -/
def valueEdges (g : Graph) (r : Reg) (isWrite : Bool) (n : MoveId) : List Link :=
  ((if isWrite then g.leaving n else g.entering n).map Prod.snd).filter (·.dep.carries .raw r)

/-- Take the other end of a value-carrying edge into the range. -/
def followEdge (isWrite : Bool) (s : LiveRange × List (Bool × MoveId)) (l : Link) :
    LiveRange × List (Bool × MoveId) :=
  if isWrite then s.1.take s.2 l.head (if l.dep.guardUse then .guard else .source)
  else s.1.take s.2 l.tail .dest

/-- Work off a list of writes (`true`) and reads (`false`). -/
def growRange (g : Graph) (r : Reg) : Nat → List (Bool × MoveId) → LiveRange → Option LiveRange
  | _, [], lr => some lr
  | 0, _ :: _, lr => some lr
  | fuel + 1, (isWrite, n) :: work, lr =>
    let edges := g.valueEdges r isWrite n
    if edges.any fun l => l.dep.isBack || l.dep.isPseudo then none else
    let (lr, work) := edges.foldl (followEdge isWrite) (lr, work)
    growRange g r fuel work lr

/-- The live range `n` belongs to through its register in the given role. -/
def liveRange (g : Graph) (n : MoveId) (role : Role) : Checked LiveRange := do
  let some r := (← g.move n).regAt? role | return {}
  let start := [(decide (role = .dest), n)]
  return (g.growRange r (3 * g.moves.size + 1) start (.single n role)).getD {}

end Graph

end Transport
