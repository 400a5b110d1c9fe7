import Transport.Group

/-!
# Units of a group

A group is placed operation by operation. Its moves are split into operations and lone moves, and
these are put into an order in which each comes after those it depends on.
-/

namespace Transport

/-- What a move is placed with: the other moves of an operation, or nothing. -/
inductive UnitTag
  | operation (o : OpId)
  | lone (n : MoveId)
deriving DecidableEq

def Move.unitTag (m : Move) (n : MoveId) : UnitTag :=
  match m.dstOp.or m.srcOp with
  | some o => .operation o
  | none => .lone n

namespace Group

/-- Add a move to the unit of its key, which is a new one at the end if there is none. -/
def addToUnit (units : List (UnitTag × List MoveId)) (key : UnitTag) (n : MoveId) :
    List (UnitTag × List MoveId) :=
  match units with
  | [] => [(key, [n])]
  | (k, ns) :: rest => if k = key then (k, ns ++ [n]) :: rest else (k, ns) :: addToUnit rest key n

/-- The operations and lone moves of a group, in order of their first moves. -/
def units (group : Group) (g : Graph) : Checked (List (List MoveId)) := do
  let keyed ← group.foldlM (fun units n => do
    return addToUnit units ((← g.move n).unitTag n) n) []
  return keyed.map Prod.snd

/-- Does a unit depend on another one within the same iteration? -/
def dependsOn (g : Graph) (unit other : List MoveId) : Bool :=
  unit.any fun n => (g.entering n).any fun (_, l) => !l.dep.isBack && other.contains l.tail

/-- The unit to take next: the first that depends on no other one, or just the first. -/
def nextUnit? (g : Graph) (units : List (List MoveId)) : Option (List MoveId) :=
  (units.find? fun u => units.all fun v => v = u || !dependsOn g u v).or units.head?

/-- Order units so that each comes after those it depends on. -/
def orderUnits (g : Graph) : Nat → List (List MoveId) → List (List MoveId)
  | 0, units => units
  | fuel + 1, units =>
    match nextUnit? g units with
    | some u => u :: orderUnits g fuel (units.erase u)
    | none => []

/-- The units of a group in the order they are placed. -/
def orderedUnits (group : Group) (g : Graph) (direction : Direction) :
    Checked (List (List MoveId)) := do
  let units ← group.units g
  let ordered := orderUnits g units.length units
  match direction with
  | .topDown => return ordered
  | .bottomUp => return ordered.reverse

end Group

end Transport
