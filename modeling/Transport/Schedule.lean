import Transport.Dependence.Graph
import Transport.Options

/-!
# Schedules

The placed moves of a block as a sequence of instructions, each with the moves of one cycle in the
order of their buses.
-/

namespace Transport

/-- A move in its final place. -/
structure PlacedMove where
  id : MoveId
  bus : BusId
  src : Terminal
  dst : Terminal
  guard : Option Guard
deriving DecidableEq

/-- The moves of one cycle. An instruction without moves does nothing. -/
abbrev Instruction := List PlacedMove

structure Schedule where
  instructions : List Instruction := []
  /-- The cycle of the first instruction. -/
  base : Cycle := 0
  stats : Stats := {}
deriving DecidableEq

namespace PlacedMove

/-- ` [b0] ?rf1.0 rf0.1 -> fu.0t`. -/
def text (m : PlacedMove) : Checked String := do
  let bus ← m.bus.index
  let mark ← guardMark m.guard
  let src ← m.src.text
  let dst ← m.dst.text
  return s!" [b{bus}] " ++ mark ++ src ++ " -> " ++ dst

end PlacedMove

namespace Schedule

/-- By cycle, then by bus, then by identifier. -/
def placedLe (a b : Placement × MoveId) : Bool :=
  a.1.cycle < b.1.cycle || a.1.cycle = b.1.cycle &&
    (a.1.bus.val < b.1.bus.val || a.1.bus = b.1.bus && a.2.val ≤ b.2.val)

/-- The placed moves of a graph with their places, in schedule order. -/
def placedMoves (g : Graph) : List (Placement × MoveId) :=
  sortBy placedLe (g.moveIds.filterMap fun n =>
    ((g.move? n).bind Move.placement).map fun p => (p, n))

/-- The moves placed in one cycle. -/
def instructionAt (g : Graph) (placed : List (Placement × MoveId)) (cycle : Cycle) :
    Instruction :=
  (placed.filter (·.1.cycle = cycle)).filterMap fun (p, n) =>
    (g.move? n).map fun m =>
      { id := n, bus := p.bus, src := m.src, dst := m.dst, guard := m.guard }

/-- Collect the placed moves of a graph, with an instruction for every cycle from the first to the
last one in use. -/
def ofGraph (g : Graph) (stats : Stats) : Checked Schedule := do
  let placed := placedMoves g
  match placed.head?, placed.getLast? with
  | some (first, _), some (last, _) =>
    let length ← Cycle.add (← Cycle.sub last.cycle first.cycle) 1
    let cycles := (List.range length.toNat).map fun (i : Nat) => first.cycle + i
    return { instructions := cycles.map (instructionAt g placed), base := first.cycle, stats }
  | _, _ => return { stats }

def length (s : Schedule) : Nat := s.instructions.length

def isEmpty (s : Schedule) : Bool := s.instructions.isEmpty

def moveCount (s : Schedule) : Nat := s.instructions.flatten.length

/-- The instruction that a move is in. -/
def instructionOf (s : Schedule) (n : MoveId) : Option Nat :=
  s.instructions.findIdx? fun i => i.any (·.id = n)

/-- A number in at least four places. -/
def pad (n : Nat) : String :=
  let digits := toString n
  "".pushn ' ' (4 - digits.length) ++ digits

/-- One line per instruction. -/
def text (s : Schedule) : Checked String := do
  let lines ← s.instructions.zipIdx.mapM fun (i, k) => do
    let moves ← i.mapM PlacedMove.text
    return pad k ++ ":" ++ (if i.isEmpty then " nop" else "") ++ String.join moves ++ "\n"
  return String.join lines

end Schedule

end Transport
