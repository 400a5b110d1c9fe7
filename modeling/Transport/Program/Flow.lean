import Std.Data.ExtTreeMap
import Transport.Dependence.Graph

/-!
# Dependences of a program

Moves are walked in program order. For every register the walk remembers the writes that may
reach the current point and the reads since the last certain write; a further access depends on
them. For a loop body a second walk goes on from where the first ended, and what it finds against
accesses of the first walk is loop carried.
-/

namespace Transport.Flow

/-- An access by a move, and the walk it was met in. -/
structure Access where
  move : MoveId
  pass : Nat
  guard : Option Guard
deriving DecidableEq

/-- The accesses to one storage place that later ones depend on. -/
structure Cell where
  /-- The last certain write and the conditional writes after it. -/
  defs : List Access := []
  /-- Reads since the last certain write; `true` for guard reads. -/
  reads : List (Access × Bool) := []
deriving DecidableEq

structure State where
  regs : Std.ExtTreeMap Reg Cell := ∅
  returnAddress : Cell := {}
  stores : List Access := []
  loads : List Access := []

/-- A dependence of the current move, with the move it depends on. -/
abbrev Found := List (MoveId × Dependence)

/-- May the access `b` depend on `a`? In the second walk only on accesses of the first. -/
def follows (a b : Access) : Bool := !(0 < b.pass && a.pass = b.pass) && a.move ≠ b.move

def excludes (a b : Access) : Bool :=
  match a.guard, b.guard with
  | some g, some h => g.excludes h
  | _, _ => false

/-- A read of a register, as a guard or as a source. -/
def Cell.read (c : Cell) (a : Access) (dep : Dependence) : Found × Cell :=
  let found := c.defs.filter fun d => follows d a && (dep.guardUse || !excludes d a)
  (found.map fun d => (d.move, { dep with hazard := .raw, loopDepth := a.pass }),
    { c with reads := c.reads ++ [(a, dep.guardUse)] })

/-- A write of the place that `dep` is about. -/
def Cell.write (c : Cell) (a : Access) (dep : Dependence) : Found × Cell :=
  let reads := c.reads.filter fun (r, guardUse) => follows r a && (guardUse || !excludes r a)
  let defs := c.defs.filter fun d => follows d a && !excludes d a
  let found :=
    (reads.map fun (r, guardUse) =>
      (r.move, { dep with hazard := .war, loopDepth := a.pass, guardUse })) ++
    defs.map fun d => (d.move, { dep with hazard := .waw, loopDepth := a.pass })
  (found, if a.guard.isNone then { defs := [a] } else { c with defs := c.defs ++ [a] })

/-- A read of the return address, which depends on every write of it. -/
def Cell.readAlways (c : Cell) (a : Access) (dep : Dependence) : Found × Cell :=
  ((c.defs.filter (follows · a)).map fun d =>
      (d.move, { dep with hazard := .raw, loopDepth := a.pass }),
    { c with reads := c.reads ++ [(a, false)] })

def aboutReg (r : Reg) : Dependence := .register .unknown r

def aboutReturn : Dependence := { reason := .returnAddress, hazard := .unknown }

def onReg (s : State) (r : Reg) (f : Cell → Found × Cell) : Found × State :=
  let (found, c) := f (s.regs.getD r {})
  (found, { s with regs := s.regs.insert r c })

def onReturn (s : State) (f : Cell → Found × Cell) : Found × State :=
  let (found, c) := f s.returnAddress
  (found, { s with returnAddress := c })

def memoryEdges (a : Access) (hazard : Hazard) (earlier : List Access) : Found :=
  (earlier.filter (follows · a)).map fun e =>
    (e.move, { reason := .memory, hazard, loopDepth := a.pass })

def onMemory (s : State) (a : Access) : MemoryAccess → Found × State
  | .load => (memoryEdges a .raw s.stores, { s with loads := s.loads ++ [a] })
  | .store => (memoryEdges a .war s.loads ++ memoryEdges a .waw s.stores,
      { s with loads := [], stores := [a] })

/-- What a move reads and writes, in the order in which the walk looks at it. -/
def effects (m : Move) (memory : Option MemoryAccess) (a : Access) :
    List (State → Found × State) :=
  ((m.src.reg?.map fun r s => onReg s r (·.read a (aboutReg r))).toList ++
  (m.guard.map fun g s =>
    onReg s g.reg (·.read a { aboutReg g.reg with guardUse := true })).toList ++
  (m.dst.reg?.map fun r s => onReg s r (·.write a (aboutReg r))).toList) ++
  (if m.src = .returnAddress then [fun s => onReturn s (·.readAlways a aboutReturn)] else []) ++
  (if m.dst = .returnAddress || m.call
    then [fun s => onReturn s (·.write a aboutReturn)] else []) ++
  (if m.isTrigger then (memory.map fun access s => onMemory s a access).toList else [])

/-- One move: the dependences it adds, and the state after it. -/
def step (m : Move) (memory : Option MemoryAccess) (a : Access) (s : State) : Found × State :=
  (effects m memory a).foldl (fun (found, s) f =>
    let (more, s) := f s
    (found ++ more, s)) ([], s)

/-- A dependence between two moves of the program. -/
abbrev Edge := MoveId × MoveId × Dependence

/-- Walk the moves once. -/
def walk (pass : Nat) (moves : List (Move × MoveId × Option MemoryAccess)) (s : State) :
    List Edge × State :=
  moves.foldl (fun (edges, s) (m, n, memory) =>
    let (found, s) := step m memory { move := n, pass, guard := m.guard } s
    (edges ++ found.map fun (tail, dep) => (tail, n, dep), s)) ([], s)

/-- The dependences of a straight-line block or of a loop body, in the order they are met. -/
def edges (isLoop : Bool) (moves : List (Move × MoveId × Option MemoryAccess)) : List Edge :=
  let (first, s) := walk 0 moves {}
  if isLoop then first ++ (walk 1 moves s).1 else first

end Transport.Flow
