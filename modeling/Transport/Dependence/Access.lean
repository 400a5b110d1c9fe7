import Transport.Dependence.LiveRange

/-!
# Accesses to a register

Which moves read or write a register, and when, as far as they are placed.
-/

namespace Transport

/-- When a register is accessed. -/
inductive Occupation
  | unused
  /-- Some access is not placed yet. -/
  | unscheduled
  | span (first last : Cycle)
deriving DecidableEq

namespace Graph

/-- Every access to `r`: by move, and by source, destination and guard within one. -/
def accesses (g : Graph) (r : Reg) : List (MoveId × Role) :=
  g.moveIds.flatMap fun n =>
    match g.move? n with
    | some m => ([.source, .dest, .guard].filter fun role => m.regAt? role = some r).map (n, ·)
    | none => []

/-- First and last cycle at which a move touches `r`. -/
def occupation (g : Graph) (r : Reg) : Occupation :=
  (g.accesses r).foldl (fun span (n, _) =>
    match span, (g.move? n).bind Move.cycle? with
    | .unscheduled, _ | _, none => .unscheduled
    | .unused, some c => .span c c
    | .span first last, some c => .span (min first c) (max last c)) .unused

/-- The placed accesses to `r` in a role, with their cycles. -/
def placedAccesses (g : Graph) (r : Reg) (role : Role) : List (MoveId × Cycle) :=
  ((g.accesses r).filter (·.2 = role)).filterMap fun (n, _) =>
    ((g.move? n).bind Move.cycle?).map fun c => (n, c)

/-- The placed writes of `r` that happen for certain. -/
def kills (g : Graph) (r : Reg) : List (MoveId × Cycle) :=
  (g.placedAccesses r .dest).filter fun (n, _) => (g.move? n).any Move.isUnguarded

/-- Is `a` after `b`, by cycle and then by identifier? -/
def isLater (a b : MoveId × Cycle) : Bool := b.2 < a.2 || b.2 = a.2 && b.1.val < a.1.val

/-- The certain write of `r` in the latest cycle, with that cycle. -/
def lastKill? (g : Graph) (r : Reg) : Option (MoveId × Cycle) :=
  (g.kills r).foldl (fun best a => if best.all (isLater a) then some a else best) none

/-- The certain write of `r` in the earliest cycle, with that cycle. -/
def firstKill? (g : Graph) (r : Reg) : Option (MoveId × Cycle) :=
  (g.kills r).foldl (fun best a => if best.all (isLater · a) then some a else best) none

/-- Placed reads of `r` in a role after its last certain write. -/
def lastReads (g : Graph) (r : Reg) (role : Role) : List MoveId :=
  ((g.placedAccesses r role).filter fun (_, c) => (g.lastKill? r).all (·.2 < c)).map Prod.fst

/-- The last certain write of `r` and the conditional writes after it. -/
def lastWrites (g : Graph) (r : Reg) : List MoveId :=
  ((g.placedAccesses r .dest).filter fun (_, c) => (g.lastKill? r).all (·.2 ≤ c)).map Prod.fst

/-- The first certain write of `r` and the conditional writes before it. -/
def firstWrites (g : Graph) (r : Reg) : List MoveId :=
  ((g.placedAccesses r .dest).filter fun (_, c) => (g.firstKill? r).all (c ≤ ·.2)).map Prod.fst

/-- Every register a move of the graph mentions. -/
def usedRegisters (g : Graph) : RegSet :=
  g.moveIds.foldl (fun s n =>
    match g.move? n with
    | some m => s.insertMany ([.source, .dest, .guard].filterMap m.regAt?)
    | none => s) ∅

end Graph

end Transport
