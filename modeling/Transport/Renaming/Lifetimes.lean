import Std.Data.ExtTreeMap
import Transport.Dependence.Access

/-!
# Lifetimes

Where each register is defined and used in a block, seen in program order.
-/

namespace Transport

/-- The definitions and uses of one register. A certain write is a *kill*. -/
structure Lifetime where
  /-- Writes up to the first kill. -/
  firstDefines : MoveIdSet := ∅
  /-- Reads before the first kill. -/
  firstUses : MoveIdSet := ∅
  /-- The last kill and the conditional writes after it. -/
  defines : MoveIdSet := ∅
  /-- Reads after the last kill. -/
  lastUses : MoveIdSet := ∅
  firstKill : Option MoveId := none
  lastKill : Option MoveId := none
deriving DecidableEq

namespace Lifetime

/-- Note that `n` reads the register next. -/
def read (u : Lifetime) (n : MoveId) : Lifetime :=
  { u with
    firstUses := if u.firstKill.isNone then u.firstUses.insert n else u.firstUses
    lastUses := u.lastUses.insert n }

/-- Note that `n` writes the register next. -/
def write (u : Lifetime) (n : MoveId) (isKill : Bool) : Lifetime :=
  let firstDefines := if u.firstKill.isNone then u.firstDefines.insert n else u.firstDefines
  if isKill then
    { u with
      firstDefines, defines := (∅ : MoveIdSet).insert n, lastUses := ∅
      firstKill := u.firstKill.or (some n), lastKill := some n }
  else { u with firstDefines, defines := u.defines.insert n }

/-- Does a read that comes next get the value the register held on entry? -/
def readsEntry (u : Lifetime) : Bool := u.firstKill.isNone && u.firstDefines.isEmpty

end Lifetime

structure Lifetimes where
  /-- Registers that hold a value on entry which the block may read. -/
  liveIn : RegSet := ∅
  regs : Std.ExtTreeMap Reg Lifetime := ∅
deriving DecidableEq

namespace Lifetimes

def use (l : Lifetimes) (r : Reg) : Lifetime := l.regs.getD r {}

def isLiveIn (l : Lifetimes) (r : Reg) : Bool := l.liveIn.contains r

def isDefined (l : Lifetimes) (r : Reg) : Bool := !(l.use r).defines.isEmpty

def read (l : Lifetimes) (n : MoveId) (r : Reg) : Lifetimes where
  liveIn := if (l.use r).readsEntry then l.liveIn.insert r else l.liveIn
  regs := l.regs.insert r ((l.use r).read n)

def write (l : Lifetimes) (n : MoveId) (r : Reg) (isKill : Bool) : Lifetimes :=
  { l with regs := l.regs.insert r ((l.use r).write n isKill) }

/-- The move `n` comes next: it reads its source and its guard, then it writes. -/
def step (l : Lifetimes) (n : MoveId) (m : Move) : Lifetimes :=
  let l := (m.src.reg?.toList ++ (m.guard.map Guard.reg).toList).foldl (fun l r => l.read n r) l
  match m.dst.reg? with
  | some r => l.write n r m.isUnguarded
  | none => l

/-- Walk the moves of a block in program order. -/
def ofGraph (g : Graph) : Lifetimes :=
  g.moveIds.foldl (fun l n =>
    match g.move? n with
    | some m => l.step n m
    | none => l) { liveIn := g.usedRegisters.filter g.isLiveIn }

end Lifetimes

end Transport
