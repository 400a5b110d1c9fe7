import Std.Data.ExtTreeMap
import Transport.Dependence.Graph

/-!
# Occupied resources

What the placed moves take up, cycle by cycle. A count that drops to zero leaves no entry behind,
so usages that amount to the same are equal, whatever led to them.
-/

namespace Transport

/-- An input or output of a unit. -/
structure UnitPort where
  unit : UnitId
  operand : Nat
deriving DecidableEq

namespace UnitPort

instance : Ord UnitPort := ⟨compareLex (compareOn UnitPort.unit) (compareOn UnitPort.operand)⟩

instance : Std.TransOrd UnitPort :=
  inferInstanceAs (Std.TransCmp (compareLex (compareOn UnitPort.unit) (compareOn UnitPort.operand)))

instance : Std.LawfulEqOrd UnitPort where
  eq_of_compare {x y} h := by
    obtain ⟨h₁, h₂⟩ := Ordering.then_eq_eq.1 h
    have h₁ := Std.LawfulEqOrd.eq_of_compare h₁
    have h₂ := Std.LawfulEqOrd.eq_of_compare h₂
    cases x; cases y; simp_all

end UnitPort

/-- How one move is carried. -/
structure Assignment where
  cycle : Cycle
  bus : BusId
  srcUnit : Option UnitId
  dstUnit : Option UnitId
  /-- The value travels in a long-immediate slot. -/
  long : Bool
deriving DecidableEq

structure Usage where
  buses : Std.ExtTreeMap (At BusId) MoveId := ∅
  fileReads : Std.ExtTreeMap (At FileId) Nat := ∅
  fileWrites : Std.ExtTreeMap (At FileId) Nat := ∅
  inputs : Std.ExtTreeMap (At UnitPort) MoveId := ∅
  triggers : Std.ExtTreeMap (At UnitId) OpId := ∅
  /-- The operation whose result is read at an output, and by how many moves. -/
  results : Std.ExtTreeMap (At UnitPort) (OpId × Nat) := ∅
  longImmediates : Std.ExtTreeMap Cycle Nat := ∅
  /-- The unit an operation is bound to, and by how many placed moves. -/
  bindings : Std.ExtTreeMap OpId (UnitId × Nat) := ∅
  assignments : Std.ExtTreeMap MoveId Assignment := ∅
deriving DecidableEq

section Tally

variable {κ : Type} [Ord κ] [Std.TransOrd κ]

/-- Count `k` once more. -/
def countUp (t : Std.ExtTreeMap κ Nat) (k : κ) : Std.ExtTreeMap κ Nat :=
  t.insert k (t.getD k 0 + 1)

/-- Count `k` once less, if it is counted at all. -/
def countDown (t : Std.ExtTreeMap κ Nat) (k : κ) : Std.ExtTreeMap κ Nat :=
  match t[k]? with
  | some c => if c - 1 = 0 then t.erase k else t.insert k (c - 1)
  | none => t

variable {ν : Type}

/-- Count `k` once more, under the owner `v` if it has none yet. -/
def ownUp (t : Std.ExtTreeMap κ (ν × Nat)) (k : κ) (v : ν) : Std.ExtTreeMap κ (ν × Nat) :=
  match t[k]? with
  | some (owner, c) => t.insert k (owner, c + 1)
  | none => t.insert k (v, 1)

/-- Count `k` once less, and forget its owner with the last count. -/
def ownDown (t : Std.ExtTreeMap κ (ν × Nat)) (k : κ) : Std.ExtTreeMap κ (ν × Nat) :=
  match t[k]? with
  | some (owner, c) => if c - 1 = 0 then t.erase k else t.insert k (owner, c - 1)
  | none => t

end Tally

namespace Usage

def isEmpty (u : Usage) : Bool := u.assignments.isEmpty

/-- How many moves are placed. -/
def assigned (u : Usage) : Nat := u.assignments.size

def cycles (u : Usage) : List Cycle := u.assignments.toList.map fun (_, a) => a.cycle

def firstCycle (u : Usage) : Option Cycle := u.cycles.min?

def lastCycle (u : Usage) : Option Cycle := u.cycles.max?

/-- The unit `o` is bound to while some of its moves are placed. -/
def boundUnit (u : Usage) (o : OpId) : Option UnitId := (u.bindings[o]?).map Prod.fst

end Usage

end Transport
