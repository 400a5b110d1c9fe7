import Transport.Fault

/-!
# Cycles

Cycles are signed 32-bit numbers, latencies and distances unsigned ones. Both are written as
unbounded integers here; arithmetic that leaves the width is a fault.
-/

namespace Transport

abbrev Cycle := Int

namespace Cycle

/-- Does `z` fit the width of a cycle? -/
def Fits (z : Int) : Prop := -2147483648 ≤ z ∧ z < 2147483648

instance (z : Int) : Decidable (Fits z) := inferInstanceAs (Decidable (_ ∧ _))

def check (z : Int) : Checked Cycle :=
  if Fits z then pure z else throw .overflow

def add (a b : Cycle) : Checked Cycle := check (a + b)

def sub (a b : Cycle) : Checked Cycle := check (a - b)

/-- A latency read as a cycle count: values from `2 ^ 31` on are taken as negative. -/
def ofLatency (n : Nat) : Cycle := (n : Int).bmod 4294967296

theorem check_eq_ok_iff {z c : Int} : check z = .ok c ↔ Fits z ∧ c = z := by
  by_cases h : Fits z
  · simp [check, h, pure, Except.pure, eq_comm]
  · simp [check, h, throw, throwThe, MonadExceptOf.throw]

theorem ofLatency_of_lt {n : Nat} (h : n < 2147483648) : ofLatency n = n := by
  unfold ofLatency
  apply Int.bmod_eq_of_le <;> omega

end Cycle

/-- Unsigned addition where only numbers below `limit` fit. -/
def addBelow (limit a b : Nat) : Checked Nat :=
  if a + b < limit then pure (a + b) else throw .overflow

/-- Unsigned addition in 8 bits. -/
def addByte (a b : Nat) : Checked Nat := addBelow 256 a b

/-- Unsigned addition in 32 bits. -/
def addWord (a b : Nat) : Checked Nat := addBelow 4294967296 a b

/-- A resource in a cycle. -/
structure At (α : Type) where
  cycle : Cycle
  what : α
deriving DecidableEq

namespace At

variable {α : Type} [Ord α]

instance : Ord (At α) := ⟨compareLex (compareOn At.cycle) (compareOn At.what)⟩

instance [Std.TransOrd α] : Std.TransOrd (At α) :=
  inferInstanceAs (Std.TransCmp (compareLex (compareOn At.cycle) (compareOn At.what)))

instance [Std.TransOrd α] [Std.LawfulEqOrd α] : Std.LawfulEqOrd (At α) where
  eq_of_compare {x y} h := by
    obtain ⟨h₁, h₂⟩ := Ordering.then_eq_eq.1 h
    have h₁ := Std.LawfulEqOrd.eq_of_compare h₁
    have h₂ := Std.LawfulEqOrd.eq_of_compare h₂
    cases x; cases y; simp_all

instance {k : Kind} : Std.TransOrd (At (Id k)) := inferInstance

end At

/-- The least cycle of `c, c + 1, …, c + (k - 1)` that passes `p`. -/
def searchUp (p : Cycle → Checked Bool) : Nat → Cycle → Checked (Option Cycle)
  | 0, _ => pure none
  | k + 1, c => do
    if ← p c then return some c
    searchUp p k (c + 1)

/-- The greatest cycle of `k - 1, …, 0` that passes `p`. -/
def searchDown (p : Cycle → Checked Bool) : Nat → Checked (Option Cycle)
  | 0 => pure none
  | k + 1 => do
    if ← p k then return some k
    searchDown p k

end Transport
