/-!
# Attempts

A change is tried together with other changes before and after it, and either all of them stay or
all are taken back. What the changes act on is left open: a `Reversal` says how one change is made
and how it is taken back.
-/

namespace Transport

/-- How to make a change of type `κ` and how to take it back from its record of type `υ`. A change
that does not apply has no record and no effect. -/
structure Reversal (m : Type → Type) (κ υ : Type) where
  apply : κ → m (Option υ)
  revert : υ → m Unit

/-- A change with the steps to run before and after it. If one of those after it does not apply, a
step that `clears` takes back the others before its change; one that does not leaves them until its
change is gone. -/
inductive Step (κ : Type)
  | mk (pre : List (Step κ)) (change : κ) (post : List (Step κ)) (clears : Bool := false)

/-- A step that consists of one change. -/
def Step.single {κ : Type} (change : κ) : Step κ := .mk [] change []

mutual

/-- The step with its changes made into others. -/
def Step.map {κ ι : Type} (f : κ → ι) : Step κ → Step ι
  | .mk pre change post clears => .mk (Step.mapAll f pre) (f change) (Step.mapAll f post) clears

def Step.mapAll {κ ι : Type} (f : κ → ι) : List (Step κ) → List (Step ι)
  | [] => []
  | s :: ss => Step.map f s :: Step.mapAll f ss

end

/-- The record of a step, with the records of the steps around it, newest first. -/
inductive Applied (υ : Type)
  | mk (pre : List (Applied υ)) (record : υ) (post : List (Applied υ))

namespace Reversal

variable {m : Type → Type} [Monad m] {κ υ : Type} (R : Reversal m κ υ)

mutual

/-- Take back a step: what came after its change, its change, then what came before. -/
def undo : Applied υ → m Unit
  | .mk pre record post => do
    undoAll post
    R.revert record
    undoAll pre

/-- Take back steps, the newest first. -/
def undoAll : List (Applied υ) → m Unit
  | [] => pure ()
  | a :: as => do
    undo a
    undoAll as

end

/-- Take back a change and the steps that ran after it. -/
def withdraw (clears : Bool) (record : υ) (after : List (Applied υ)) : m Unit := do
  if clears then
    R.undoAll after
    R.revert record
  else
    R.revert record
    R.undoAll after

mutual

/-- Run a step. If a part of it does not apply, everything it did is taken back. -/
def run : Step κ → m (Option (Applied υ))
  | .mk pre change post clears => do
    let (before, preOk) ← runEach pre []
    unless preOk do
      R.undoAll before
      return none
    let some record ← R.apply change
      | R.undoAll before
        return none
    let (after, postOk) ← runEach post []
    unless postOk do
      R.withdraw clears record after
      R.undoAll before
      return none
    return some (.mk before record after)

/-- Run steps up to the first that does not apply. The records of those that did are put in front
of `done`. -/
def runEach : List (Step κ) → List (Applied υ) → m (List (Applied υ) × Bool)
  | [], done => pure (done, true)
  | s :: rest, done => do
    match ← run s with
    | some a => runEach rest (a :: done)
    | none => pure (done, false)

end

end Reversal

/-- Steps that stay or go together, newest first. -/
abbrev Attempt (υ : Type) := List (Applied υ)

namespace Attempt

variable {m : Type → Type} [Monad m] {κ υ : Type} (R : Reversal m κ υ)

/-- Run one more step, and tell whether it applied. -/
def tryStep (a : Attempt υ) (s : Step κ) : m (Bool × Attempt υ) := do
  match ← R.run s with
  | some applied => return (true, applied :: a)
  | none => return (false, a)

/-- Run steps in order. If one does not apply, the whole attempt is taken back. -/
def tryAll (a : Attempt υ) (steps : List (Step κ)) : m (Bool × Attempt υ) := do
  let (applied, ok) ← R.runEach steps a
  if ok then return (true, applied)
  R.undoAll applied
  return (false, [])

end Attempt

end Transport
