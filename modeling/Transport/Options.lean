import Transport.Id

/-!
# Scheduling options

What a caller chooses about a run of the scheduler, and what the scheduler counts during it.
-/

namespace Transport

/-- Whether moves are placed from the first cycle on or from the last one back. -/
inductive Direction
  | topDown
  | bottomUp
deriving DecidableEq

def Direction.text : Direction → String
  | .topDown => "TopDown"
  | .bottomUp => "BottomUp"

/-- What to do about a ready move that nobody reported as ready. -/
inductive OrphanPolicy
  | warn
  | abort
deriving DecidableEq

structure Options where
  direction : Direction := .topDown
  /-- How many cycles before an operand its value may have been produced to be bypassed;
  0 turns bypassing off. -/
  bypassDistance : Nat := 3
  /-- Take out results nobody reads any more. -/
  killDeadResults : Bool := true
  renameRegisters : Bool := true
  /-- Rename also into files an immediate reaches only in a long-immediate slot. -/
  longImmediates : Bool := false
  orphans : OrphanPolicy := .warn
  verbose : Bool := false
deriving DecidableEq

/-- Counters of one run. -/
structure Stats where
  groups : Nat := 0
  operations : Nat := 0
  operationRetries : Nat := 0
  bypasses : Nat := 0
  bypassFallbacks : Nat := 0
  renames : Nat := 0
  deadResultsRemoved : Nat := 0
deriving DecidableEq

/-- The counters with their names, in order. -/
def Stats.fields (s : Stats) : List (String × Nat) :=
  [("groups", s.groups), ("operations", s.operations),
    ("operation_retries", s.operationRetries), ("bypasses", s.bypasses),
    ("bypass_fallbacks", s.bypassFallbacks), ("renames", s.renames),
    ("dead_results_removed", s.deadResultsRemoved)]

/-- `Stats { groups: 1, … }`. -/
def Stats.text (s : Stats) : String :=
  let fields := s.fields.map fun (name, count) => s!"{name}: {count}"
  "Stats \x7b " ++ ", ".intercalate fields ++ " \x7d"

end Transport
