import Transport.Options
import Transport.Terminal

/-!
# Notes

What the scheduler reports beside its result. Notes survive a fault, so a computation that takes
notes is `Logged`.
-/

namespace Transport

inductive Note
  | noForcedSource (r : Reg) (n : MoveId)
  | orphanRecovered (n : MoveId)
  | deadResultsRemoved (count : Nat)
  | started (moves : Nat) (direction : Direction) (distance : Nat)
  | stuck (unscheduled : Nat)
  | notBypassed (n : MoveId)
  | placedFrom (unit : List MoveId) (cycle : Int)
  | placedDownFrom (unit : List MoveId) (cycle : Int)
  | finished (moves instructions : Nat) (stats : Stats)
deriving DecidableEq

namespace Note

/-- Does the note tell of something that should not happen? -/
def isWarning : Note → Bool
  | .noForcedSource .. | .orphanRecovered _ | .stuck _ | .notBypassed _ => true
  | _ => false

def message : Note → String
  | .noForcedSource r n =>
    s!"cannot find source for forced bypass of {r.file.text}.{r.index} into {n.text}"
  | .orphanRecovered n => s!"orphan node {n.text} recovered into the ready list"
  | .deadResultsRemoved k => s!"removed {k} dead result move(s)"
  | .started k d dist => s!"scheduling {k} moves {d.text}, bypass distance {dist}"
  | .stuck k => s!"ready list empty with {k} unscheduled moves"
  | .notBypassed n => s!"operand {n.text} could not be bypassed from a forced-bypass register"
  | .placedFrom unit c => "operation " ++ detailList unit ++ s!" placed from cycle {c}"
  | .placedDownFrom unit c => "operation " ++ detailList unit ++ s!" placed down from cycle {c}"
  | .finished k n stats => s!"scheduled {k} moves into {n} instructions: {stats.text}"

/-- The message with its level. -/
def text (note : Note) : String := (if note.isWarning then "WARN: " else "DEBUG: ") ++ note.message

end Note

/-- A checked computation that takes notes. -/
abbrev Logged := EStateM Fault (List Note)

/-- Take a note. -/
def Logged.note (n : Note) : Logged Unit := modify (· ++ [n])

instance : MonadLift Checked Logged where
  monadLift
    | .ok a => pure a
    | .error f => throw f

end Transport
