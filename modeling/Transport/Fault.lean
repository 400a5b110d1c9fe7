import Transport.Id

/-!
# Faults and errors

Two ways to end early are kept apart. A `SchedError` says that a block is malformed or has no
schedule. A `Fault` says that an operation was used outside its contract, for instance that a
placed move was placed again; `Fault.message?` is the only place where faults are worded.
-/

namespace Transport

inductive Fault
  /-- A position outside a table. -/
  | outOfRange
  /-- A value that does not fit its width. -/
  | overflow
  /-- A broken precondition that has no wording of its own. -/
  | assertion
  | cycleOfUnplaced
  | removesDeadEdge (e : EdgeId)
  | restoresLiveEdge (e : EdgeId)
  | notLinked (n : MoveId) (op : OpId)
  | removesPlaced (n : MoveId)
  | restoresLiveMove (n : MoveId)
  | guardOfUnconditional (n : MoveId)
  | readsInput
  | writesReadOnly
  | operandWithoutOperation
  | alreadyPlaced (n : MoveId)
  | noResources (n : MoveId) (cycle : Int)
  | notPlaced (n : MoveId)
  | foreignPlacement (n : MoveId)
  | orphan (n : MoveId)
  | noRenamer
deriving DecidableEq

/-- The wording of a fault, for those that have one. -/
def Fault.message? : Fault → Option String
  | .outOfRange | .overflow | .assertion => none
  | .cycleOfUnplaced => some "cycle() of an unscheduled move"
  | .removesDeadEdge e => some s!"removing dead edge {e.text}"
  | .restoresLiveEdge e => some s!"restoring live edge {e.text}"
  | .notLinked n op => some s!"{n.text} not linked to {op.text}"
  | .removesPlaced n => some s!"removing scheduled move {n.text}"
  | .restoresLiveMove n => some s!"restoring live move {n.text}"
  | .guardOfUnconditional n => some s!"guard_renamed on unconditional move {n.text}"
  | .readsInput => some "move reads a function unit input"
  | .writesReadOnly => some "move writes a read-only terminal"
  | .operandWithoutOperation => some "operand move without operation"
  | .alreadyPlaced n => some s!"assigning already scheduled move {n.text}"
  | .noResources n c => some s!"no free resources for {n.text} in cycle {c}"
  | .notPlaced n => some s!"unassigning unscheduled move {n.text}"
  | .foreignPlacement n => some s!"move {n.text} was not placed by this resource manager"
  | .orphan n => some s!"orphan node {n.text} was never put on the ready list"
  | .noRenamer => some "undoing a rename without a renamer"

abbrev Checked := Except Fault

/-- What is wrong with a malformed block. -/
inductive Defect
  | unknownOperation
  | operandNotAtUnit
  | operandWithoutOperation
  | resultNotAtUnit
  | resultWithoutOperation
  | noUnit
  | notOneTrigger
deriving DecidableEq

def Defect.text : Defect → String
  | .unknownOperation => "unknown operation"
  | .operandNotAtUnit => "operand move does not write a function unit port"
  | .operandWithoutOperation => "operand move without operation"
  | .resultNotAtUnit => "result move does not read a function unit port"
  | .resultWithoutOperation => "result move without operation"
  | .noUnit => "no function unit implements the operation"
  | .notOneTrigger => "operation needs exactly one trigger"

/-- Why a block has no schedule. -/
inductive SchedError
  /-- The block is malformed at the given move. -/
  | invalidProgram (defect : Defect) (n : MoveId)
  /-- No cycle within the search horizon admits the move. -/
  | unschedulable (n : MoveId)
  /-- Nothing is ready although moves are left. -/
  | deadlock (unscheduled : Nat)
deriving DecidableEq

def SchedError.text : SchedError → String
  | .invalidProgram d n => s!"InvalidProgram(\"{d.text}\", {n.detail})"
  | .unschedulable n => s!"Unschedulable({n.detail})"
  | .deadlock k => s!"Deadlock \x7b unscheduled: {k} \x7d"

/-- Either way to end early. -/
inductive Halt
  | fault (f : Fault)
  | error (e : SchedError)
deriving DecidableEq

/-- A checked result under either way to end early. -/
def Checked.toHalt {α : Type} : Checked α → Except Halt α
  | .ok a => .ok a
  | .error f => .error (.fault f)

instance : MonadLift Checked (Except Halt) := ⟨Checked.toHalt⟩

namespace Id

variable {k : Kind} {α : Type}

/-- The position an identifier stands for. -/
def index (i : Id k) : Checked Nat :=
  if i = invalid then throw .assertion else pure i.val

/-- The entry of a table at an identifier. -/
def fetch (xs : Array α) (i : Id k) : Checked α := do
  match xs[← i.index]? with
  | some x => pure x
  | none => throw .outOfRange

theorem fetch_eq_ok_iff {xs : Array α} {i : Id k} {x : α} :
    i.fetch xs = .ok x ↔ i ≠ invalid ∧ xs[i.val]? = some x := by
  by_cases h : i = invalid
  · simp [fetch, index, h, throw, throwThe, MonadExceptOf.throw, bind, Except.bind]
  · simp only [fetch, index, h, if_false, pure, bind, Except.pure, Except.bind, ne_eq,
      not_false_eq_true, true_and]
    cases xs[i.val]? <;> simp [throw, throwThe, MonadExceptOf.throw]

end Id

end Transport
