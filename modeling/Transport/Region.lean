import Transport.Attempt
import Transport.Renaming.Rename
import Transport.Resource.Placing
import Transport.Selector

/-!
# The region being scheduled

Everything the scheduler changes while it works on a block, and the changes it can take back. A
change tells the selector, if there is one, about moves that may have become ready.
-/

namespace Transport

/-- A change to the region. -/
inductive Change
  /-- Place a move. -/
  | assign (n : MoveId) (cycle : Cycle)
  /-- Take a move off its cycle. -/
  | unassign (n : MoveId)
  /-- Make `dest` read what `source` reads. -/
  | redirect (source dest : MoveId)
  /-- Move the edges of a bypass. -/
  | mergeEdges (source dest : MoveId) (force : Bool)
  | removeEdge (e : EdgeId)
  | connect (tail head : MoveId) (dep : Dependence)
  /-- Rename the live range that a move writes (`dest`) or reads. -/
  | rename (n : MoveId) (dest : Bool) (cycle : Cycle) (direction : Direction)
  /-- Take out a move whose result nobody reads. -/
  | removeDead (n : MoveId)
deriving DecidableEq

/-- What it takes to take a change back. -/
inductive ChangeRecord
  | assigned (n : MoveId)
  | unassigned (n : MoveId) (cycle : Cycle)
  | redirected (redirection : Redirection)
  | edgesMerged (edges : EdgeRecord)
  | edgeRemoved (e : EdgeId)
  /-- The new edge, unless an equal one was there. -/
  | connected (e : Option EdgeId)
  | renamed (undo : RenameRecord)
  /-- The removed move, with its cycle if it was placed. -/
  | deadRemoved (removed : RemovedMove) (cycle : Option Cycle)
deriving DecidableEq

/-- A bypass of `source` into `dest` that was kept. -/
structure Bypass where
  dest : MoveId
  source : MoveId
  steps : Attempt ChangeRecord
  /-- The steps also took out the then unused `source`. -/
  sourceRemoved : Bool

structure Bypasser where
  /-- How many cycles before an operand its value may have been produced. -/
  lookBack : Nat := 0
  killDeadResults : Bool := false
  /-- The bypasses in force, newest first. -/
  log : List Bypass := []
  /-- Producers that may have lost their last reader, oldest first. -/
  deadCandidates : List MoveId := []

structure Region where
  machine : Machine
  graph : Graph
  usage : Usage := {}
  renamer : Option Renamer := none
  selector : Option Selector := none
  bypasser : Bypasser := {}
  stats : Stats := {}
  notes : List Note := []

/-- A computation on a region. The region survives a fault. -/
abbrev RegionM := EStateM Halt Region

namespace RegionM

def ofChecked {α : Type} : Checked α → RegionM α
  | .ok a => pure a
  | .error f => throw (.fault f)

instance : MonadLift Checked RegionM := ⟨ofChecked⟩

def ofLogged {α : Type} (x : Logged α) : RegionM α := fun r =>
  match x.run r.notes with
  | .ok a notes => .ok a { r with notes }
  | .error f notes => .error (.fault f) { r with notes }

instance : MonadLift Logged RegionM := ⟨ofLogged⟩

def note (n : Note) : RegionM Unit := ofLogged (Logged.note n)

def graph : RegionM Graph := return (← get).graph

/-- Ask the graph. -/
def ask {α : Type} (query : Graph → Checked α) : RegionM α := do query (← graph)

def setGraph (graph : Graph) : RegionM Unit := modify fun r => { r with graph }

def move (n : MoveId) : RegionM Move := ask (·.move n)

def count (f : Stats → Stats) : RegionM Unit := modify fun r => { r with stats := f r.stats }

/-! ## Placing -/

/-- Place a move that fits. -/
def assign (n : MoveId) (cycle : Cycle) : RegionM Unit := do
  let r ← get
  let (usage, graph) ← r.usage.assign r.machine r.graph cycle n
  set { r with usage, graph }

/-- Take a placed move off its cycle. -/
def unassign (n : MoveId) : RegionM Unit := do
  let r ← get
  let (usage, graph) ← r.usage.unassign r.graph n
  set { r with usage, graph }

/-- Take those of the moves off their cycles that are placed. -/
def unassignAll (ns : List MoveId) : RegionM Unit :=
  ns.forM fun n => do
    if ← ask (·.isSettled n) then unassign n

def earliestFit (lower : Cycle) (n : MoveId) : RegionM (Option Cycle) := do
  let r ← get
  r.usage.earliestFit r.machine r.graph lower n

def latestFit (upper : Cycle) (n : MoveId) : RegionM (Option Cycle) := do
  let r ← get
  r.usage.latestFit r.machine r.graph upper n

/-- A guarded move is not placed before its guard can be read. -/
def guardBound (n : MoveId) : RegionM Cycle := do
  match (← move n).guard with
  | some guard => do Cycle.sub (Cycle.ofLatency (← ask (·.guardLatency guard.reg))) 1
  | none => return 0

/-! ## The selector -/

/-- Run a computation on the selector, if there is one. -/
def updateSelector (f : Selector → Graph → Logged (Selector × Graph)) : RegionM Unit := do
  let r ← get
  let some s := r.selector | return
  let (s, graph) ← f s r.graph
  modify fun r => { r with graph, selector := some s }

/-- Tell the selector that moves may have become ready. -/
def reconsider (ns : List MoveId) : RegionM Unit :=
  ns.forM fun n => updateSelector fun s g => return (← s.offer g n).2

/-! ## Changes -/

/-- The predecessors and the successors of a move. -/
def neighbours (n : MoveId) : RegionM (List MoveId × List MoveId) := do
  return (← ask (·.predecessors n), ← ask (·.successors n))

/-- Rename a live range, and tell the selector about the moves around it. -/
def rename (n : MoveId) (dest : Bool) (cycle : Cycle) (direction : Direction) :
    RegionM (Option RenameRecord) := do
  let r ← get
  let some renamer := r.renamer | return none
  let some (undo, renamer, graph) ← renamer.renameAt r.machine r.graph n dest cycle direction
    | return none
  set { r with renamer := some renamer, graph }
  let touched ← undo.moves.mapM fun (m, _) => do
    let (before, after) ← neighbours m
    return after ++ before
  reconsider touched.flatten
  return some undo

/-- Take out a result that nobody reads, and tell the selector about the moves around it. -/
def removeDead (n : MoveId) : RegionM (Option (RemovedMove × Option Cycle)) := do
  let m ← move n
  if !m.live || !m.isResult || (← ask (·.resultNeeded n)) then return none
  let (before, after) ← neighbours n
  if m.isPlaced then unassign n
  let (graph, removed) ← ask (·.removeMove n)
  setGraph graph
  reconsider (before ++ after)
  return some (removed, m.cycle?)

/-- Make a change, if it applies. -/
def applyChange : Change → RegionM (Option ChangeRecord)
  | .assign n cycle => do
    let r ← get
    unless ← r.usage.canAssign r.machine r.graph cycle n do return none
    assign n cycle
    return some (.assigned n)
  | .unassign n => do
    let some cycle := (← move n).cycle? | return none
    unassign n
    return some (.unassigned n cycle)
  | .redirect source dest => do
    let (graph, redirection) ← ask (·.redirect source dest)
    setGraph graph
    return some (.redirected redirection)
  | .mergeEdges source dest force => do
    let some (graph, edges) ← ask (·.mergeEdges source dest force) | return none
    setGraph graph
    return some (.edgesMerged edges)
  | .removeEdge e => do
    let l ← ask (·.link e)
    unless l.live do return none
    setGraph (← ask (·.removeEdge e))
    reconsider [l.head, l.tail]
    return some (.edgeRemoved e)
  | .connect tail head dep => do
    if tail = head then return none
    -- An edge within the iteration must not close a cycle.
    if !dep.isBack then
      if ← ask (·.hasPath head tail) then return none
    let (graph, e) ← ask (·.ensureEdge tail head dep)
    setGraph graph
    return some (.connected e)
  | .rename n dest cycle direction => do
    return (← rename n dest cycle direction).map .renamed
  | .removeDead n => do
    return (← removeDead n).map fun (removed, cycle) => .deadRemoved removed cycle

/-- Take a change back. -/
def revertChange : ChangeRecord → RegionM Unit
  | .assigned n => do
    -- The move may have been taken off its cycle since.
    if ← ask (·.isPlaced n) then unassign n
  | .unassigned n cycle => assign n cycle
  | .redirected redirection => do setGraph (← ask (·.undoRedirect redirection))
  | .edgesMerged edges => do setGraph (← ask (·.undoEdges edges))
  | .edgeRemoved e => do setGraph (← ask (·.restoreEdge e))
  | .connected (some e) => do setGraph (← ask (·.removeEdge e))
  | .connected none => return
  | .renamed undo => do
    let r ← get
    let some renamer := r.renamer | throw (.fault .noRenamer)
    let (renamer, graph) ← renamer.undo r.graph undo
    set { r with renamer := some renamer, graph }
  | .deadRemoved removed cycle => do
    setGraph (← ask (·.restoreMove removed))
    if let some c := cycle then assign removed.move c

/-- The changes of a region. -/
def reversal : Reversal RegionM Change ChangeRecord := ⟨applyChange, revertChange⟩

end RegionM

/-- Bypass `source` into `dest`: move the edges, then redirect `dest`. -/
def Step.merge (source dest : MoveId) (force : Bool) : Step Change :=
  .mk [] (.mergeEdges source dest force) [.single (.redirect source dest)]

end Transport
