import Transport.Dependence.Reach

/-!
# Bypasses and dead results

A bypass of `source` into `dest` makes `dest` read what `source` reads instead of the register in
between, and `dest` takes over the dependences of that read. Once nobody reads the register any
more `source` can be taken out. Each change returns a record; replaying the records in reverse
order restores the graph.
-/

namespace Transport

/-- Which edges a change removed, added and retagged. -/
structure EdgeRecord where
  removed : List EdgeId := []
  added : List EdgeId := []
  /-- Edges with the register they carried before. -/
  changed : List (EdgeId × Option Reg) := []
deriving DecidableEq

def EdgeRecord.isEmpty (u : EdgeRecord) : Bool :=
  u.removed.isEmpty && u.added.isEmpty && u.changed.isEmpty

/-- What a move read before it was redirected. -/
structure Redirection where
  move : MoveId
  src : Terminal
  srcOp : Option OpId
  srcUnits : List UnitId
  /-- The operation that got the move as a new output. -/
  linkedOp : Option OpId
deriving DecidableEq

structure MergeRecord where
  edges : EdgeRecord
  redirection : Redirection
deriving DecidableEq

/-- A move taken out of the graph. -/
structure RemovedMove where
  move : MoveId
  edges : List EdgeId
  /-- Its place among the outputs of its operation. -/
  slot : Option (OpId × Nat)
deriving DecidableEq

namespace Graph

/-- Remove an edge and note it. -/
def cutEdge (g : Graph) (u : EdgeRecord) (e : EdgeId) : Checked (Graph × EdgeRecord) := do
  return (← g.removeEdge e, { u with removed := u.removed ++ [e] })

/-- Add an edge unless an equal one is there, and note it. -/
def growEdge (g : Graph) (u : EdgeRecord) (tail head : MoveId) (dep : Dependence) :
    Checked (Graph × EdgeRecord) := do
  let (g, e) ← g.ensureEdge tail head dep
  return (g, { u with added := u.added ++ e.toList })

/-- Give an edge back the register it carried. -/
def restoreTag (g : Graph) (c : EdgeId × Option Reg) : Checked Graph := do
  let _ ← g.link c.1
  return g.modifyLink c.1 fun l => { l with dep := { l.dep with reg? := c.2 } }

/-- Replay a record of edges. -/
def undoEdges (g : Graph) (u : EdgeRecord) : Checked Graph := do
  let g ← u.added.reverse.foldlM removeEdge g
  let g ← u.changed.reverse.foldlM restoreTag g
  u.removed.reverse.foldlM restoreEdge g

/-! ## Bypasses -/

/-- The edges through which `dest` reads as its source the register `r` that `source` writes. -/
def bypassedEdges (g : Graph) (source dest : MoveId) (r : Reg) :
    Checked (List (EdgeId × Link)) := do
  return (← g.connecting source dest).filter fun (_, l) => l.dep.carries .raw r && !l.dep.guardUse

/-- Does `dest` read the value of `source` from an earlier iteration? -/
def mergesAcrossLoop (g : Graph) (source dest : MoveId) : Checked Bool := do
  return (← g.connecting source dest).any fun (_, l) => l.dep.isRaw && l.dep.isBack

/-- The writes that must follow the register read of a move: the heads of its edges that carry
`read` as an anti dependence. -/
def overwrites (read : Reg) (es : List (EdgeId × Link)) : List (EdgeId × Link) :=
  es.filter fun (_, l) => l.dep.carries .war read && !l.dep.tailPseudo

/-- Would a bypass cross two loop iterations at once? -/
def crossesTwice (g : Graph) (source : Move) (raw : List (EdgeId × Link)) : Bool :=
  (raw.any fun (_, l) => l.dep.isBack) &&
    (g.entries source.ins).any fun (_, l) => l.dep.isBack && !l.dep.isPseudo

/-- Does a copy read a register with more than one reaching definition? -/
def readsAmbiguously (g : Graph) (source : Move) : Bool :=
  source.src.isRegister &&
    1 < (g.entries source.ins).countP fun (_, l) => l.dep.isRaw && !l.dep.guardUse

/-- May `dest` be bypassed from `source`? With `force`, also if it does not read its register. -/
def canMerge (g : Graph) (source dest : MoveId) (force : Bool) : Checked Bool := do
  if source = dest then return false
  let s ← g.move source
  unless s.live do return false
  let d ← g.move dest
  unless d.live do return false
  let some r := s.dst.reg? | return false
  let raw ← g.bypassedEdges source dest r
  if 1 < raw.length || raw.isEmpty && !force then return false
  if g.crossesTwice s raw || g.readsAmbiguously s then return false
  let some read := s.src.reg? | return true
  -- The anti dependences moved onto `dest` must not close a cycle.
  let closes ← (overwrites read (g.entries s.outs)).anyM fun (_, l) => do
    if l.head = dest || (← g.excluding dest l.head) then return false
    g.hasPath l.head dest
  return !closes

/-- `dest` takes over the dependences of the read of `source`. -/
def inheritIns (g : Graph) (u : EdgeRecord) (source dest : MoveId) (r : Reg) :
    Checked (Graph × EdgeRecord) :=
  let kept := (g.entering source).filter fun (_, l) =>
    !(l.dep.guardUse || l.tail = dest || l.dep.carries .war r || l.dep.carries .waw r)
  kept.foldlM (fun (g, u) (_, l) => g.growEdge u l.tail dest l.dep) (g, u)

/-- `dest` now reads `read`, so the writes that follow the read of `source` follow it too. -/
def inheritOverwrites (g : Graph) (u : EdgeRecord) (source dest : MoveId) (read : Reg) :
    Checked (Graph × EdgeRecord) :=
  (overwrites read (g.leaving source)).foldlM (fun (g, u) (_, l) => do
    if l.head = dest || (← g.excluding dest l.head) then return (g, u)
    g.growEdge u dest l.head l.dep) (g, u)

/-- `dest` reads `r` no more, so later writes of `r` need not wait for it. -/
def dropOverwrites (g : Graph) (u : EdgeRecord) (dest : MoveId) (r : Reg) :
    Checked (Graph × EdgeRecord) :=
  let stale := (g.leaving dest).filter fun (_, l) => l.dep.carries .war r && !l.dep.guardUse
  stale.foldlM (fun (g, u) (e, _) => g.cutEdge u e) (g, u)

/-- Move the edges of a bypass. Nothing changes if the bypass is not allowed. -/
def mergeEdges (g : Graph) (source dest : MoveId) (force : Bool) :
    Checked (Option (Graph × EdgeRecord)) := do
  unless ← g.canMerge source dest force do return none
  let s ← g.move source
  let some r := s.dst.reg? | return none
  let (g, u) ← (← g.bypassedEdges source dest r).foldlM (fun (g, u) (e, _) => g.cutEdge u e)
    (g, ({} : EdgeRecord))
  let (g, u) ← g.inheritIns u source dest r
  let (g, u) ← match s.src.reg? with
    | some read => g.inheritOverwrites u source dest read
    | none => pure (g, u)
  if s.src.reg? = some r then return some (g, u)
  return some (← g.dropOverwrites u dest r)

/-- The units a move that reads what `s` reads is bound to. -/
def sourceUnits (g : Graph) (s : Move) : Checked (List UnitId) := do
  let some o := s.srcOp | return s.srcUnits
  let op ← g.op o
  return if op.units.length = 1 && s.srcUnits.isEmpty then op.units else s.srcUnits

/-- Make `dest` read what `source` reads, as an output of the same operation. -/
def redirect (g : Graph) (source dest : MoveId) : Checked (Graph × Redirection) := do
  let s ← g.move source
  let d ← g.move dest
  let redirection : Redirection :=
    { move := dest, src := d.src, srcOp := d.srcOp, srcUnits := d.srcUnits, linkedOp := s.srcOp }
  let units ← g.sourceUnits s
  let g := g.modifyMove dest fun d => { d with src := s.src, srcOp := s.srcOp, srcUnits := units }
  let g := match s.srcOp with
    | some o => g.modifyOp o fun op => { op with outputs := op.outputs ++ [dest] }
    | none => g
  return (g.forgetDistances, redirection)

/-- The list without the last occurrence of `x`, if it has one. -/
def eraseLast {α : Type} [DecidableEq α] (x : α) (xs : List α) : Option (List α) :=
  if x ∈ xs then some (xs.reverse.erase x).reverse else none

def undoRedirect (g : Graph) (r : Redirection) : Checked Graph := do
  let g ← match r.linkedOp with
    | some o => do
      let some outputs := eraseLast r.move (← g.op o).outputs | throw (.notLinked r.move o)
      pure (g.modifyOp o fun op => { op with outputs })
    | none => pure g
  let _ ← g.move r.move
  return (g.modifyMove r.move fun m =>
    { m with src := r.src, srcOp := r.srcOp, srcUnits := r.srcUnits }).forgetDistances

/-- Bypass `source` into `dest`. Nothing changes if the bypass is not allowed. -/
def merge (g : Graph) (source dest : MoveId) (force : Bool) :
    Checked (Option (Graph × MergeRecord)) := do
  let some (g, edges) ← g.mergeEdges source dest force | return none
  let (g, redirection) ← g.redirect source dest
  return some (g, { edges, redirection })

def undoMerge (g : Graph) (u : MergeRecord) : Checked Graph := do
  (← g.undoRedirect u.redirection).undoEdges u.edges

/-! ## Dead results -/

/-- Does an edge out of a write show that its value is needed? -/
def showsUse (l : Link) : Bool :=
  match l.dep.reason with
  | .register => l.dep.hazard = .raw
  | .operation => false
  | _ => true

/-- Does an edge out of a write show that its value is overwritten for certain? -/
def showsKill (g : Graph) (l : Link) : Bool :=
  l.dep.reason = .register && l.dep.hazard = .waw && !l.dep.isBack &&
    (g.move? l.head).any Move.isUnguarded

/-- Is the value `n` writes still needed? A register value is not if nobody reads it and it is
overwritten for certain or not live out. -/
def resultNeeded (g : Graph) (n : MoveId) : Checked Bool := do
  let m ← g.move n
  let some r := m.dst.reg? | return true
  let outs := g.entries m.outs
  return (outs.any fun (_, l) => showsUse l) ||
    !(outs.any fun (_, l) => g.showsKill l) && g.isLiveOut r

/-- The place of `n` among the outputs of the operation it reads from. -/
def outputSlot (g : Graph) (m : Move) (n : MoveId) : Checked (Option (OpId × Nat)) := do
  let some o := m.srcOp | return none
  return ((← g.op o).outputs.idxOf? n).map fun pos => (o, pos)

/-- Take a move that has no place out of the graph. -/
def removeMove (g : Graph) (n : MoveId) : Checked (Graph × RemovedMove) := do
  let m ← g.move n
  if m.isPlaced then throw (.removesPlaced n)
  let edges := m.ins ++ m.outs
  let g ← edges.foldlM removeEdge g
  let slot ← g.outputSlot m n
  let g := match slot with
    | some (o, pos) => g.modifyOp o fun op => { op with outputs := op.outputs.eraseIdx pos }
    | none => g
  let g := g.modifyMove n fun m => { m with live := false }
  return (g.forgetDistances, { move := n, edges, slot })

def restoreMove (g : Graph) (r : RemovedMove) : Checked Graph := do
  if ← g.isLive r.move then throw (.restoresLiveMove r.move)
  let g := g.modifyMove r.move fun m => { m with live := true }
  let g ← match r.slot with
    | some (o, pos) => do
      if (← g.op o).outputs.length < pos then throw .outOfRange
      pure (g.modifyOp o fun op => { op with outputs := op.outputs.insertIdx pos r.move })
    | none => pure g
  r.edges.reverse.foldlM restoreEdge g

end Graph

end Transport
