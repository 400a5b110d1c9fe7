import Transport.Dependence.Graph

/-!
# Extracting a block

The part of a graph that belongs to one block, as a graph of its own. Edges with one end outside
are kept as notes.
-/

namespace Transport.Graph

/-- The moves of a block, in order. -/
def blockMoves (g : Graph) (b : BlockId) : List MoveId :=
  g.moveIds.filter fun n => (g.move? n).any (·.block = b)

/-- The extracted moves of an operation and its other data, if the block has any of them. -/
def extractOp (g : Graph) (image : MoveId → Option MoveId) (o : Operation) : Checked Graph := do
  let inputs := o.inputs.filterMap image
  let outputs := o.outputs.filterMap image
  if inputs.isEmpty && outputs.isEmpty then return g
  let (g, id) := g.addOperation { o with inputs := [], outputs := [] }
  let g ← inputs.foldlM (·.addInput id) g
  outputs.foldlM (·.addOutput id) g

def extractLink (g : Graph) (image : MoveId → Option MoveId) (l : Link) : Checked Graph := do
  match image l.tail, image l.head with
  | some t, some h => return (← g.connect t h l.dep).1
  | some t, none => return { g with boundary := g.boundary ++ [⟨t, l.head, l.dep, false⟩] }
  | none, some h => return { g with boundary := g.boundary ++ [⟨h, l.tail, l.dep, true⟩] }
  | none, none => return g

/-- The graph of block `b` alone. -/
def subgraph (g : Graph) (b : BlockId) : Checked Graph := do
  let kept := g.blockMoves b
  let image (n : MoveId) : Option MoveId := (kept.idxOf? n).map Id.mk
  let copies := (kept.filterMap g.move?).map fun m =>
    { m with ins := [], outs := [], srcOp := none, dstOp := none }
  let sub : Graph := {
    moves := copies.toArray, parents := kept.toArray, forcedFiles := g.forcedFiles,
    guardLatencies := g.guardLatencies, liveOut := g.liveOut, liveIn := g.liveIn }
  let sub ← g.ops.toList.foldlM (fun s o => s.extractOp image o) sub
  (g.edgeIds.filterMap g.link?).foldlM (fun s l => s.extractLink image l) sub

end Transport.Graph
