import Transport.Dependence.Surgery

/-!
# Edges after a renaming

When a move reads or writes another register than before, the edges that existed only because of
the old register go, and the edges that remain are tagged with the new one.
-/

namespace Transport.Graph

/-- Tag edge `e` with register `r` and note what it carried before. -/
def retagEdge (g : Graph) (u : EdgeRecord) (e : EdgeId) (r : Reg) : Graph × EdgeRecord :=
  match g.link? e with
  | some l =>
    if l.dep.reg? = some r then (g, u) else
    (g.modifyLink e fun l => { l with dep := { l.dep with reg? := some r } },
      { u with changed := u.changed ++ [(e, l.dep.reg?)] })
  | none => (g, u)

/-- Cut an edge if its register is gone, tag it with `r` otherwise. -/
def cutOrRetag (g : Graph) (u : EdgeRecord) (e : EdgeId) (r : Reg) (gone : Bool) :
    Checked (Graph × EdgeRecord) :=
  if gone then g.cutEdge u e else pure (g.retagEdge u e r)

/-- Does the move write a register other than `r`? -/
def writesOther (g : Graph) (n : MoveId) (r : Reg) : Bool :=
  ((g.move? n).bind fun m => m.dst.reg?).any (· ≠ r)

/-- The anti dependences out of `n` once it reads `r`, as a source or as a guard. -/
def retagReads (g : Graph) (n : MoveId) (r : Reg) (guardUse : Bool) :
    Checked (Graph × EdgeRecord) :=
  let anti := (g.leaving n).filter fun (_, l) => l.dep.reason = .register && l.dep.hazard = .war &&
    !l.dep.tailPseudo && l.dep.guardUse = guardUse
  anti.foldlM (fun (g, u) (e, l) =>
    g.cutOrRetag u e r (l.dep.headPseudo || g.writesOther l.head r)) (g, {})

/-- Repair the edges of `n` after its source register was renamed. -/
def retagSource (g : Graph) (n : MoveId) : Checked (Graph × EdgeRecord) := do
  match (← g.move n).src.reg? with
  | some r => g.retagReads n r false
  | none => return (g, {})

/-- Repair the edges of `n` after its guard register was renamed. -/
def retagGuard (g : Graph) (n : MoveId) : Checked (Graph × EdgeRecord) := do
  match (← g.move n).guard with
  | some guard => g.retagReads n guard.reg true
  | none => throw (.guardOfUnconditional n)

/-! ## Destinations -/

def isStorage : Reason → Bool
  | .register | .returnAddress => true
  | _ => false

/-- The order between a predecessor and a successor of a write that the write imposes: WAW after
WAW is WAW and WAW after WAR is WAR. -/
def bridge (g : Graph) (inc out : Link) : Checked (Option Dependence) := do
  unless isStorage inc.dep.reason && inc.dep.reg? = out.dep.reg? do return none
  let copied ← match inc.dep.hazard with
    | .waw => do pure !(← g.excluding inc.tail out.head)
    | .war => do pure (!(← g.excluding inc.tail out.head) || inc.dep.guardUse)
    | _ => pure false
  if !copied || inc.tail = out.head then return none
  let loopDepth ← addByte inc.dep.loopDepth out.dep.loopDepth
  return some { inc.dep with headPseudo := out.dep.headPseudo, loopDepth }

/-- Give two neighbours of a write the order it imposes on them. -/
def growBridge (s : Graph × EdgeRecord) (inc out : Link) : Checked (Graph × EdgeRecord) := do
  match ← s.1.bridge inc out with
  | some dep => s.1.growEdge s.2 inc.tail out.head dep
  | none => return s

/-- Give all neighbours of `n` the order it imposes on them, before it stops doing so. -/
def bridgeOver (g : Graph) (n : MoveId) : Checked (Graph × EdgeRecord) :=
  let ins := g.entering n
  let outs := (g.leaving n).filter fun (_, l) => isStorage l.dep.reason && l.dep.hazard = .waw
  outs.foldlM (fun s (_, out) => ins.foldlM (fun s (_, inc) => growBridge s inc out) s) (g, {})

/-- Is the order that an edge into `n` stands for gone, now that `n` writes `r`? Edges that say
nothing about the register of `n` are left alone. -/
def entryGone? (g : Graph) (l : Link) (r : Reg) : Option Bool := do
  if l.dep.reason ≠ .register || l.dep.headPseudo then none
  let tail ← g.move? l.tail
  match l.dep.hazard with
  | .waw => some (l.dep.tailPseudo || tail.dst.reg?.any (· ≠ r))
  | .war =>
    if l.dep.tailPseudo then none
    else if l.dep.guardUse then some (tail.guard.all (·.reg ≠ r))
    else some (tail.src.reg?.any (· ≠ r))
  | _ => none

/-- The same for an edge out of `n`. -/
def exitGone? (g : Graph) (l : Link) (r : Reg) : Option Bool :=
  if l.dep.reason ≠ .register || l.dep.tailPseudo then none else
  match l.dep.hazard with
  | .raw => some false
  | .waw => some (l.dep.headPseudo || g.writesOther l.head r)
  | _ => none

/-- Repair the edges of `n` after its destination register was renamed to one that is not live
across it. The reads of its value are taken to be renamed as well. -/
def retagDest (g : Graph) (n : MoveId) : Checked (Graph × EdgeRecord) := do
  match (← g.move n).dst.reg? with
  | none => return (g, {})
  | some r =>
    let s ← g.bridgeOver n
    let s ← (s.1.entering n).foldlM (fun (g, u) (e, l) =>
      match g.entryGone? l r with
      | some gone => g.cutOrRetag u e r gone
      | none => pure (g, u)) s
    (s.1.leaving n).foldlM (fun (g, u) (e, l) =>
      match g.exitGone? l r with
      | some gone => g.cutOrRetag u e r gone
      | none => pure (g, u)) s

end Transport.Graph
