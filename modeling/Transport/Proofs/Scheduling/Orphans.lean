import Transport.Proofs.Resource.FitFaults
import Transport.Scheduling.Block

/-!
# Failures that are not about orphans

Of all checked computations only the last sweep of the selector can fail because of an orphan: every other
one is calm.
-/

namespace Transport

variable {p : Cycle → Checked Bool}

/-- The computation does not fail because of an orphan. -/
abbrev Calm {α : Type} (x : Checked α) : Prop := Avoids (fun f => ∃ n, f = .orphan n) x

@[simp] theorem calm_index {k : Kind} {i : Id k} : Calm i.index := avoids_index (by simp)

@[simp] theorem calm_fetch {k : Kind} {α : Type} {xs : Array α} {i : Id k} : Calm (i.fetch xs) :=
  avoids_fetch (by simp) (by simp)

namespace Cycle

@[simp] theorem calm_check {c : Cycle} : Calm (Cycle.check c) := by unfold Cycle.check; simp

@[simp] theorem calm_add {a b : Cycle} : Calm (Cycle.add a b) := by simp [Cycle.add]

@[simp] theorem calm_sub {a b : Cycle} : Calm (Cycle.sub a b) := by simp [Cycle.sub]

end Cycle

@[simp] theorem calm_addWord {a b : Nat} : Calm (addWord a b) := by simp [addWord, addBelow]

theorem calm_searchUp (hp : ∀ c, Calm (p c)) (k : Nat) (c : Cycle) : Calm (searchUp p k c) := by
  induction k generalizing c with
  | zero => exact avoids_pure none
  | succ k ih => simp [searchUp, hp, ih]

theorem calm_searchDown (hp : ∀ c, Calm (p c)) (k : Nat) : Calm (searchDown p k) := by
  induction k with
  | zero => exact avoids_pure none
  | succ k ih => simp [searchDown, hp, ih]

namespace Graph

variable {g : Graph} {n : MoveId}

@[simp] theorem calm_move : Calm (g.move n) := calm_fetch

@[simp] theorem calm_op {o : OpId} : Calm (g.op o) := calm_fetch

@[simp] theorem calm_isPlaced : Calm (g.isPlaced n) := by simp [isPlaced]

@[simp] theorem calm_isPending : Calm (g.isPending n) := by simp [isPending]

@[simp] theorem calm_isSettled : Calm (g.isSettled n) := by simp [isSettled]

@[simp] theorem calm_guardLatency {r : Reg} : Calm (g.guardLatency r) := by simp [guardLatency]

@[simp] theorem calm_guardDelay {d : Dependence} : Calm (g.guardDelay d) := by
  unfold guardDelay; split <;> simp

@[simp] theorem calm_linkLatency {l : Link} : Calm (g.linkLatency l) := by
  unfold linkLatency; split <;> simp

@[simp] theorem calm_earliestOver {b : Bool} : Calm (g.earliestOver b n) := by
  refine avoids_bind calm_move fun m => avoids_foldlM fun c x => ?_
  dsimp only
  split <;> simp

@[simp] theorem calm_latestOver {b : Bool} : Calm (g.latestOver b n) := by
  refine avoids_bind calm_move fun m => avoids_foldlM fun c x => ?_
  dsimp only
  split <;> simp

@[simp] theorem calm_earliest : Calm (g.earliest n) := calm_earliestOver

@[simp] theorem calm_latest : Calm (g.latest n) := calm_latestOver

@[simp] theorem calm_setPlacement {p : Option Placement} : Calm (g.setPlacement n p) := by simp [setPlacement]

@[simp] theorem calm_predecessors : Calm (g.predecessors n) := by simp [predecessors]

@[simp] theorem calm_successors : Calm (g.successors n) := by simp [successors]

@[simp] theorem calm_longestStep {way : Way} {d : Array Nat} : Calm (g.longestStep way d n) := by
  refine avoids_foldlM fun b x => ?_
  dsimp only
  simp

@[simp] theorem calm_distance {way : Way} : Calm (g.distance way n) := by
  have hkept : Calm (g.keptDistance way n) := by
    unfold keptDistance
    split <;> simp
  refine avoids_bind hkept fun d => ?_
  split
  · exact avoids_pure _
  · exact avoids_bind (avoids_foldlM fun b a => by simp) fun _ => avoids_bind calm_fetch fun _ => avoids_pure _

end Graph

namespace Usage

variable {u : Usage} {machine : Machine} {g : Graph} {n : MoveId} {c : Cycle}
  {op : Option OpId} {v : Option UnitId}

@[simp] theorem calm_fit : Calm (u.fit machine g c n) := by
  have hasks : u.Asks (fun f => ∃ n, f = .orphan n) g fun _ => True := ⟨fun _ => Graph.calm_op,
    fun _ => Graph.calm_move, fun _ => trivial, fun _ _ => Cycle.calm_add, fun _ _ => Cycle.calm_sub⟩
  refine hasks.avoids_fit Graph.calm_move (fun m _ => ?_) fun _ _ => Cycle.calm_add
  refine ⟨fun _ => trivial, fun _ => trivial, ?_, fun _ _ => ?_, fun _ => calm_fetch⟩
  · unfold sourcePort
    split <;> simp
  · unfold destPort
    split <;> simp

@[simp] theorem calm_fits : Calm (u.fits machine g n c) := by simp [fits]

@[simp] theorem calm_earliestFit : Calm (u.earliestFit machine g c n) := by
  refine avoids_bind Cycle.calm_add fun _ => calm_searchUp (fun _ => calm_fits) _ _

@[simp] theorem calm_latestFit : Calm (u.latestFit machine g c n) := calm_searchDown (fun _ => calm_fits) _

@[simp] theorem calm_tie : Calm (u.bind g op v) := by
  unfold Usage.bind
  split <;> simp

@[simp] theorem calm_unbind : Calm (u.unbind g op v) := by
  unfold Usage.unbind
  split <;> simp

@[simp] theorem calm_assign : Calm (u.assign machine g c n) := by
  refine avoids_bind Graph.calm_isPlaced fun b => avoids_ite_iff.2 ⟨by simp, fun _ => ?_⟩
  refine avoids_bind calm_fit fun a => ?_
  dsimp only
  split <;> simp

@[simp] theorem calm_unassign : Calm (u.unassign g n) := by
  unfold Usage.unassign
  cases u.assignments[n]? <;> simp

end Usage

namespace Group

variable {g : Graph} {ns : List MoveId}

@[simp] theorem calm_pending : Calm (Group.pending ns g) := by simp [Group.pending]

@[simp] theorem calm_isOperation : Calm (Group.isOperation ns g) := by
  simp [Group.isOperation]

@[simp] theorem calm_orderedUnits {ns : Group} {way : Direction} : Calm (ns.orderedUnits g way) := by
  refine avoids_bind (avoids_bind (avoids_foldlM fun _ _ => by simp) fun _ => avoids_pure _) fun us => ?_
  dsimp only
  split <;> simp

end Group

end Transport
