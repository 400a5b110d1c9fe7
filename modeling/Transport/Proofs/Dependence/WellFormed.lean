import Transport.Proofs.Dependence.Tables
import Transport.Resource.Fit

/-!
# Well-formed graphs

`Formed` says that moves and operations of a graph refer to each other consistently. The events of
an operation are then read off its moves: `StartsAt`, `ReadsAt` and `WritesAt` are when it is
triggered, when a result of it is read and when one of its inputs is written.
-/

namespace Transport.Graph

/-- Moves and operations refer to each other. -/
structure Matched (machine : Machine) (g : Graph) : Prop where
  mem_inputs {o : OpId} {op : Operation} {n : MoveId} : g.op? o = some op →
    (n ∈ op.inputs ↔ ∃ m, g.move? n = some m ∧ m.dstOp = some o)
  mem_outputs {o : OpId} {op : Operation} {n : MoveId} : g.op? o = some op →
    (n ∈ op.outputs ↔ ∃ m, g.move? n = some m ∧ m.srcOp = some o ∧ m.live)
  dst_known {n : MoveId} {m : Move} {o : OpId} : g.move? n = some m → m.dstOp = some o →
    ∃ op, g.op? o = some op
  src_known {n : MoveId} {m : Move} {o : OpId} : g.move? n = some m → m.srcOp = some o →
    ∃ op, g.op? o = some op
  dst_input {n : MoveId} {m : Move} : g.move? n = some m → m.dstOp.isSome = m.dst.isInput
  src_output {n : MoveId} {m : Move} : g.move? n = some m → m.srcOp.isSome = m.src.isOutput
  units {o : OpId} {op : Operation} {v : UnitId} : g.op? o = some op → v ∈ op.units →
    v ∈ machine.unitsWith op.opcode
  outputs_nodup {o : OpId} {op : Operation} : g.op? o = some op → op.outputs.Nodup

/-- Moreover every operation has at most one trigger, and operands are never taken out. -/
structure Formed (machine : Machine) (g : Graph) : Prop extends Matched machine g where
  one_trigger {n n' : MoveId} {m m' : Move} {o : OpId} : g.move? n = some m →
    g.move? n' = some m' → m.dstOp = some o → m'.dstOp = some o → m.isTrigger → m'.isTrigger →
    n = n'
  op_valid {o : OpId} {op : Operation} : g.op? o = some op → o ≠ .invalid
  operand_live {n : MoveId} {m : Move} : g.move? n = some m → m.dstOp.isSome → m.live

/-- Move `n` triggers operation `o` in cycle `t`. -/
def StartsAt (g : Graph) (o : OpId) (n : MoveId) (t : Cycle) : Prop :=
  ∃ m, g.move? n = some m ∧ m.dstOp = some o ∧ m.isTrigger ∧ m.cycle? = some t

/-- Move `n` reads a result of `o` in cycle `r`. -/
def ReadsAt (g : Graph) (o : OpId) (n : MoveId) (r : Cycle) : Prop :=
  ∃ m, g.move? n = some m ∧ m.srcOp = some o ∧ m.cycle? = some r

/-- A move `n` that has not been taken out reads a result of `o` in cycle `r`. -/
def TakesAt (g : Graph) (o : OpId) (n : MoveId) (r : Cycle) : Prop :=
  ∃ m, g.move? n = some m ∧ m.live ∧ m.srcOp = some o ∧ m.cycle? = some r

/-- Move `n` writes input `k` for `o` in cycle `c`. -/
def WritesAt (g : Graph) (o : OpId) (n : MoveId) (k : Nat) (c : Cycle) : Prop :=
  ∃ m trigger, g.move? n = some m ∧ m.dstOp = some o ∧ m.dst = .input k trigger ∧ m.cycle? = some c

variable {g : Graph} {o : OpId} {n : MoveId}

theorem TakesAt.reads {r : Cycle} (h : g.TakesAt o n r) : g.ReadsAt o n r := by
  obtain ⟨m, hm, -, ho, hc⟩ := h
  exact ⟨m, hm, ho, hc⟩

end Transport.Graph

namespace Transport

theorem Move.isPlaced_of_cycle? {m : Move} {c : Cycle} (h : m.cycle? = some c) : m.isPlaced := by
  obtain ⟨p, hp, _⟩ := Option.map_eq_some_iff.1 h
  simp [Move.isPlaced, hp]

namespace Graph

variable {machine : Machine} {g : Graph} {o : OpId} {n : MoveId} {op : Operation} {t r : Cycle}

theorem Matched.trigger_of_find (hg : g.Matched machine) (ho : g.op? o = some op)
    (hf : op.inputs.find? (fun n => (g.move? n).any Move.isTrigger) = some n) :
    ∃ m, g.move? n = some m ∧ m.dstOp = some o ∧ m.isTrigger := by
  obtain ⟨m, hm, hd⟩ := (hg.mem_inputs ho).1 (List.mem_of_find?_eq_some hf)
  have ht := List.find?_some hf
  simp only [hm, Option.any_some] at ht
  exact ⟨m, hm, hd, ht⟩

/-- A lookup finds the only trigger there is. -/
theorem Matched.find_trigger (hg : g.Matched machine) (ho : g.op? o = some op) {m : Move}
    (hm : g.move? n = some m) (hd : m.dstOp = some o) (ht : m.isTrigger)
    (hone : ∀ n' m', g.move? n' = some m' → m'.dstOp = some o → m'.isTrigger → n' = n) :
    op.inputs.find? (fun n => (g.move? n).any Move.isTrigger) = some n := by
  have hmem : n ∈ op.inputs := (hg.mem_inputs ho).2 ⟨m, hm, hd⟩
  cases hf : op.inputs.find? (fun n => (g.move? n).any Move.isTrigger) with
  | none =>
    have := List.find?_eq_none.1 hf n hmem
    simp [hm, ht] at this
  | some n' =>
    obtain ⟨m', hm', hd', ht'⟩ := hg.trigger_of_find ho hf
    rw [hone n' m' hm' hd' ht']

namespace Formed

section

variable (hg : Formed machine g)
include hg

/-- The trigger that a lookup finds is the one that starts the operation. -/
theorem find_trigger (ho : g.op? o = some op) {m : Move}
    (hm : g.move? n = some m) (hd : m.dstOp = some o) (ht : m.isTrigger) :
    op.inputs.find? (fun n => (g.move? n).any Move.isTrigger) = some n :=
  hg.toMatched.find_trigger ho hm hd ht fun _ _ hm' hd' ht' => hg.one_trigger hm' hm hd' hd ht' ht

theorem startsAt_unique {n' : MoveId} {t' : Cycle}
    (h : g.StartsAt o n t) (h' : g.StartsAt o n' t') : n = n' ∧ t = t' := by
  obtain ⟨m, hm, hd, ht, hc⟩ := h
  obtain ⟨m', hm', hd', ht', hc'⟩ := h'
  obtain rfl := hg.one_trigger hm hm' hd hd' ht ht'
  rw [hm] at hm'
  cases hm'
  exact ⟨rfl, Option.some.inj (hc.symm.trans hc')⟩

/-- A lookup of the trigger's cycle that ends well finds when the operation starts. -/
theorem triggerCycle_eq {x : Option Cycle}
    (h : g.StartsAt o n t) (hx : Usage.triggerCycle g o = .ok x) : x = some t := by
  obtain ⟨m, hm, hd, ht, hc⟩ := h
  simp only [Usage.triggerCycle, Graph.trigger, bind_eq_ok, pure_eq_ok] at hx
  obtain ⟨_, ⟨op, hop, rfl⟩, hx⟩ := hx
  rw [hg.find_trigger (op?_of_op hop) hm hd ht] at hx
  have hx := of_move_bind (f := fun m => pure m.cycle?) hm hx
  rw [← pure_eq_ok.1 hx]
  exact hc

theorem mem_readCycles (ho : g.op? o = some op) : r ∈ Usage.readCycles g op ↔ ∃ n, g.TakesAt o n r := by
  simp only [Usage.readCycles, List.mem_filterMap]
  constructor
  · rintro ⟨n, hn, hr⟩
    obtain ⟨m, hm, hs, hl⟩ := (hg.mem_outputs ho).1 hn
    simp only [hm, Option.bind_some] at hr
    exact ⟨n, m, hm, hl, hs, hr⟩
  · rintro ⟨n, m, hm, hl, hs, hr⟩
    exact ⟨n, (hg.mem_outputs ho).2 ⟨m, hm, hs, hl⟩, by simp [hm, hr]⟩

/-- A trigger that reads a result is no move that has been taken out. -/
theorem takesAt_of_startsAt {o' : OpId} (h : g.ReadsAt o n r) (ht : g.StartsAt o' n t) : g.TakesAt o n r := by
  obtain ⟨m, hm, ho, hr⟩ := h
  obtain ⟨ho', -⟩ := of_some ht hm
  exact ⟨m, hm, hg.operand_live hm (by simp [ho']), ho, hr⟩

end

end Formed

end Graph

/-! ## Changes that keep a graph well-formed -/

/-- The part of a move that well-formedness is about. -/
structure Move.Shape where
  srcOp : Option OpId
  dstOp : Option OpId
  readsUnit : Bool
  writesUnit : Bool
  trigger : Bool
  live : Bool

def Move.shape (m : Move) : Shape :=
  ⟨m.srcOp, m.dstOp, m.src.isOutput, m.dst.isInput, m.isTrigger, m.live⟩

/-- The part of an operation that well-formedness is about. -/
structure Operation.Shape where
  opcode : String
  inputs : List MoveId
  outputs : List MoveId
  units : List UnitId

def Operation.shape (op : Operation) : Shape := ⟨op.opcode, op.inputs, op.outputs, op.units⟩

/-- The moves and operations of two graphs have the same shapes. -/
structure Graph.SameShapes (g g' : Graph) : Prop where
  moves (n : MoveId) : (g'.move? n).map Move.shape = (g.move? n).map Move.shape
  ops (o : OpId) : (g'.op? o).map Operation.shape = (g.op? o).map Operation.shape

namespace Graph

variable {machine : Machine} {g g' : Graph}

theorem SameShapes.refl : g.SameShapes g := ⟨fun _ => rfl, fun _ => rfl⟩

section

variable (h : g.SameShapes g')
include h

theorem SameShapes.symm : g'.SameShapes g :=
  ⟨fun n => (h.moves n).symm, fun o => (h.ops o).symm⟩

theorem SameShapes.trans {g'' : Graph} (h' : g'.SameShapes g'') : g.SameShapes g'' :=
  ⟨fun n => (h'.moves n).trans (h.moves n), fun o => (h'.ops o).trans (h.ops o)⟩

/-- What the shapes say of a move holds of it in both graphs or in neither. -/
theorem SameShapes.exists_move {n : MoveId} (P : Move.Shape → Prop) :
    (∃ m, g'.move? n = some m ∧ P m.shape) ↔ ∃ m, g.move? n = some m ∧ P m.shape := by
  constructor
  · rintro ⟨m', hm', hp⟩
    obtain ⟨m, hm, he⟩ := exists_of_map_eq (h.moves n) hm'
    exact ⟨m, hm, he ▸ hp⟩
  · rintro ⟨m, hm, hp⟩
    obtain ⟨m', hm', he⟩ := exists_of_map_eq (h.moves n).symm hm
    exact ⟨m', hm', he ▸ hp⟩

theorem SameShapes.exists_op {o : OpId} (hop : ∃ op, g.op? o = some op) : ∃ op, g'.op? o = some op := by
  obtain ⟨op, hop⟩ := hop
  obtain ⟨op', hop', -⟩ := exists_of_map_eq (h.ops o).symm hop
  exact ⟨op', hop'⟩

end

theorem Matched.congr (hg : g.Matched machine) (h : g.SameShapes g') : g'.Matched machine where
  mem_inputs := by
    intro o op' n ho
    obtain ⟨op, hop, he⟩ := exists_of_map_eq (h.ops o) ho
    obtain ⟨-, hin, -⟩ := Operation.Shape.mk.inj he
    rw [← hin, hg.mem_inputs hop]
    exact (h.exists_move (·.dstOp = some o)).symm
  mem_outputs := by
    intro o op' n ho
    obtain ⟨op, hop, he⟩ := exists_of_map_eq (h.ops o) ho
    obtain ⟨-, -, hout, -⟩ := Operation.Shape.mk.inj he
    rw [← hout, hg.mem_outputs hop]
    exact (h.exists_move fun s => s.srcOp = some o ∧ s.live).symm
  dst_known := by
    intro n m' o hm' hd
    obtain ⟨m, hm, hd⟩ := (h.exists_move (·.dstOp = some o)).1 ⟨m', hm', hd⟩
    exact h.exists_op (hg.dst_known hm hd)
  src_known := by
    intro n m' o hm' hs
    obtain ⟨m, hm, hs⟩ := (h.exists_move (·.srcOp = some o)).1 ⟨m', hm', hs⟩
    exact h.exists_op (hg.src_known hm hs)
  dst_input := by
    intro n m' hm'
    obtain ⟨m, hm, he⟩ := exists_of_map_eq (h.moves n) hm'
    obtain ⟨-, hdst, -, hin, -⟩ := Move.Shape.mk.inj he
    rw [← hdst, ← hin, hg.dst_input hm]
  src_output := by
    intro n m' hm'
    obtain ⟨m, hm, he⟩ := exists_of_map_eq (h.moves n) hm'
    obtain ⟨hsrc, -, hout, -⟩ := Move.Shape.mk.inj he
    rw [← hsrc, ← hout, hg.src_output hm]
  units := by
    intro o op' v ho hv
    obtain ⟨op, hop, he⟩ := exists_of_map_eq (h.ops o) ho
    obtain ⟨hcode, -, -, hunits⟩ := Operation.Shape.mk.inj he
    rw [← hcode]
    exact hg.units hop (hunits ▸ hv)
  outputs_nodup := by
    intro o op' ho
    obtain ⟨op, hop, he⟩ := exists_of_map_eq (h.ops o) ho
    obtain ⟨-, -, hout, -⟩ := Operation.Shape.mk.inj he
    exact hout ▸ hg.outputs_nodup hop

theorem Formed.congr (hg : g.Formed machine) (h : g.SameShapes g') : g'.Formed machine where
  toMatched := hg.toMatched.congr h
  one_trigger := by
    intro n1 n2 m1 m2 o h1 h2 hd1 hd2 ht1 ht2
    obtain ⟨k1, hk1, he1⟩ := exists_of_map_eq (h.moves n1) h1
    obtain ⟨k2, hk2, he2⟩ := exists_of_map_eq (h.moves n2) h2
    obtain ⟨-, hdst1, -, -, htr1, -⟩ := Move.Shape.mk.inj he1
    obtain ⟨-, hdst2, -, -, htr2, -⟩ := Move.Shape.mk.inj he2
    exact hg.one_trigger hk1 hk2 (hdst1.trans hd1) (hdst2.trans hd2) (htr1.trans ht1)
      (htr2.trans ht2)
  op_valid := by
    intro o op' ho
    obtain ⟨op, hop, -⟩ := exists_of_map_eq (h.ops o) ho
    exact hg.op_valid hop
  operand_live := by
    intro n m' hm' hd
    obtain ⟨m, hm, he⟩ := exists_of_map_eq (h.moves n) hm'
    obtain ⟨-, hdst, -, -, -, hlive⟩ := Move.Shape.mk.inj he
    exact hlive ▸ hg.operand_live hm (hdst ▸ hd)

end Graph

end Transport
