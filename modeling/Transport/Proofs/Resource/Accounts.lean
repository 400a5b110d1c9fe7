import Transport.Check
import Transport.Proofs.Resource.Fit
import Transport.Resource.Placing

/-!
# Usages that account for a graph

The usage is a second record of what the placed moves of a graph take up. `Accounts` says that it
is complete: every placed move holds its bus and, as a trigger, its unit, and every operation is
bound as often as placed moves ask for it. `Undisturbed` is what the units promise in return, and
`Carried` what the buses do. `Sound` puts them together.
-/

namespace Transport

/-- How often a move ties operation `o` to its unit: not at all until it is placed, and twice if it
reads a result of `o` and writes an operand of it. -/
def Move.bonds (m : Move) (o : OpId) : Nat :=
  (if m.isPlaced && m.srcOp = some o then 1 else 0) +
    (if m.isPlaced && m.dstOp = some o then 1 else 0)

/-- How often placed moves tie operation `o` to its unit. -/
def Graph.bonds (g : Graph) (o : OpId) : Nat :=
  g.moves.toList.countP (fun m => m.isPlaced && m.srcOp = some o) +
    g.moves.toList.countP (fun m => m.isPlaced && m.dstOp = some o)

/-- How often the usage has bound operation `o`. -/
def Usage.bonds (u : Usage) (o : OpId) : Nat := ((u.bindings[o]?).map Prod.snd).getD 0

/-- Every placed move is entered in the usage. -/
structure Usage.Accounts (u : Usage) (g : Graph) : Prop where
  assigned {n : MoveId} {m : Move} {p : Placement} : g.move? n = some m → m.placement = some p →
    ∃ a, u.assignments[n]? = some a ∧ a.cycle = p.cycle ∧ a.bus = p.bus ∧
      a.srcUnit = m.srcOp.bind u.boundUnit ∧ a.dstUnit = m.dstOp.bind u.boundUnit
  carries {n : MoveId} {m : Move} {p : Placement} : g.move? n = some m → m.placement = some p →
    u.buses[(⟨p.cycle, p.bus⟩ : At BusId)]? = some n
  triggered {o : OpId} {n : MoveId} {t : Cycle} {v : UnitId} : g.StartsAt o n t →
    u.boundUnit o = some v → ⟨t, v⟩ ∈ u.triggers
  bonds (o : OpId) : u.bonds o = g.bonds o
  bonds_pos {o : OpId} {v : UnitId} {k : Nat} : u.bindings[o]? = some (v, k) → 0 < k
  unit {o : OpId} {op : Operation} : g.op? o = some op → op.unit? = u.boundUnit o
  unit_mem {o : OpId} {op : Operation} {v : UnitId} : g.op? o = some op →
    u.boundUnit o = some v → v ∈ op.units

/-- Operation `o` is bound to unit `v`. -/
def Graph.RunsOn (g : Graph) (o : OpId) (v : UnitId) : Prop := g.boundUnit (some o) = some v

/-- Two operations on one unit start in different cycles, and neither replaces what the other still
needs. A result that is carried straight into one of the two triggers is left out: nothing holds
it back. So are the moves in `X`. -/
structure Graph.Undisturbed (g : Graph) (X : MoveId → Prop) : Prop where
  starts {o o' : OpId} {v : UnitId} {n n' : MoveId} {t t' : Cycle} : o ≠ o' → g.RunsOn o v →
    g.RunsOn o' v → g.StartsAt o n t → g.StartsAt o' n' t' → t ≠ t'
  operands {o o' : OpId} {v : UnitId} {n w w' : MoveId} {k : Nat} {t c c' : Cycle} : o ≠ o' →
    g.RunsOn o v → g.RunsOn o' v → g.StartsAt o n t → g.WritesAt o w k c → g.WritesAt o' w' k c' →
    c < c' → t < c'
  results {o o' : OpId} {v : UnitId} {op' : Operation} {n n' w : MoveId} {t t' r : Cycle} : o ≠ o' →
    g.RunsOn o v → g.RunsOn o' v → g.op? o' = some op' → g.StartsAt o n t → g.StartsAt o' n' t' →
    t < t' → g.TakesAt o w r → ¬ X w → w ≠ n → w ≠ n' → Usage.ArrivesAfter op' t' r

/-- Every placed move travels on a bus that joins its ports and has room for its immediate. -/
def Graph.Carried (machine : Machine) (g : Graph) : Prop :=
  ∀ n m p, g.move? n = some m → m.placement = some p →
    ∃ bus, machine.buses[p.bus.val]? = some bus ∧
      (∀ q, g.writePort? m = some q → bus.attaches q) ∧
      (∀ q, g.readPort? m = some q → bus.attaches q) ∧
      ∀ x, m.src = .immediate x → machine.longImmediates = 0 → immediateWidth x ≤ bus.immediateWidth

/-- The usage and the graph tell the same story, and the units and buses keep their promises, except
those to the moves in `X`. -/
structure SoundBut (X : MoveId → Prop) (machine : Machine) (u : Usage) (g : Graph) : Prop where
  formed : g.Formed machine
  accounts : u.Accounts g
  undisturbed : g.Undisturbed X
  carried : g.Carried machine

abbrev Sound (machine : Machine) (u : Usage) (g : Graph) : Prop := SoundBut (fun _ => False) machine u g

/-! ## Counting placed moves -/

theorem countP_modify {α : Type} {p : α → Bool} {f : α → α} {xs : List α} {i : Nat} {x : α}
    (h : xs[i]? = some x) :
    (xs.modify i f).countP p + (if p x then 1 else 0) =
      xs.countP p + (if p (f x) then 1 else 0) := by
  induction xs generalizing i with
  | nil => simp at h
  | cons y ys ih =>
    cases i with
    | zero =>
      simp only [List.getElem?_cons_zero, Option.some.injEq] at h
      subst h
      simp only [List.modify_zero_cons, List.countP_cons]
      omega
    | succ i =>
      simp only [List.getElem?_cons_succ] at h
      have := ih h
      simp only [List.modify_succ_cons, List.countP_cons]
      omega

namespace Graph

variable {g : Graph} {n : MoveId} {m : Move} {o : OpId}

theorem bonds_modifyMove {f : Move → Move} (hm : g.move? n = some m) :
    (g.modifyMove n f).bonds o + m.bonds o = g.bonds o + (f m).bonds o := by
  have hx : g.moves.toList[n.val]? = some m := by rw [Array.getElem?_toList]; exact hm
  have hs := countP_modify (p := fun m : Move => m.isPlaced && m.srcOp = some o) (f := f) hx
  have hd := countP_modify (p := fun m : Move => m.isPlaced && m.dstOp = some o) (f := f) hx
  simp only [bonds, modifyMove, Array.toList_modify, Move.bonds]
  omega

theorem bonds_pos_of_placed (hm : g.move? n = some m) (hp : m.isPlaced)
    (ho : m.srcOp = some o ∨ m.dstOp = some o) : 0 < g.bonds o := by
  have hmem : m ∈ g.moves.toList := Array.mem_toList_iff.2 (Array.mem_of_getElem? hm)
  refine Nat.add_pos_iff_pos_or_pos.2 (ho.imp (fun ho => ?_) fun ho => ?_)
  · exact List.countP_pos_iff.2 ⟨m, hmem, by simp [hp, ho]⟩
  · exact List.countP_pos_iff.2 ⟨m, hmem, by simp [hp, ho]⟩

end Graph

namespace Usage.Accounts

variable {u : Usage} {g : Graph} {n : MoveId} {m : Move} {o : OpId}

theorem bound_of_pos (h : u.Accounts g) (hb : 0 < g.bonds o) : ∃ v, u.boundUnit o = some v := by
  rw [← h.bonds] at hb
  unfold Usage.bonds at hb
  unfold boundUnit
  cases hx : u.bindings[o]? with
  | none => simp [hx] at hb
  | some x => exact ⟨x.1, rfl⟩

/-- The operations of a placed move are bound. -/
theorem bound_of_placed (h : u.Accounts g) (hm : g.move? n = some m) (hp : m.isPlaced)
    (ho : m.srcOp = some o ∨ m.dstOp = some o) : ∃ v, u.boundUnit o = some v :=
  h.bound_of_pos (Graph.bonds_pos_of_placed hm hp ho)

theorem runsOn_iff (h : u.Accounts g) {op : Operation} (hop : g.op? o = some op) {v : UnitId} :
    g.RunsOn o v ↔ u.boundUnit o = some v := by
  simp only [Graph.RunsOn, Graph.boundUnit, Option.bind_some, hop, h.unit hop]

end Usage.Accounts

end Transport
