import Transport.Proofs.Resource.Accounts

/-!
# Binding operations to units

Placing a move binds its operations, taking it off its cycle takes the bindings back. Either way
only the table of bindings changes, and the units noted in the graph follow it. `Shift` describes
the whole step: one move gets or loses its place.
-/

namespace Transport

open Transport.Graph

variable {machine : Machine} {u u' : Usage} {g g' : Graph} {o : OpId} {v : UnitId} {n : MoveId}
  {m : Move}

section

variable {κ ν : Type} [Ord κ] [Std.TransOrd κ] {k : κ}

/-- Every entry counts something for its owner. -/
def Owned (t : Std.ExtTreeMap κ (ν × Nat)) : Prop := ∀ (k : κ) (v : ν) (c : Nat), t[k]? = some (v, c) → 0 < c

variable {t : Std.ExtTreeMap κ (ν × Nat)} {v : ν}

theorem Owned.insert (h : Owned t) {c : Nat} (hc : 0 < c) : Owned (t.insert k (v, c)) := by
  intro x w d hx
  rw [Std.ExtTreeMap.getElem?_insert] at hx
  split at hx
  · cases hx
    exact hc
  · exact h x w d hx

theorem Owned.erase (h : Owned t) : Owned (t.erase k) := by
  intro x w d hx
  rw [Std.ExtTreeMap.getElem?_erase] at hx
  split at hx
  · cases hx
  · exact h x w d hx

theorem Owned.ownUp (h : Owned t) : Owned (ownUp t k v) := by
  unfold Transport.ownUp
  split
  · exact h.insert (Nat.succ_pos _)
  · exact h.insert Nat.one_pos

theorem Owned.ownDown (h : Owned t) : Owned (ownDown t k) := by
  unfold Transport.ownDown
  split
  · split
    · exact h.erase
    · exact h.insert (by omega)
  · exact h

end

namespace Usage

variable {o' : OpId} {op : Option OpId} {unit : Option UnitId}

/-- The bindings of `u'` replace those of `u`, and the graph notes them. -/
structure Rebinds (u : Usage) (g : Graph) (u' : Usage) (g' : Graph) : Prop where
  usage : ∃ bindings, u' = { u with bindings }
  graph : ∃ ops, g' = { g with ops }
  op? (o : OpId) : g'.op? o = (g.op? o).map fun op => { op with unit? := u'.boundUnit o }

theorem Rebinds.refl (h : ∀ o op, g.op? o = some op → op.unit? = u.boundUnit o) :
    u.Rebinds g u g where
  usage := ⟨u.bindings, rfl⟩
  graph := ⟨g.ops, rfl⟩
  op? o := by
    cases ho : g.op? o with
    | none => rfl
    | some op => simp only [Option.map_some, ← h o op ho]

theorem Rebinds.trans {u'' : Usage} {g'' : Graph} (h : u.Rebinds g u' g')
    (h' : u'.Rebinds g' u'' g'') : u.Rebinds g u'' g'' where
  usage := by
    obtain ⟨b, rfl⟩ := h.usage; obtain ⟨b', rfl⟩ := h'.usage
    exact ⟨b', rfl⟩
  graph := by
    obtain ⟨ops, rfl⟩ := h.graph; obtain ⟨ops', rfl⟩ := h'.graph
    exact ⟨ops', rfl⟩
  op? o := by rw [h'.op?, h.op?, Option.map_map]; rfl

theorem Rebinds.unit? (h : u.Rebinds g u' g') {op : Operation} (ho : g'.op? o = some op) :
    op.unit? = u'.boundUnit o := by
  rw [h.op?] at ho
  obtain ⟨op, _, rfl⟩ := Option.map_eq_some_iff.1 ho
  rfl

theorem Rebinds.of_modifyOp {bindings : Std.ExtTreeMap OpId (UnitId × Nat)} {x : Option UnitId}
    (hu : ∀ o op, g.op? o = some op → op.unit? = u.boundUnit o)
    (hx : Usage.boundUnit { u with bindings } o = x)
    (hother : ∀ o', o' ≠ o → Usage.boundUnit { u with bindings } o' = u.boundUnit o') :
    u.Rebinds g { u with bindings } (g.modifyOp o fun op => { op with unit? := x }) where
  usage := ⟨bindings, rfl⟩
  graph := ⟨_, rfl⟩
  op? o' := by
    rw [op?_modifyOp]
    split
    · rename_i h; subst h; rw [hx]
    · rename_i h
      rw [hother o' h]
      cases ho : g.op? o' with
      | none => rfl
      | some op => simp only [Option.map_some, ← hu o' op ho]

/-! ## One binding more, one binding less -/

section Owners

variable {κ ν : Type} [Ord κ] [Std.TransOrd κ] [Std.LawfulEqOrd κ] [DecidableEq κ]
  {t : Std.ExtTreeMap κ (ν × Nat)} {o o' : κ} {v : ν}

theorem getElem?_ownUp : (ownUp t o v)[o']? = if o = o'
    then some (((t[o]?).map Prod.fst).getD v, ((t[o]?).map Prod.snd).getD 0 + 1) else t[o']? := by
  unfold ownUp
  cases h : t[o]? with
  | none => simp [Std.ExtTreeMap.getElem?_insert]
  | some x => simp [Std.ExtTreeMap.getElem?_insert]

theorem getElem?_ownDown : (ownDown t o)[o']? = if o = o'
    then (t[o]?).bind fun x => if x.2 - 1 = 0 then none else some (x.1, x.2 - 1) else t[o']? := by
  unfold ownDown
  cases h : t[o]? with
  | none =>
    by_cases ho : o = o'
    · subst ho; simp [h]
    · simp [ho]
  | some x =>
    by_cases hx : x.2 - 1 = 0
    · simp [hx, Std.ExtTreeMap.getElem?_erase]
    · simp [hx, Std.ExtTreeMap.getElem?_insert]

end Owners

theorem bonds_ownUp : Usage.bonds { u with bindings := ownUp u.bindings o v } o' =
    u.bonds o' + if o = o' then 1 else 0 := by
  simp only [bonds, getElem?_ownUp]
  by_cases h : o = o'
  · subst h; simp
  · simp [h]

theorem boundUnit_ownUp : Usage.boundUnit { u with bindings := ownUp u.bindings o v } o' =
      if o = o' then some ((u.boundUnit o).getD v) else u.boundUnit o' := by
  simp only [boundUnit, getElem?_ownUp]
  by_cases h : o = o'
  · subst h; simp
  · simp [h]

theorem bonds_ownDown : Usage.bonds { u with bindings := ownDown u.bindings o } o' =
    u.bonds o' - if o = o' then 1 else 0 := by
  simp only [bonds, getElem?_ownDown]
  by_cases h : o = o'
  · subst h
    cases u.bindings[o]? with
    | none => simp
    | some x => by_cases hx : x.2 - 1 = 0 <;> simp [hx]
  · simp [h]

theorem boundUnit_ownDown : Usage.boundUnit { u with bindings := ownDown u.bindings o } o' =
      if o = o' ∧ u.bonds o ≤ 1 then none else u.boundUnit o' := by
  by_cases h : o = o'
  · subst h
    have hbonds : u.bonds o = ((u.bindings[o]?).map Prod.snd).getD 0 := rfl
    rw [hbonds]
    simp only [boundUnit, getElem?_ownDown, if_true, true_and]
    rcases u.bindings[o]? with _ | x
    · simp
    · by_cases hx : x.2 - 1 = 0
      · have hle : x.2 ≤ 1 := by omega
        simp [hx, hle]
      · have hle : ¬ x.2 ≤ 1 := by omega
        simp [hx, hle]
  · simp [boundUnit, getElem?_ownDown, h]

/-- No entry of the bindings counts nothing. -/
def BondsPos (u : Usage) : Prop :=
  ∀ (o : OpId) (v : UnitId) (k : Nat), u.bindings[o]? = some (v, k) → 0 < k

theorem boundUnit_isSome (h : u.BondsPos) : (u.boundUnit o).isSome ↔ 0 < u.bonds o := by
  unfold boundUnit bonds
  cases ho : u.bindings[o]? with
  | none => simp
  | some x => simpa using h o x.1 x.2 ho

/-- The bindings with one more of an operation, if there is one. -/
def tie (t : Std.ExtTreeMap OpId (UnitId × Nat)) (op : Option OpId) (unit : Option UnitId) :
    Std.ExtTreeMap OpId (UnitId × Nat) :=
  match op, unit with
  | some o, some v => ownUp t o v
  | _, _ => t

/-- The bindings with one less of an operation, if there is one. -/
def untie (t : Std.ExtTreeMap OpId (UnitId × Nat)) (op : Option OpId) (unit : Option UnitId) :
    Std.ExtTreeMap OpId (UnitId × Nat) :=
  match op, unit with
  | some o, some _ => ownDown t o
  | _, _ => t

/-- Only an operation and a unit make a binding. -/
theorem bind_cases (op : Option OpId) (unit : Option UnitId) : (∃ o v, op = some o ∧ unit = some v) ∨
    (∀ o, ¬ (op = some o ∧ unit.isSome)) ∧ (∀ t, tie t op unit = t ∧ untie t op unit = t) ∧
      ∀ (u : Usage) (g : Graph), u.bind g op unit = .ok (u, g) ∧ u.unbind g op unit = .ok (u, g) := by
  cases op with
  | none => exact .inr ⟨by simp, fun t => ⟨rfl, rfl⟩, fun u g => ⟨rfl, rfl⟩⟩
  | some o =>
    cases unit with
    | none => exact .inr ⟨by simp, fun t => ⟨rfl, rfl⟩, fun u g => ⟨rfl, rfl⟩⟩
    | some v => exact .inl ⟨o, v, rfl, rfl⟩

theorem bound_of_bind (h : u.bind g (some o) (some v) = .ok (u', g')) :
    (∀ v', u.boundUnit o = some v' → v' = v) ∧ (∃ x, g.op o = .ok x) ∧
      u' = { u with bindings := ownUp u.bindings o v } ∧
      g' = g.modifyOp o fun op => { op with unit? := some v } := by
  simp only [Usage.bind] at h
  split at h
  · simp [bind_eq_ok] at h
  rename_i hfree
  simp only [bind_eq_ok, pure_eq_ok, Prod.mk.injEq] at h
  obtain ⟨x, hx, rfl, rfl⟩ := h
  exact ⟨fun v' hv' => by simpa [hv'] using hfree, ⟨x, hx⟩, rfl, rfl⟩

/-- The graph forgets the unit of an operation with its last binding. -/
theorem freed_of_unbind (h : u.unbind g (some o) (some v) = .ok (u', g')) :
    u' = { u with bindings := ownDown u.bindings o } ∧ (u'.boundUnit o = u.boundUnit o ∧ g' = g ∨
      u'.boundUnit o = none ∧ g' = g.modifyOp o fun op => { op with unit? := none }) := by
  simp only [unbind] at h
  split at h
  · rename_i hnone
    cases pure_eq_ok.1 h
    have hfree : ownDown u.bindings o = u.bindings := by
      cases ho : u.bindings[o]? with
      | none => simp [ownDown, ho]
      | some y => simp [boundUnit, ho] at hnone
    exact ⟨by rw [hfree], .inl ⟨rfl, rfl⟩⟩
  · split at h
    · rename_i hsome
      cases pure_eq_ok.1 h
      refine ⟨rfl, .inl ⟨?_, rfl⟩⟩
      rw [boundUnit_ownDown] at hsome ⊢
      split
      · simp_all
      · rfl
    · rename_i hnone
      simp only [bind_eq_ok, pure_eq_ok, Prod.mk.injEq] at h
      obtain ⟨x, -, rfl, rfl⟩ := h
      exact ⟨rfl, .inr ⟨Option.not_isSome_iff_eq_none.1 hnone, rfl⟩⟩

/-- What one more binding does. -/
structure Binds (u : Usage) (g : Graph) (op : Option OpId) (unit : Option UnitId) (u' : Usage)
    (g' : Graph) : Prop extends u.Rebinds g u' g' where
  bonds (o : OpId) : u'.bonds o = u.bonds o + if op = some o ∧ unit.isSome then 1 else 0
  keeps {o : OpId} {v : UnitId} : u.boundUnit o = some v → u'.boundUnit o = some v
  binds {o : OpId} {v : UnitId} : op = some o → unit = some v → u'.boundUnit o = some v
  origin {o : OpId} {v : UnitId} : u'.boundUnit o = some v →
    u.boundUnit o = some v ∨ op = some o ∧ unit = some v
  pos : u.BondsPos → u'.BondsPos

theorem binds_of_bind (hu : ∀ o op, g.op? o = some op → op.unit? = u.boundUnit o)
    (h : u.bind g op unit = .ok (u', g')) : u.Binds g op unit u' g' := by
  rcases bind_cases op unit with ⟨o, v, rfl, rfl⟩ | ⟨hno, -, hnone⟩
  · obtain ⟨hsame, -, rfl, rfl⟩ := bound_of_bind h
    have hself : Usage.boundUnit { u with bindings := ownUp u.bindings o v } o = some v := by
      rw [boundUnit_ownUp, if_pos rfl]
      cases hb : u.boundUnit o with
      | none => rfl
      | some v' => rw [hsame v' hb]; rfl
    refine ⟨Rebinds.of_modifyOp hu hself ?_, ?_, ?_, ?_, ?_, Owned.ownUp⟩
    · intro o' hne
      rw [boundUnit_ownUp, if_neg (Ne.symm hne)]
    · intro o'
      rw [bonds_ownUp]
      simp
    · intro o' v' hv'
      by_cases ho : o = o'
      · subst ho; rw [hself, hsame v' hv']
      · rw [boundUnit_ownUp, if_neg ho, hv']
    · rintro _ _ ⟨⟩ ⟨⟩
      exact hself
    · intro o' v' hv'
      by_cases ho : o = o'
      · subst ho
        rw [hself] at hv'
        exact .inr ⟨rfl, hv'⟩
      · rw [boundUnit_ownUp, if_neg ho] at hv'
        exact .inl hv'
  · cases (hnone u g).1.symm.trans h
    refine ⟨.refl hu, fun o => by rw [if_neg (hno o), Nat.add_zero], id, ?_, .inl, id⟩
    rintro o v rfl rfl
    exact (hno o ⟨rfl, rfl⟩).elim

/-- What one binding less does. -/
structure Unbinds (u : Usage) (g : Graph) (op : Option OpId) (unit : Option UnitId) (u' : Usage)
    (g' : Graph) : Prop extends u.Rebinds g u' g' where
  bonds (o : OpId) : u'.bonds o = u.bonds o - if op = some o ∧ unit.isSome then 1 else 0
  keeps {o : OpId} {v : UnitId} : u.boundUnit o = some v → 0 < u'.bonds o → u'.boundUnit o = some v
  origin {o : OpId} {v : UnitId} : u'.boundUnit o = some v → u.boundUnit o = some v
  pos : u'.BondsPos

theorem unbinds_of_unbind (hpos : u.BondsPos) (hu : ∀ o op, g.op? o = some op → op.unit? = u.boundUnit o)
    (h : u.unbind g op unit = .ok (u', g')) : u.Unbinds g op unit u' g' := by
  rcases bind_cases op unit with ⟨o, v, rfl, rfl⟩ | ⟨hno, -, hnone⟩
  · obtain ⟨rfl, hgraph⟩ := freed_of_unbind h
    have hother : ∀ o', o' ≠ o → Usage.boundUnit { u with bindings := ownDown u.bindings o } o' =
        u.boundUnit o' := by
      intro o' hne
      rw [boundUnit_ownDown, if_neg fun h => hne h.1.symm]
    refine ⟨?_, fun o' => ?_, fun {o' v'} hv' hb => ?_, fun {o' v'} hv' => ?_, Owned.ownDown hpos⟩
    · rcases hgraph with ⟨hsame, rfl⟩ | ⟨hfree, rfl⟩
      · refine ⟨⟨_, rfl⟩, ⟨_, rfl⟩, fun o' => ?_⟩
        have hbound : Usage.boundUnit { u with bindings := ownDown u.bindings o } o' = u.boundUnit o' := by
          by_cases ho : o' = o
          · rw [ho, hsame]
          · exact hother o' ho
        rw [hbound]
        exact (Rebinds.refl hu).op? o'
      · exact .of_modifyOp hu hfree hother
    · rw [bonds_ownDown]
      simp
    · rw [bonds_ownDown] at hb
      rw [boundUnit_ownDown, if_neg ?_, hv']
      rintro ⟨rfl, hle⟩
      simp only [if_true] at hb
      omega
    · rw [boundUnit_ownDown] at hv'
      split at hv'
      · cases hv'
      · exact hv'
  · cases (hnone u g).2.symm.trans h
    exact ⟨.refl hu, fun o => by rw [if_neg (hno o), Nat.sub_zero], fun h _ => h, id, hpos⟩

/-! ## The steps of a placement -/

theorem assign_eq_ok {c : Cycle} (h : u.assign machine g c n = .ok (u', g')) : ∃ m a u1 g1 g2,
    g.move n = .ok m ∧ m.placement = none ∧ u.fit machine g c n = .ok (some a) ∧
      (u.occupy n m a).bind g m.srcOp a.srcUnit = .ok (u1, g1) ∧
      u1.bind g1 m.dstOp a.dstUnit = .ok (u', g2) ∧ g2.setPlacement n (some ⟨c, a.bus⟩) = .ok g' := by
  simp only [assign, Graph.isPlaced, bind_eq_ok, pure_eq_ok] at h
  obtain ⟨_, ⟨m, hm, rfl⟩, h⟩ := h
  split at h
  · simp [bind_eq_ok] at h
  rename_i hpending
  simp only [bind_eq_ok] at h
  obtain ⟨x, hfit, h⟩ := h
  cases x with
  | none => simp at h
  | some a =>
    simp only [bind_eq_ok, pure_eq_ok, Prod.mk.injEq] at h
    obtain ⟨_, hm', ⟨u1, g1⟩, h1, ⟨u2, g2⟩, h2, g3, hset, rfl, rfl⟩ := h
    cases hm.symm.trans hm'
    exact ⟨m, a, u1, g1, g2, hm, by simpa [Move.isPlaced] using hpending, hfit, h1, h2, hset⟩

theorem unassign_eq_ok (h : u.unassign g n = .ok (u', g')) : ∃ m a u1 g1 g2, g.move n = .ok m ∧ m.isPlaced ∧
    u.assignments[n]? = some a ∧ (u.vacate n m a).unbind g m.srcOp a.srcUnit = .ok (u1, g1) ∧
      u1.unbind g1 m.dstOp a.dstUnit = .ok (u', g2) ∧ g2.setPlacement n none = .ok g' := by
  simp only [unassign, Graph.isPlaced, bind_eq_ok, pure_eq_ok] at h
  obtain ⟨_, ⟨m, hm, rfl⟩, h⟩ := h
  split at h
  case isFalse => simp [bind_eq_ok] at h
  rename_i hplaced
  cases ha : u.assignments[n]? with
  | none => simp [ha] at h
  | some a =>
    simp only [ha, bind_eq_ok, pure_eq_ok, Prod.mk.injEq] at h
    obtain ⟨_, hm', ⟨u1, g1⟩, h1, ⟨u2, g2⟩, h2, g3, hset, rfl, rfl⟩ := h
    cases hm.symm.trans hm'
    exact ⟨m, a, u1, g1, g2, hm, hplaced, rfl, h1, h2, hset⟩

end Usage

end Transport
