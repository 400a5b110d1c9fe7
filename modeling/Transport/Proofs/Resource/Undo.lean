import Transport.Proofs.Renaming.Undo

/-!
# Placing is taken back

A move that was placed and is taken off its cycle leaves the usage as it was: counts go up and down
again, and an entry that was made is erased. It takes no more than books in which every entry counts
something and every placed move is entered: `Orderly`. The other way round is different. A move that is
put back on its cycle looks for a bus and a unit again, and `Regains` says that it finds the old ones.
-/

namespace Transport

/-! ## Counting up and down -/

section

variable {κ ν : Type} [Ord κ] [Std.TransOrd κ] {k : κ}

/-- Every entry counts something. -/
def Counted (t : Std.ExtTreeMap κ Nat) : Prop := ∀ (k : κ) (c : Nat), t[k]? = some c → 0 < c

variable {t : Std.ExtTreeMap κ Nat} {s : Std.ExtTreeMap κ (ν × Nat)} {v : ν}

theorem Counted.insert (h : Counted t) {c : Nat} (hc : 0 < c) : Counted (t.insert k c) := by
  intro x d hx
  rw [Std.ExtTreeMap.getElem?_insert] at hx
  split at hx
  · cases hx
    exact hc
  · exact h x d hx

theorem Counted.erase (h : Counted t) : Counted (t.erase k) := by
  intro x d hx
  rw [Std.ExtTreeMap.getElem?_erase] at hx
  split at hx
  · cases hx
  · exact h x d hx

theorem Counted.countUp (h : Counted t) (key : Option κ) : Counted (key.elim t (countUp t)) := by
  cases key with
  | none => exact h
  | some k => exact h.insert (Nat.succ_pos _)

theorem Counted.countDown (h : Counted t) (key : Option κ) : Counted (key.elim t (countDown t)) := by
  cases key with
  | none => exact h
  | some k =>
    rw [Option.elim_some, Transport.countDown]
    split
    · split
      · exact h.erase
      · exact h.insert (by omega)
    · exact h

theorem countDown_countUp [Std.LawfulEqOrd κ] (h : Counted t) : countDown (countUp t k) k = t := by
  cases hk : t[k]? with
  | none => simp [countUp, countDown, Std.ExtTreeMap.getD_eq_getD_getElem?, hk, erase_back hk]
  | some c =>
    have hc := h k c hk
    simp [countUp, countDown, Std.ExtTreeMap.getD_eq_getD_getElem?, hk, Nat.ne_of_gt hc, insert_back hk]

theorem ownDown_ownUp [Std.LawfulEqOrd κ] (h : Owned s) : ownDown (ownUp s k v) k = s := by
  cases hk : s[k]? with
  | none => simp [ownUp, ownDown, hk, erase_back hk]
  | some x =>
    have hc := h k x.1 x.2 hk
    simp [ownUp, ownDown, hk, Nat.ne_of_gt hc, insert_back hk]

end

attribute [ext] Usage

/-! ## Places -/

/-- The moves have the same places and the operations the same units. -/
structure Graph.KeepsPlaces (g g' : Graph) : Prop where
  placement (n : MoveId) : (g'.move? n).map Move.placement = (g.move? n).map Move.placement
  unit? (o : OpId) : (g'.op? o).map Operation.unit? = (g.op? o).map Operation.unit?

namespace Graph.KeepsPlaces

variable {g g' : Graph} {n : MoveId}

theorem trans {g'' : Graph} (h : g.KeepsPlaces g') (h' : g'.KeepsPlaces g'') : g.KeepsPlaces g'' :=
  ⟨fun n => (h'.placement n).trans (h.placement n), fun o => (h'.unit? o).trans (h.unit? o)⟩

theorem of_sameMoves (h : g.SameMoves g') : g.KeepsPlaces g' :=
  ⟨fun _ => h.map_eq fun _ => rfl, fun o => by rw [h.op?]⟩

theorem of_alters {f : Move → Move} {k : OpId → Operation → Operation} (h : g.Alters n f k g')
    (hf : ∀ m, (f m).placement = m.placement) (hk : ∀ o op, (k o op).unit? = op.unit?) : g.KeepsPlaces g' :=
  ⟨h.keeps (q := Option.map _) fun m _ => congrArg some (hf m), h.map_op? hk⟩

end Graph.KeepsPlaces

namespace Usage

open Transport.Graph

variable {machine : Machine} {u u' : Usage} {g g' h h' : Graph} {c : Cycle} {n : MoveId} {m m' : Move}
  {a : Assignment} {p : Option Placement} {u1 : Usage}

/-! ## Buses, ports and immediates -/

/-- What a transport takes up is free. -/
structure Clear (u : Usage) (m : Move) (a : Assignment) : Prop where
  bus : u.buses[(⟨a.cycle, a.bus⟩ : At BusId)]? = none
  srcUnit : a.srcUnit.isSome = m.srcOp.isSome
  dstUnit : a.dstUnit.isSome = m.dstOp.isSome
  input {k : Nat} {trigger : Bool} {v : UnitId} : m.dst = .input k trigger → a.dstUnit = some v →
    u.inputs[(⟨a.cycle, v, k⟩ : At UnitPort)]? = none
  trigger {k : Nat} {v : UnitId} : m.dst = .input k true → a.dstUnit = some v →
    u.triggers[(⟨a.cycle, v⟩ : At UnitId)]? = none

theorem clear_of_fit (hm : g.move n = .ok m) (h : u.fit machine g c n = .ok (some a)) :
    a.cycle = c ∧ u.Clear m a := by
  obtain ⟨-, m', hm', ⟨ss, hss, hs⟩, ⟨ds, hds, hd⟩, hon⟩ := fit_eq_some h
  cases hm.symm.trans hm'
  obtain ⟨rfl, -, -, dst, src, hdst, hfree, -, -, hbus⟩ := fitOn_eq_some hon
  have hdstUnit := isSome_of_mem_unitChoices hds hd
  have hdest {k : Nat} {trigger : Bool} {v : UnitId} (hk : m.dst = .input k trigger) (hv : a.dstUnit = some v) :
      dst = .unitIn v k ∧ ∃ o, m.dstOp = some o := by
    simp only [destPort, hk, hv, pure_eq_ok] at hdst
    rw [hv, Option.isSome_some, eq_comm, Option.isSome_iff_exists] at hdstUnit
    exact ⟨hdst.symm, hdstUnit⟩
  refine ⟨rfl, by simpa using (busFor_eq_some hbus).1, isSome_of_mem_unitChoices hss hs, hdstUnit,
    fun {k trigger v} hk hv => ?_, fun {k v} hk hv => ?_⟩
  · obtain ⟨rfl, o, ho⟩ := hdest hk hv
    simp only [destFree, ho] at hfree
    split at hfree
    · simp at hfree
    · simpa using ‹_›
  · obtain ⟨rfl, o, ho⟩ := hdest hk hv
    have htrigger : m.isTrigger := by simp [Move.isTrigger, hk, Terminal.isTrigger]
    simpa using (destFree_trigger hfree ho htrigger).1

section

variable (hc : u.Clear m a) {k : At UnitPort}
include hc

theorem Clear.resultKey (hk : resultKey m a = some k) : ∃ o, m.srcOp = some o := by
  have hsrc := hc.srcUnit
  unfold Usage.resultKey at hk
  split at hk
  · rename_i v _ hv
    rwa [hv, Option.isSome_some, eq_comm, Option.isSome_iff_exists] at hsrc
  · cases hk

theorem Clear.dstOp {v : UnitId} (hv : a.dstUnit = some v) : ∃ o, m.dstOp = some o := by
  have hdst := hc.dstUnit
  rwa [hv, Option.isSome_some, eq_comm, Option.isSome_iff_exists] at hdst

theorem Clear.inputKey (hk : inputKey m a = some k) : ∃ o, m.dstOp = some o ∧ u.inputs[k]? = none := by
  unfold Usage.inputKey at hk
  split at hk
  · rename_i hd hv
    cases hk
    obtain ⟨o, ho⟩ := hc.dstOp hv
    exact ⟨o, ho, hc.input hd hv⟩
  · cases hk

theorem Clear.triggerKey {k : At UnitId} (hk : triggerKey m a = some k) :
    ∃ o, m.dstOp = some o ∧ u.triggers[k]? = none := by
  unfold Usage.triggerKey at hk
  split at hk
  · rename_i hd hv
    cases hk
    obtain ⟨o, ho⟩ := hc.dstOp hv
    exact ⟨o, ho, hc.trigger hd hv⟩
  · cases hk

end

/-- No table has an entry that counts nothing. -/
structure Tallied (u : Usage) : Prop where
  reads : Counted u.fileReads
  writes : Counted u.fileWrites
  immediates : Counted u.longImmediates
  results : Owned u.results
  bindings : Owned u.bindings

theorem Tallied.occupy (h : u.Tallied) : (u.occupy n m a).Tallied := by
  rw [occupy_eq]
  constructor
  case reads => exact h.reads.countUp _
  case writes => exact h.writes.countUp _
  case immediates => exact h.immediates.countUp _
  case results => cases resultKey m a with
    | none => exact h.results
    | some k => cases m.srcOp with
      | none => exact h.results
      | some o => exact h.results.ownUp
  case bindings => exact h.bindings

theorem Tallied.vacate (h : u.Tallied) : (u.vacate n m a).Tallied := by
  rw [vacate_eq]
  constructor
  case reads => exact h.reads.countDown _
  case writes => exact h.writes.countDown _
  case immediates => exact h.immediates.countDown _
  case results => cases resultKey m a with
    | none => exact h.results
    | some k => exact h.results.ownDown
  case bindings => exact h.bindings

/-- A transport that is entered and taken out again leaves no trace. -/
theorem vacate_occupy (hu : u.Tallied) (hc : u.Clear m a) (hn : u.assignments[n]? = none) :
    (u.occupy n m a).vacate n m a = u := by
  rw [occupy_eq, vacate_eq]
  apply Usage.ext <;> dsimp only
  case buses => exact erase_back hc.bus
  case fileReads => cases readKey m a with
    | none => rfl
    | some k => exact countDown_countUp hu.reads
  case fileWrites => cases writeKey m a with
    | none => rfl
    | some k => exact countDown_countUp hu.writes
  case inputs => cases hk : inputKey m a with
    | none => rfl
    | some k =>
      obtain ⟨o, ho, hfree⟩ := hc.inputKey hk
      rw [ho]
      exact erase_back hfree
  case triggers => cases hk : triggerKey m a with
    | none => rfl
    | some k =>
      obtain ⟨o, ho, hfree⟩ := hc.triggerKey hk
      rw [ho]
      exact erase_back hfree
  case results => cases hk : resultKey m a with
    | none => rfl
    | some k =>
      obtain ⟨o, ho⟩ := hc.resultKey hk
      rw [ho]
      exact ownDown_ownUp hu.results
  case longImmediates => cases longKey m a with
    | none => rfl
    | some k => exact countDown_countUp hu.immediates
  case assignments => exact erase_back hn

/-! ## Bindings -/

section

variable {t : Std.ExtTreeMap OpId (UnitId × Nat)} {o o' : OpId} {op op' : Option OpId} {unit unit' : Option UnitId}

theorem owned_tie (h : Owned t) : Owned (tie t op unit) := by
  unfold tie
  split
  · exact h.ownUp
  · exact h

theorem owned_untie (h : Owned t) : Owned (untie t op unit) := by
  unfold untie
  split
  · exact h.ownDown
  · exact h

theorem untie_tie (h : Owned t) : untie (tie t op unit) op unit = t := by
  rcases bind_cases op unit with ⟨o, v, rfl, rfl⟩ | ⟨-, hnone, -⟩
  · exact ownDown_ownUp h
  · rw [(hnone t).1, (hnone t).2]

theorem ownDown_ownUp_comm {v : UnitId} (hne : o ≠ o') : ownDown (ownUp t o' v) o = ownUp (ownDown t o) o' v := by
  refine Std.ExtTreeMap.ext_getElem? fun x => ?_
  simp only [getElem?_ownDown, getElem?_ownUp, Ne.symm hne, hne, if_false]
  by_cases hx : o = x
  · subst hx
    simp [Ne.symm hne]
  · simp [hx]

/-- The two bindings of a move are taken back in the order they were made. -/
theorem untie_untie_tie_tie (h : Owned t) :
    untie (untie (tie (tie t op unit) op' unit') op unit) op' unit' = t := by
  rcases bind_cases op unit with ⟨o, v, rfl, rfl⟩ | ⟨-, hnone, -⟩
  · rcases bind_cases op' unit' with ⟨o', v', rfl, rfl⟩ | ⟨-, hnone', -⟩
    · by_cases hsame : o = o'
      · subst hsame
        have hfirst : untie (tie (tie t (some o) (some v)) (some o) (some v')) (some o) (some v) =
            tie t (some o) (some v) := ownDown_ownUp (owned_tie h)
        rw [hfirst]
        exact ownDown_ownUp h
      · have hcomm : untie (tie (tie t (some o) (some v)) (some o') (some v')) (some o) (some v) =
            tie (untie (tie t (some o) (some v)) (some o) (some v)) (some o') (some v') :=
          ownDown_ownUp_comm hsame
        rw [hcomm, untie_tie h, untie_tie h]
    · rw [(hnone' _).1, (hnone' _).2, untie_tie h]
  · rw [(hnone _).1, (hnone _).2, untie_tie h]

theorem bind_eq (h : u.bind g op unit = .ok (u', g')) : u' = { u with bindings := tie u.bindings op unit } ∧
    ∀ o v, op = some o → unit = some v → ∃ x, g.op o = .ok x := by
  rcases bind_cases op unit with ⟨o, v, rfl, rfl⟩ | ⟨hno, htie, hnone⟩
  · obtain ⟨-, hx, rfl, -⟩ := bound_of_bind h
    refine ⟨rfl, ?_⟩
    rintro _ _ ⟨⟩ -
    exact hx
  · cases (hnone u g).1.symm.trans h
    refine ⟨by rw [(htie _).1], ?_⟩
    rintro o v rfl rfl
    exact (hno o ⟨rfl, rfl⟩).elim

theorem exists_unbind (hop : ∀ o v, op = some o → unit = some v → ∃ x, g.op o = .ok x) :
    ∃ x, u.unbind g op unit = .ok x := by
  rcases bind_cases op unit with ⟨o, v, rfl, rfl⟩ | ⟨-, -, hnone⟩
  · obtain ⟨x, hx⟩ := hop o v rfl rfl
    simp only [unbind]
    split
    · exact ⟨_, rfl⟩
    · split
      · exact ⟨_, rfl⟩
      · exact ⟨_, by rw [hx]; rfl⟩
  · exact ⟨_, (hnone u g).2⟩

theorem unbind_eq (h : u.unbind g op unit = .ok (u', g')) :
    u' = { u with bindings := untie u.bindings op unit } := by
  rcases bind_cases op unit with ⟨o, v, rfl, rfl⟩ | ⟨-, htie, hnone⟩
  · exact (freed_of_unbind h).1
  · cases (hnone u g).2.symm.trans h
    rw [(htie _).2]

end

/-! ## Orderly books -/

/-- Every placed move is entered with its place, and the graph notes the units of the bindings. -/
structure Orderly (u : Usage) (g : Graph) : Prop extends u.Tallied where
  unit {o : OpId} {op : Operation} : g.op? o = some op → op.unit? = u.boundUnit o
  entered {n : MoveId} {m : Move} : g.move? n = some m →
    (u.assignments[n]?).map (fun a => (⟨a.cycle, a.bus⟩ : Placement)) = m.placement

/-- One move gets another place, and operations are noted on the units they are bound to. -/
structure Replaces (g : Graph) (n : MoveId) (p : Option Placement) (u' : Usage) (g' : Graph) : Prop extends
    g.Alters n (fun m => { m with placement := p }) (fun o op => { op with unit? := u'.boundUnit o }) g' where
  frame : g'.frame = g.frame

theorem replaces_of_rebinds {g1 : Graph} (h : u1.Rebinds g u' g1)
    (hset : g1.setPlacement n p = .ok g') : Replaces g n p u' g' := by
  obtain ⟨ops, rfl⟩ := h.graph
  obtain ⟨-, -, rfl⟩ := setPlacement_ok hset
  refine ⟨⟨fun x => ?_, h.op?, fun _ => rfl, by simp [modifyMove], rfl, rfl, rfl⟩, rfl⟩
  exact move?_modifyMove

theorem Replaces.consistent (h : Replaces g n p u' g') (hg : g.Consistent) : g'.Consistent :=
  h.toAlters.consistent (fun _ => rfl) (fun _ => rfl) hg

/-- What placing a move does. -/
structure Takes (machine : Machine) (u : Usage) (g : Graph) (c : Cycle) (n : MoveId) (m : Move) (a : Assignment)
    (u' : Usage) (g' : Graph) : Prop where
  move : g.move n = .ok m
  pending : m.placement = none
  fit : u.fit machine g c n = .ok (some a)
  usage : u' = { u.occupy n m a with bindings := tie (tie u.bindings m.srcOp a.srcUnit) m.dstOp a.dstUnit }
  src (o : OpId) (v : UnitId) : m.srcOp = some o → a.srcUnit = some v → ∃ x, g.op o = .ok x
  dst (o : OpId) (v : UnitId) : m.dstOp = some o → a.dstUnit = some v → ∃ x, g.op o = .ok x
  replaces : Replaces g n (some ⟨c, a.bus⟩) u' g'

/-- What taking a move off its cycle does. -/
structure Leaves (u : Usage) (g : Graph) (n : MoveId) (m : Move) (a : Assignment) (u' : Usage) (g' : Graph) :
    Prop where
  move : g.move n = .ok m
  placed : m.isPlaced
  assigned : u.assignments[n]? = some a
  usage : u' = { u.vacate n m a with bindings := untie (untie u.bindings m.srcOp a.srcUnit) m.dstOp a.dstUnit }
  replaces : Replaces g n none u' g'

theorem op_of_rebinds {o : OpId} (h : u1.Rebinds g u' g') : (∃ x, g'.op o = .ok x) ↔ ∃ x, g.op o = .ok x := by
  simp [op_eq_ok, h.op?]

theorem takes_of_assign (hu : u.Orderly g) (h : u.assign machine g c n = .ok (u', g')) :
    ∃ m a, Takes machine u g c n m a u' g' := by
  obtain ⟨m, a, u1, g1, g2, hm, hpending, hfit, h1, h2, hset⟩ := assign_eq_ok h
  have b1 := binds_of_bind (fun o op ho => (hu.unit ho).trans (boundUnit_occupy o).symm) h1
  have b2 := binds_of_bind (fun o op ho => b1.unit? ho) h2
  obtain ⟨rfl, hsrc⟩ := bind_eq h1
  obtain ⟨rfl, hdst⟩ := bind_eq h2
  refine ⟨m, a, hm, hpending, hfit, ?_, hsrc, fun o v ho hv => ?_,
    replaces_of_rebinds (b1.toRebinds.trans b2.toRebinds) hset⟩
  · rw [bindings_occupy]
  · exact (op_of_rebinds b1.toRebinds).1 (hdst o v ho hv)

theorem leaves_of_unassign (hu : u.Orderly g) (h : u.unassign g n = .ok (u', g')) :
    ∃ m a, Leaves u g n m a u' g' := by
  obtain ⟨m, a, u1, g1, g2, hm, hplaced, ha, h1, h2, hset⟩ := unassign_eq_ok h
  have hpos : (u.vacate n m a).BondsPos := hu.toTallied.vacate.bindings
  have b1 := unbinds_of_unbind hpos (fun o op ho => (hu.unit ho).trans (boundUnit_vacate o).symm) h1
  have b2 := unbinds_of_unbind b1.pos (fun o op ho => b1.unit? ho) h2
  obtain rfl := unbind_eq h1
  obtain rfl := unbind_eq h2
  refine ⟨m, a, hm, hplaced, ha, ?_, replaces_of_rebinds (b1.toRebinds.trans b2.toRebinds) hset⟩
  rw [bindings_vacate]

theorem Replaces.orderly (h : Replaces g n p u' g') (hu : u.Orderly g) (ht : u'.Tallied)
    (hself : (u'.assignments[n]?).map (fun a => (⟨a.cycle, a.bus⟩ : Placement)) = p)
    (hother : ∀ x, x ≠ n → u'.assignments[x]? = u.assignments[x]?) : u'.Orderly g' := by
  refine ⟨ht, fun {o op} ho => ?_, fun {x m} hm => ?_⟩
  · rw [h.op?] at ho
    obtain ⟨_, -, rfl⟩ := Option.map_eq_some_iff.1 ho
    rfl
  · rw [h.move?] at hm
    split at hm
    · rename_i hx
      obtain ⟨_, -, rfl⟩ := Option.map_eq_some_iff.1 hm
      rw [hx, hself]
    · rename_i hx
      rw [hother x hx, hu.entered hm]

theorem Takes.orderly (h : Takes machine u g c n m a u' g') (hu : u.Orderly g) : u'.Orderly g' := by
  obtain ⟨rfl, -⟩ := clear_of_fit h.move h.fit
  have hassign : u'.assignments = u.assignments.insert n a := by
    rw [h.usage]
    exact assignments_occupy u n m a
  have htallied : u'.Tallied := by
    obtain ⟨reads, writes, immediates, results, -⟩ := hu.toTallied.occupy (n := n) (m := m) (a := a)
    rw [h.usage]
    exact ⟨reads, writes, immediates, results, owned_tie (owned_tie hu.bindings)⟩
  refine h.replaces.orderly hu htallied (by simp [hassign]) fun x hx => ?_
  simp [hassign, Std.ExtTreeMap.getElem?_insert, Ne.symm hx]

theorem Leaves.orderly (h : Leaves u g n m a u' g') (hu : u.Orderly g) : u'.Orderly g' := by
  have hassign : u'.assignments = u.assignments.erase n := by
    rw [h.usage]
    exact assignments_vacate u n m a
  have htallied : u'.Tallied := by
    obtain ⟨reads, writes, immediates, results, -⟩ := hu.toTallied.vacate (n := n) (m := m) (a := a)
    rw [h.usage]
    exact ⟨reads, writes, immediates, results, owned_untie (owned_untie hu.bindings)⟩
  refine h.replaces.orderly hu htallied (by simp [hassign]) fun x hx => ?_
  simp [hassign, Std.ExtTreeMap.getElem?_erase, Ne.symm hx]

/-! ## The way back -/

theorem Orderly.congr (hu : u.Orderly g) (hk : g.KeepsPlaces g') : u.Orderly g' := by
  refine ⟨hu.toTallied, fun {o op} ho => ?_, fun {x m} hm => ?_⟩
  · obtain ⟨op0, ho0, heq⟩ := exists_of_map_eq (hk.unit? o) ho
    rw [← heq, hu.unit ho0]
  · obtain ⟨m0, hm0, heq⟩ := exists_of_map_eq (hk.placement x) hm
    rw [← heq, hu.entered hm0]

/-- Where a move is and which edges it has does not matter for what it occupies. -/
theorem vacate_congr (h : m'.bare = ({ m with placement := p } : Move).bare) :
    u.vacate n m' a = u.vacate n m a := by
  rw [Move.eq_of_bare h]
  rfl

theorem vacate_bindings {b : Std.ExtTreeMap OpId (UnitId × Nat)} :
    vacate { u with bindings := b } n m a = { u.vacate n m a with bindings := b } := by
  simp only [vacate_eq]

/-- Taking a move off its cycle fails only if the books do not have it. -/
theorem exists_unassign (hu : u.Orderly g) (hm : g.move n = .ok m) (hplaced : m.isPlaced)
    (ha : u.assignments[n]? = some a)
    (hsrc : ∀ o v, m.srcOp = some o → a.srcUnit = some v → ∃ x, g.op o = .ok x)
    (hdst : ∀ o v, m.dstOp = some o → a.dstUnit = some v → ∃ x, g.op o = .ok x) :
    ∃ u' g', u.unassign g n = .ok (u', g') := by
  obtain ⟨⟨u1, g1⟩, h1⟩ := exists_unbind (u := u.vacate n m a) hsrc
  have b1 := unbinds_of_unbind hu.toTallied.vacate.bindings (fun o op ho => (hu.unit ho).trans (boundUnit_vacate o).symm) h1
  obtain ⟨⟨u2, g2⟩, h2⟩ := exists_unbind (u := u1) fun o v ho hv => (op_of_rebinds b1.toRebinds).2 (hdst o v ho hv)
  have b2 := unbinds_of_unbind b1.pos (fun o op ho => b1.unit? ho) h2
  have hset : ∃ g3, g2.setPlacement n none = .ok g3 := by
    obtain ⟨ops, rfl⟩ := (b1.toRebinds.trans b2.toRebinds).graph
    exact ⟨_, bind_eq_ok.2 ⟨m, hm, rfl⟩⟩
  obtain ⟨g3, hset⟩ := hset
  refine ⟨u2, g3, ?_⟩
  simp only [unassign, Graph.isPlaced, hm, ok_bind, hplaced, pure_bind, ha, if_true, h1, h2, hset]
  rfl

/-- A move that was placed is taken off again. -/
theorem unassign_of_takes (hu : u.Orderly g) (h : Takes machine u g c n m a u' g') (hr : g'.Resembles h') :
    ∃ k, u'.unassign h' n = .ok (u, k) ∧ g.Resembles k := by
  obtain ⟨rfl, hclear⟩ := clear_of_fit h.move h.fit
  obtain ⟨hvalid, hm⟩ := move_eq_ok.1 h.move
  have hm1 : g'.move? n = some { m with placement := some ⟨a.cycle, a.bus⟩ } := by
    rw [h.replaces.move?, if_pos rfl, hm, Option.map_some]
  obtain ⟨m', hm', hbare⟩ := hr.moves.move? hm1
  have hop : ∀ o x, g.op o = .ok x → ∃ x, h'.op o = .ok x := by
    intro o x hx
    obtain ⟨ho, hx⟩ := op_eq_ok.1 hx
    exact ⟨_, op_eq_ok.2 ⟨ho, by rw [hr.moves.op?, h.replaces.op?, hx, Option.map_some]⟩⟩
  have hsrc : m'.srcOp = m.srcOp := by rw [Move.eq_of_bare hbare]
  have hdst : m'.dstOp = m.dstOp := by rw [Move.eq_of_bare hbare]
  have horderly : u'.Orderly h' := (h.orderly hu).congr (.of_sameMoves hr.moves)
  have hassigned : u'.assignments[n]? = some a := by
    rw [h.usage]
    simp
  obtain ⟨u2, k, hrun⟩ := exists_unassign horderly (move_eq_ok.2 ⟨hvalid, hm'⟩)
    (by rw [Move.eq_of_bare hbare]; rfl) hassigned
    (fun o v ho hv => (h.src o v (hsrc ▸ ho) hv).elim (hop o))
    (fun o v ho hv => (h.dst o v (hdst ▸ ho) hv).elim (hop o))
  obtain ⟨m2, a2, hleaves⟩ := leaves_of_unassign horderly hrun
  cases (move_eq_ok.2 ⟨hvalid, hm'⟩).symm.trans hleaves.move
  cases hassigned.symm.trans hleaves.assigned
  obtain rfl : u2 = u := by
    have hnew : u.assignments[n]? = none := by simpa [h.pending] using hu.entered hm
    rw [hleaves.usage, hsrc, hdst, vacate_congr hbare, h.usage, vacate_bindings,
      vacate_occupy hu.toTallied hclear hnew, untie_untie_tie_tie hu.bindings]
  refine ⟨k, hrun, h.replaces.undo hr hleaves.replaces.toAlters (fun m3 m4 hm3 hbare3 => ?_) (fun o op ho => ?_)
    (fun _ => rfl) (fun _ => rfl) h.replaces.frame hleaves.replaces.frame⟩
  · cases hm.symm.trans hm3
    rw [Move.eq_of_bare hbare3, ← h.pending]
    rfl
  · rw [← hu.unit ho]

/-! ## The same books over other edges

Whether a move fits does not depend on the edges of the graph. -/

section

variable {op : Option OpId} {unit : Option UnitId} {o : OpId} (hs : g.SameMoves g') {k : Nat} {α : Type}
  {v : UnitId}
include hs

theorem move_bind_congr {f : Move → Checked α} (hf : ∀ m, f m.bare = f m) :
    (g'.move n >>= f) = (g.move n >>= f) := by
  rcases hs.move_cases n with ⟨m, m', hm, hm', hbare⟩ | ⟨fault, hm, hm'⟩
  · rw [hm, hm', ok_bind, ok_bind, ← hf m', hbare, hf]
  · rw [hm, hm']

theorem op_congr : g'.op o = g.op o := by
  simp only [Graph.op, hs.ops]

theorem triggerCycle_congr : triggerCycle g' o = triggerCycle g o := by
  have htrigger (x : MoveId) : (g'.move? x).any Move.isTrigger = (g.move? x).any Move.isTrigger := by
    have := hs.map_eq (n := x) (f := Move.isTrigger) fun _ => rfl
    cases hx : g.move? x <;> cases hx' : g'.move? x <;> simp_all
  simp only [triggerCycle, trigger, op_congr hs, htrigger]
  refine bind_congr fun y => ?_
  cases y with
  | none => rfl
  | some t => exact move_bind_congr hs fun _ => rfl

theorem readCycles_congr {x : Operation} : readCycles g' x = readCycles g x := by
  simp only [readCycles, hs.bind_eq (f := Move.cycle?) fun _ => rfl]

theorem inputWindow_congr {t : Option Cycle} : inputWindow g' k t n = inputWindow g k t n :=
  hs.bind_eq fun _ => rfl

theorem unitChoices_congr {units : List UnitId} : u.unitChoices g' op units = u.unitChoices g op units := by
  simp only [unitChoices, op_congr hs]

theorem inputBusy_congr {lo hi : Cycle} : u.inputBusy g' v o k lo hi = u.inputBusy g v o k lo hi := by
  simp only [inputBusy, op_congr hs, triggerCycle_congr hs, inputWindow_congr hs]

theorem triggerStrands_congr : u.triggerStrands g' v o k c = u.triggerStrands g v o k c := by
  simp only [triggerStrands, op_congr hs, inputBusy_congr hs]
  have hread : ∀ x, (g.move? x = none ∧ g'.move? x = none) ∨
      ∃ m m', g.move? x = some m ∧ g'.move? x = some m' ∧ m'.dst = m.dst ∧ m'.cycle? = m.cycle? := by
    intro x
    cases hx : g.move? x with
    | none => exact .inl ⟨rfl, by simpa [hx] using hs.moves x⟩
    | some m =>
      obtain ⟨m', hm', hbare⟩ := hs.move? hx
      exact .inr ⟨m, m', rfl, hm', by rw [Move.eq_of_bare hbare], by rw [Move.eq_of_bare hbare]; rfl⟩
  congr! 7 with - _ - _ x
  rcases hread x with ⟨hx, hx'⟩ | ⟨m, m', hx, hx', hdst, hcycle⟩
  · rw [hx, hx']
  · simp only [hx, hx', hdst, hcycle]

theorem destFree_congr {dst : Port} : u.destFree machine g' c m dst = u.destFree machine g c m dst := by
  simp only [destFree, triggerDestroys, triggersClash, op_congr hs, triggerCycle_congr hs, readCycles_congr hs,
    inputBusy_congr hs, triggerStrands_congr hs]

theorem sourceFree_congr {src : Option Port} :
    u.sourceFree machine g' c m src = u.sourceFree machine g c m src := by
  simp only [sourceFree, resultLost, op_congr hs, triggerCycle_congr hs]

theorem fit_congr : u.fit machine g' c n = u.fit machine g c n := by
  simp only [fit, fitOn, unitChoices_congr hs, destFree_congr hs, sourceFree_congr hs]
  rw [move_bind_congr hs fun _ => rfl]

theorem exists_bind (h : u.bind g op unit = .ok (u', h')) :
    ∃ k, u.bind g' op unit = .ok (u', k) ∧ h'.SameMoves k := by
  rcases bind_cases op unit with ⟨o, v, rfl, rfl⟩ | ⟨-, -, hnone⟩
  · obtain ⟨hfree, ⟨x, hx⟩, rfl, rfl⟩ := bound_of_bind h
    refine ⟨g'.modifyOp o fun op => { op with unit? := some v }, ?_, hs.moves, hs.size,
      by simp only [modifyOp, hs.ops], hs.guardLatencies, hs.forcedFiles, hs.liveOut⟩
    simp only [Usage.bind, op_congr hs, hx]
    rw [if_neg (by simpa [Option.any_eq_true] using hfree)]
    rfl
  · cases (hnone u g).1.symm.trans h
    exact ⟨g', (hnone u g').1, hs⟩

/-- Placing a move does not depend on the edges. -/
theorem exists_assign (h : u.assign machine g c n = .ok (u', h')) : ∃ k, u.assign machine g' c n = .ok (u', k) := by
  obtain ⟨m, a, u1, g1, g2, hm, hpending, hfit, h1, h2, hset⟩ := assign_eq_ok h
  obtain ⟨hvalid, hm⟩ := move_eq_ok.1 hm
  obtain ⟨m', hm', hbare⟩ := hs.move? hm
  obtain ⟨k1, h1', hs1⟩ := exists_bind hs h1
  obtain ⟨k2, h2', hs2⟩ := exists_bind hs1 h2
  obtain ⟨y, hy, -⟩ := setPlacement_ok hset
  obtain ⟨y', hy', -⟩ := hs2.move? (move_eq_ok.1 hy).2
  have hset : k2.setPlacement n (some ⟨c, a.bus⟩) =
      .ok (k2.modifyMove n fun m => { m with placement := some ⟨c, a.bus⟩ }) :=
    bind_eq_ok.2 ⟨y', move_eq_ok.2 ⟨hvalid, hy'⟩, rfl⟩
  refine ⟨k2.modifyMove n fun m => { m with placement := some ⟨c, a.bus⟩ }, ?_⟩
  have hplaced : m'.isPlaced = false := by
    rw [Move.eq_of_bare hbare]
    simp [Move.isPlaced, hpending]
  have hsrc : m'.srcOp = m.srcOp := by rw [Move.eq_of_bare hbare]
  have hdst : m'.dstOp = m.dstOp := by rw [Move.eq_of_bare hbare]
  have hoccupy : u.occupy n m' a = u.occupy n m a := by
    rw [Move.eq_of_bare hbare]
    rfl
  simp only [assign, Graph.isPlaced, move_eq_ok.2 ⟨hvalid, hm'⟩, ok_bind, pure_bind, hplaced, fit_congr hs, hfit,
    hoccupy, hsrc, hdst, h1', h2', hset]
  rfl

end

/-- If `n` left its cycle and were put back on it, it would find the place it had. -/
def Regains (machine : Machine) (u : Usage) (g : Graph) (n : MoveId) : Prop :=
  ∀ m p u' g', g.move? n = some m → m.placement = some p → u.unassign g n = .ok (u', g') →
    ∃ g'', u'.assign machine g' p.cycle n = .ok (u, g'')

theorem assign_of_leaves {p : Placement} (hu : u.Orderly g) (h : Leaves u g n m a u' g') (hp : m.placement = some p)
    (hback : ∃ g'', u'.assign machine g' p.cycle n = .ok (u, g'')) (hr : g'.Resembles h') :
    ∃ k, u'.assign machine h' p.cycle n = .ok (u, k) ∧ g.Resembles k := by
  obtain ⟨g'', hback⟩ := hback
  obtain ⟨k, hk⟩ := exists_assign hr.moves hback
  obtain ⟨m', a', htakes⟩ := takes_of_assign ((h.orderly hu).congr (.of_sameMoves hr.moves)) hk
  have hassigned : u.assignments[n]? = some a' := by
    rw [htakes.usage]
    simp
  cases h.assigned.symm.trans hassigned
  obtain ⟨-, hm⟩ := move_eq_ok.1 h.move
  have hplace : some (⟨a.cycle, a.bus⟩ : Placement) = some p := by
    rw [← hp, ← hu.entered hm, h.assigned, Option.map_some]
  cases hplace
  refine ⟨k, hk, h.replaces.undo hr htakes.replaces.toAlters (fun m3 m4 hm3 hbare3 => ?_) (fun o op ho => ?_)
    (fun _ => rfl) (fun _ => rfl) h.replaces.frame htakes.replaces.frame⟩
  · cases hm.symm.trans hm3
    rw [Move.eq_of_bare hbare3, ← hp]
    rfl
  · rw [← hu.unit ho]

/-- A move that was just placed can leave and come back. -/
theorem regains_of_assign (hu : u.Orderly g) (hg : g.Consistent) (h : u.assign machine g c n = .ok (u', g')) :
    Regains machine u' g' n := by
  intro m p u2 g2 hm hp hleave
  obtain ⟨m0, a, htakes⟩ := takes_of_assign hu h
  obtain ⟨k, hk, hr⟩ := unassign_of_takes hu htakes (.refl (htakes.replaces.consistent hg))
  cases hk.symm.trans hleave
  rw [htakes.replaces.move?, if_pos rfl, (move_eq_ok.1 htakes.move).2] at hm
  cases hm
  cases hp
  exact exists_assign hr.moves h

end Usage

end Transport
