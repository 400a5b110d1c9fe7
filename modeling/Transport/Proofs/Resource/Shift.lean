import Transport.Proofs.Resource.Binding

/-!
# One move gets or loses its place

`assign` and `unassign` taken apart, once and for all. `Shift` is what both have in common: one
move's place changes, and the bindings and units of its operations follow. `Assigns` and
`Unassigns` add what happens to the tables of the usage.
-/

namespace Transport.Usage

open Transport.Graph

variable {machine : Machine} {u u' : Usage} {g g' : Graph} {c : Cycle} {n : MoveId} {m : Move}
  {a : Assignment}

/-- Move `n` changes its place to `p`. -/
structure Shift (u : Usage) (g : Graph) (n : MoveId) (m : Move) (p : Option Placement)
    (u' : Usage) (g' : Graph) : Prop where
  valid : n ≠ .invalid
  move : g.move? n = some m
  graph : ∃ ops, g' = { g.modifyMove n fun m => { m with placement := p } with ops }
  op? (o : OpId) : g'.op? o = (g.op? o).map fun op => { op with unit? := u'.boundUnit o }
  bonds (o : OpId) : u'.bonds o + m.bonds o = u.bonds o + Move.bonds { m with placement := p } o
  pos : u'.BondsPos

/-- Move `n` is placed in cycle `c` as `a` says. -/
structure Assigns (machine : Machine) (u : Usage) (g : Graph) (c : Cycle) (n : MoveId) (m : Move)
    (a : Assignment) (u' : Usage) (g' : Graph) : Prop
    extends u.Shift g n m (some ⟨c, a.bus⟩) u' g' where
  pending : m.placement = none
  fit : u.fit machine g c n = .ok (some a)
  assignments : u'.assignments = u.assignments.insert n a
  buses : u'.buses = u.buses.insert ⟨c, a.bus⟩ n
  triggers {x : At UnitId} : x ∈ u'.triggers ↔
    x ∈ u.triggers ∨ m.isTrigger ∧ ∃ v, a.dstUnit = some v ∧ m.dstOp.isSome ∧ x = ⟨c, v⟩
  keeps {o : OpId} {v : UnitId} : u.boundUnit o = some v → u'.boundUnit o = some v
  src {o : OpId} : m.srcOp = some o → ∃ v, a.srcUnit = some v ∧ u'.boundUnit o = some v
  dst {o : OpId} : m.dstOp = some o → ∃ v, a.dstUnit = some v ∧ u'.boundUnit o = some v
  origin {o : OpId} {v : UnitId} : u'.boundUnit o = some v → u.boundUnit o = some v ∨
    m.srcOp = some o ∧ a.srcUnit = some v ∨ m.dstOp = some o ∧ a.dstUnit = some v

/-- Move `n` loses the place that `a` describes. -/
structure Unassigns (u : Usage) (g : Graph) (n : MoveId) (m : Move) (a : Assignment) (u' : Usage)
    (g' : Graph) : Prop extends u.Shift g n m none u' g' where
  placed : m.isPlaced
  assigned : u.assignments[n]? = some a
  assignments : u'.assignments = u.assignments.erase n
  buses : u'.buses = u.buses.erase ⟨a.cycle, a.bus⟩
  triggers {x : At UnitId} : x ∈ u'.triggers ↔
    x ∈ u.triggers ∧ ¬ (m.isTrigger ∧ ∃ v, a.dstUnit = some v ∧ x = ⟨a.cycle, v⟩)
  keeps {o : OpId} {v : UnitId} : u.boundUnit o = some v → 0 < u'.bonds o → u'.boundUnit o = some v
  origin {o : OpId} {v : UnitId} : u'.boundUnit o = some v → u.boundUnit o = some v

theorem isTrigger_iff : m.isTrigger ↔ ∃ k, m.dst = .input k true := by
  unfold Move.isTrigger Terminal.isTrigger
  cases m.dst <;> simp

/-! ## The tables -/

/-- The register port that a transport reads. -/
def readKey (m : Move) (a : Assignment) : Option (At FileId) := m.src.reg?.map fun r => ⟨a.cycle, r.file⟩

/-- The register port that it writes. -/
def writeKey (m : Move) (a : Assignment) : Option (At FileId) := m.dst.reg?.map fun r => ⟨a.cycle, r.file⟩

/-- The output of a unit that it reads. -/
def resultKey (m : Move) (a : Assignment) : Option (At UnitPort) :=
  match m.src, a.srcUnit with
  | .output k, some v => some ⟨a.cycle, v, k⟩
  | _, _ => none

/-- The input of a unit that it writes. -/
def inputKey (m : Move) (a : Assignment) : Option (At UnitPort) :=
  match m.dst, a.dstUnit with
  | .input k _, some v => some ⟨a.cycle, v, k⟩
  | _, _ => none

/-- The unit that it starts. -/
def triggerKey (m : Move) (a : Assignment) : Option (At UnitId) :=
  match m.dst, a.dstUnit with
  | .input _ true, some v => some ⟨a.cycle, v⟩
  | _, _ => none

def longKey (_ : Move) (a : Assignment) : Option Cycle := if a.long then some a.cycle else none

theorem triggerKey_eq_some {k : At UnitId} : triggerKey m a = some k ↔
    m.isTrigger ∧ ∃ v, a.dstUnit = some v ∧ k = ⟨a.cycle, v⟩ := by
  unfold triggerKey
  split
  · rename_i hd hv
    simp [Move.isTrigger, Terminal.isTrigger, hd, hv, eq_comm]
  · rename_i hnot
    refine ⟨nofun, ?_⟩
    rintro ⟨ht, v, hv, rfl⟩
    obtain ⟨k, hd⟩ := isTrigger_iff.1 ht
    exact (hnot k v hd hv).elim

theorem occupy_eq : u.occupy n m a = { u with
    buses := u.buses.insert ⟨a.cycle, a.bus⟩ n
    assignments := u.assignments.insert n a
    longImmediates := (longKey m a).elim u.longImmediates (countUp u.longImmediates)
    fileReads := (readKey m a).elim u.fileReads (countUp u.fileReads)
    results := (resultKey m a).elim u.results fun k => m.srcOp.elim u.results (ownUp u.results k)
    fileWrites := (writeKey m a).elim u.fileWrites (countUp u.fileWrites)
    inputs := (inputKey m a).elim u.inputs fun k => m.dstOp.elim u.inputs fun _ => u.inputs.insert k n
    triggers := (triggerKey m a).elim u.triggers fun k => m.dstOp.elim u.triggers (u.triggers.insert k) } := by
  unfold occupy readKey resultKey writeKey inputKey triggerKey longKey
  cases a.long <;> cases m.src <;> cases a.srcUnit <;> cases m.srcOp
  all_goals
    cases m.dst with
    | input k trigger => cases a.dstUnit <;> cases m.dstOp <;> cases trigger <;> rfl
    | _ => rfl

theorem vacate_eq : u.vacate n m a = { u with
    buses := u.buses.erase ⟨a.cycle, a.bus⟩
    assignments := u.assignments.erase n
    longImmediates := (longKey m a).elim u.longImmediates (countDown u.longImmediates)
    fileReads := (readKey m a).elim u.fileReads (countDown u.fileReads)
    results := (resultKey m a).elim u.results (ownDown u.results)
    fileWrites := (writeKey m a).elim u.fileWrites (countDown u.fileWrites)
    inputs := (inputKey m a).elim u.inputs u.inputs.erase
    triggers := (triggerKey m a).elim u.triggers u.triggers.erase } := by
  unfold vacate readKey resultKey writeKey inputKey triggerKey longKey
  cases a.long <;> cases m.src <;> cases a.srcUnit
  all_goals
    cases m.dst with
    | input k trigger => cases a.dstUnit <;> cases trigger <;> rfl
    | _ => rfl

section Tables

variable (u : Usage) (n : MoveId) (m : Move) (a : Assignment) {x : At UnitId}

@[simp] theorem bindings_occupy : (u.occupy n m a).bindings = u.bindings := by rw [occupy_eq]

@[simp] theorem assignments_occupy :
    (u.occupy n m a).assignments = u.assignments.insert n a := by rw [occupy_eq]

@[simp] theorem buses_occupy : (u.occupy n m a).buses = u.buses.insert ⟨a.cycle, a.bus⟩ n := by rw [occupy_eq]

theorem mem_triggers_occupy : x ∈ (u.occupy n m a).triggers ↔
    x ∈ u.triggers ∨ m.isTrigger ∧ ∃ v, a.dstUnit = some v ∧ m.dstOp.isSome ∧ x = ⟨a.cycle, v⟩ := by
  rw [occupy_eq]
  cases hk : triggerKey m a with
  | some k =>
    obtain ⟨ht, v, hv, rfl⟩ := triggerKey_eq_some.1 hk
    cases m.dstOp with
    | none => simp
    | some o => simp [ht, hv, or_comm, eq_comm (a := x)]
  | none =>
    refine ⟨.inl, Or.rec id ?_⟩
    rintro ⟨ht, v, hv, -, rfl⟩
    cases hk.symm.trans (triggerKey_eq_some.2 ⟨ht, v, hv, rfl⟩)

@[simp] theorem bindings_vacate : (u.vacate n m a).bindings = u.bindings := by rw [vacate_eq]

@[simp] theorem assignments_vacate : (u.vacate n m a).assignments = u.assignments.erase n := by rw [vacate_eq]

@[simp] theorem buses_vacate : (u.vacate n m a).buses = u.buses.erase ⟨a.cycle, a.bus⟩ := by rw [vacate_eq]

theorem mem_triggers_vacate : x ∈ (u.vacate n m a).triggers ↔
    x ∈ u.triggers ∧ ¬ (m.isTrigger ∧ ∃ v, a.dstUnit = some v ∧ x = ⟨a.cycle, v⟩) := by
  rw [vacate_eq]
  cases hk : triggerKey m a with
  | some k =>
    obtain ⟨ht, v, hv, rfl⟩ := triggerKey_eq_some.1 hk
    simp [ht, hv, and_comm, eq_comm (a := x)]
  | none =>
    exact ⟨fun h => ⟨h, fun hx => Option.some_ne_none _ ((triggerKey_eq_some.2 hx).symm.trans hk)⟩, And.left⟩

end Tables

/-! ## The two steps -/

theorem bonds_congr (h : u'.bindings = u.bindings) (o : OpId) : u'.bonds o = u.bonds o := by
  unfold bonds; rw [h]

theorem boundUnit_congr (h : u'.bindings = u.bindings) (o : OpId) :
    u'.boundUnit o = u.boundUnit o := by
  unfold boundUnit; rw [h]

theorem boundUnit_occupy (o : OpId) : (u.occupy n m a).boundUnit o = u.boundUnit o :=
  boundUnit_congr (bindings_occupy u n m a) o

theorem boundUnit_vacate (o : OpId) : (u.vacate n m a).boundUnit o = u.boundUnit o :=
  boundUnit_congr (bindings_vacate u n m a) o

theorem isSome_of_mem_unitChoices {op : Option OpId} {restrict : List UnitId}
    {xs : List (Option UnitId)} (h : u.unitChoices g op restrict = .ok xs) {x : Option UnitId}
    (hx : x ∈ xs) : x.isSome = op.isSome := by
  obtain ⟨rfl, rfl⟩ | ⟨o, v, rfl, rfl, _⟩ := mem_unitChoices h hx
  · rfl
  · rfl

theorem assigns_of_assign (hacc : u.Accounts g) (h : u.assign machine g c n = .ok (u', g')) :
    ∃ m a, u.Assigns machine g c n m a u' g' := by
  obtain ⟨m, a, u1, g1, g2, hm, hpending, hx, h1, h2, hset⟩ := assign_eq_ok h
  obtain ⟨-, -, rfl⟩ := setPlacement_ok hset
  obtain ⟨_, m'', hm'', ⟨ss, hss, hs⟩, ⟨ds, hds, hd⟩, hon⟩ := fit_eq_some hx
  rw [hm] at hm''
  cases hm''
  obtain ⟨hcycle, -⟩ := fitOn_eq_some hon
  subst hcycle
  have b1 := binds_of_bind (fun o op ho => (hacc.unit ho).trans (boundUnit_occupy o).symm) h1
  have b2 := binds_of_bind (fun o op ho => b1.unit? ho) h2
  obtain ⟨bind1, rfl⟩ := b1.usage
  obtain ⟨bind2, rfl⟩ := b2.usage
  obtain ⟨ops1, rfl⟩ := b1.graph
  obtain ⟨ops2, rfl⟩ := b2.graph
  have hsome := isSome_of_mem_unitChoices hss hs
  have hdsome := isSome_of_mem_unitChoices hds hd
  have hpos : (u.occupy n m a).BondsPos := by
    intro o v k hk
    rw [bindings_occupy] at hk
    exact hacc.bonds_pos hk
  refine ⟨m, a, ⟨⟨(move_eq_ok.1 hm).1, move?_of_move hm, ⟨ops2, rfl⟩, ?_, ?_, b2.pos (b1.pos hpos)⟩,
    hpending, hx, assignments_occupy u n m a, buses_occupy u n m a, mem_triggers_occupy u n m a,
    ?_, ?_, ?_, ?_⟩⟩
  · exact (b1.toRebinds.trans b2.toRebinds).op?
  · intro o
    rw [b2.bonds, b1.bonds, bonds_congr (bindings_occupy u n m a)]
    simp only [Move.bonds, Move.isPlaced, hpending, hsome, hdsome]
    cases m.srcOp <;> cases m.dstOp <;> simp [Nat.add_assoc]
  · intro o v hv
    exact b2.keeps (b1.keeps ((boundUnit_occupy o).trans hv))
  · intro o ho
    rw [ho, Option.isSome_some, Option.isSome_iff_exists] at hsome
    obtain ⟨v, hv⟩ := hsome
    exact ⟨v, hv, b2.keeps (b1.binds ho hv)⟩
  · intro o ho
    rw [ho, Option.isSome_some, Option.isSome_iff_exists] at hdsome
    obtain ⟨v, hv⟩ := hdsome
    exact ⟨v, hv, b2.binds ho hv⟩
  · intro o v hv
    rcases b2.origin hv with hv | hv
    · rcases b1.origin hv with hv | hv
      · exact .inl ((boundUnit_occupy o).symm.trans hv)
      · exact .inr (.inl hv)
    · exact .inr (.inr hv)

theorem unassigns_of_unassign (hacc : u.Accounts g) (h : u.unassign g n = .ok (u', g')) :
    ∃ m a, u.Unassigns g n m a u' g' := by
  obtain ⟨m, a, u1, g1, g2, hm, hplaced, ha, h1, h2, hset⟩ := unassign_eq_ok h
  obtain ⟨-, -, rfl⟩ := setPlacement_ok hset
  obtain ⟨p, hp⟩ := Option.isSome_iff_exists.1 hplaced
  obtain ⟨-, -, hsrc, hdst⟩ := of_some (hacc.assigned (move?_of_move hm) hp) ha
  have hpos : (u.vacate n m a).BondsPos := by
    intro o v k hk
    rw [bindings_vacate] at hk
    exact hacc.bonds_pos hk
  have b1 := unbinds_of_unbind hpos (fun o op ho => (hacc.unit ho).trans (boundUnit_vacate o).symm) h1
  have b2 := unbinds_of_unbind b1.pos (fun o op ho => b1.unit? ho) h2
  obtain ⟨bind1, rfl⟩ := b1.usage
  obtain ⟨bind2, rfl⟩ := b2.usage
  obtain ⟨ops1, rfl⟩ := b1.graph
  obtain ⟨ops2, rfl⟩ := b2.graph
  refine ⟨m, a, ⟨⟨(move_eq_ok.1 hm).1, move?_of_move hm, ⟨ops2, rfl⟩, ?_, ?_, b2.pos⟩,
    hplaced, ha, assignments_vacate u n m a, buses_vacate u n m a, mem_triggers_vacate u n m a,
    ?_, ?_⟩⟩
  · exact (b1.toRebinds.trans b2.toRebinds).op?
  · intro o
    have hsum := bonds_modifyMove (o := o) (f := fun m => { m with placement := none })
      (move?_of_move hm)
    have hs : (m.srcOp = some o ∧ a.srcUnit.isSome) ↔ (m.isPlaced && m.srcOp = some o) := by
      simp only [hplaced, Bool.true_and, decide_eq_true_eq, and_iff_left_iff_imp]
      intro ho
      obtain ⟨v, hv⟩ := hacc.bound_of_placed (move?_of_move hm) hplaced (.inl ho)
      simp [hsrc, ho, hv]
    have hd : (m.dstOp = some o ∧ a.dstUnit.isSome) ↔ (m.isPlaced && m.dstOp = some o) := by
      simp only [hplaced, Bool.true_and, decide_eq_true_eq, and_iff_left_iff_imp]
      intro ho
      obtain ⟨v, hv⟩ := hacc.bound_of_placed (move?_of_move hm) hplaced (.inr ho)
      simp [hdst, ho, hv]
    rw [b2.bonds, b1.bonds, bonds_congr (bindings_vacate u n m a), hacc.bonds]
    have hnone : Move.bonds { m with placement := none } o = 0 := by simp [Move.bonds, Move.isPlaced]
    have hself : m.bonds o = (if (m.isPlaced && m.srcOp = some o) then 1 else 0) +
      (if (m.isPlaced && m.dstOp = some o) then 1 else 0) := rfl
    simp only [hs, hd]
    omega
  · intro o v hv hb
    refine b2.keeps (b1.keeps ((boundUnit_vacate o).trans hv) ?_) hb
    rw [b2.bonds] at hb
    omega
  · intro o v hv
    exact (boundUnit_vacate o).symm.trans (b1.origin (b2.origin hv))

end Transport.Usage
