import Transport.Proofs.Resource.Shift

/-!
# Placing keeps the accounts

`Sound` is kept by every `assign` and `unassign`. The lemmas about `Shift` say how the events of
a graph change when one move's place does; after that, each promise is looked at from the side of
the move that was placed last, whose fit has asked the matching question.
-/

namespace Transport

open Transport.Graph

variable {X : MoveId → Prop} {machine : Machine} {u u' : Usage} {g g' : Graph} {c : Cycle} {n x : MoveId} {m : Move}
  {a : Assignment} {o : OpId} {v : UnitId} {p : Option Placement}

/-- A started operation runs on the unit it is bound to. -/
theorem SoundBut.runsOn_of_starts (hs : SoundBut X machine u g) {t : Cycle} (ht : g.StartsAt o x t)
    (hv : u.boundUnit o = some v) : g.RunsOn o v := by
  obtain ⟨m, hm, hd, -⟩ := ht
  obtain ⟨op, hop⟩ := hs.formed.dst_known hm hd
  exact (hs.accounts.runsOn_iff hop).2 hv

theorem SoundBut.runsOn_of_writes (hs : SoundBut X machine u g) {k : Nat} {t : Cycle}
    (hw : g.WritesAt o x k t) (hv : u.boundUnit o = some v) : g.RunsOn o v := by
  obtain ⟨m, -, hm, hd, -⟩ := hw
  obtain ⟨op, hop⟩ := hs.formed.dst_known hm hd
  exact (hs.accounts.runsOn_iff hop).2 hv

namespace Usage

namespace Shift

section

variable (h : u.Shift g n m p u' g')
include h

theorem move? : g'.move? x = if x = n then some { m with placement := p } else g.move? x := by
  obtain ⟨ops, rfl⟩ := h.graph
  show (g.modifyMove n fun m => { m with placement := p }).move? x = _
  rw [move?_modifyMove]
  split
  · rename_i hx; subst hx; rw [h.move]; rfl
  · rfl

theorem move?_self : g'.move? n = some { m with placement := p } := by
  rw [h.move?, if_pos rfl]

theorem move?_other (hx : x ≠ n) : g'.move? x = g.move? x := by
  rw [h.move?, if_neg hx]

theorem origin_op {op' : Operation} (ho : g'.op? o = some op') :
    ∃ op, g.op? o = some op ∧ op' = { op with unit? := u'.boundUnit o } := by
  rw [h.op?] at ho
  obtain ⟨op, hop, rfl⟩ := Option.map_eq_some_iff.1 ho
  exact ⟨op, hop, rfl⟩

theorem graph_bonds (hb : u.bonds o = g.bonds o) : u'.bonds o = g'.bonds o := by
  have hs := h.bonds o
  have hg := bonds_modifyMove (o := o) (f := fun m => { m with placement := p }) h.move
  obtain ⟨ops, rfl⟩ := h.graph
  have : Graph.bonds { g.modifyMove n fun m => { m with placement := p } with ops } o =
    (g.modifyMove n fun m => { m with placement := p }).bonds o := rfl
  omega

theorem formed (hg : g.Formed machine) : g'.Formed machine := by
  refine hg.congr ⟨?_, ?_⟩
  · intro x
    rw [h.move?]
    split
    · rename_i hx; subst hx; rw [h.move]; rfl
    · rfl
  · intro o
    rw [h.op?, Option.map_map]
    rfl

/-! ## Events -/

theorem startsAt {t : Cycle} : g'.StartsAt o x t ↔
    if x = n then m.dstOp = some o ∧ m.isTrigger ∧ p.map Placement.cycle = some t
    else g.StartsAt o x t := by
  unfold StartsAt
  rw [h.move?]
  split
  · simp [Move.isTrigger, Move.cycle?]
  · rfl

theorem takesAt {r : Cycle} : g'.TakesAt o x r ↔
    if x = n then m.live ∧ m.srcOp = some o ∧ p.map Placement.cycle = some r else g.TakesAt o x r := by
  unfold TakesAt
  rw [h.move?]
  split
  · simp [Move.cycle?]
  · rfl

theorem writesAt {k : Nat} {r : Cycle} : g'.WritesAt o x k r ↔
    if x = n then m.dstOp = some o ∧ (∃ t, m.dst = .input k t) ∧ p.map Placement.cycle = some r
    else g.WritesAt o x k r := by
  unfold WritesAt
  rw [h.move?]
  split
  · simp [Move.cycle?]
  · rfl

theorem runsOn : g'.RunsOn o v ↔ (g.op? o).isSome ∧ u'.boundUnit o = some v := by
  unfold RunsOn Graph.boundUnit
  rw [Option.bind_some, h.op?]
  cases g.op? o with
  | none => simp
  | some op => simp

end

end Shift

/-! ## Taking a move off its cycle -/

theorem boundUnit_of_runsOn {op : Option OpId} (h : ∀ o v, op = some o → g'.RunsOn o v → g.RunsOn o v)
    (hv : g'.boundUnit op = some v) : g.boundUnit op = some v := by
  cases op with
  | none => simp [Graph.boundUnit] at hv
  | some o => exact h o v rfl hv

theorem writePort?_of_runsOn (h : ∀ o v, m.dstOp = some o → g'.RunsOn o v → g.RunsOn o v) {q : Port}
    (hq : g'.writePort? m = some q) : g.writePort? m = some q := by
  unfold writePort? at *
  split at hq
  · exact hq
  · obtain ⟨v, hv, rfl⟩ := Option.map_eq_some_iff.1 hq
    rw [boundUnit_of_runsOn h hv]
    rfl
  · exact hq
  · exact hq
  · exact hq

theorem readPort?_of_runsOn (h : ∀ o v, m.srcOp = some o → g'.RunsOn o v → g.RunsOn o v) {q : Port}
    (hq : g'.readPort? m = some q) : g.readPort? m = some q := by
  unfold readPort? at *
  split at hq
  · exact hq
  · obtain ⟨v, hv, rfl⟩ := Option.map_eq_some_iff.1 hq
    rw [boundUnit_of_runsOn h hv]
    rfl
  · exact hq
  · exact hq
  · exact hq

namespace Unassigns

section

variable (h : u.Unassigns g n m a u' g')
include h

theorem accounts (hs : SoundBut X machine u g) : u'.Accounts g' := by
  have hacc := hs.accounts
  have hbonds : ∀ o, u'.bonds o = g'.bonds o := fun o => h.graph_bonds (hacc.bonds o)
  -- A move that is still placed keeps its operations bound.
  have hkeep : ∀ {x m' o}, g'.move? x = some m' → m'.isPlaced →
      (m'.srcOp = some o ∨ m'.dstOp = some o) → u'.boundUnit o = u.boundUnit o := by
    intro x m' o hm' hp ho
    have hpos : 0 < u'.bonds o := hbonds o ▸ bonds_pos_of_placed hm' hp ho
    obtain ⟨v, hv⟩ := Option.isSome_iff_exists.1 ((boundUnit_isSome h.pos).2 hpos)
    rw [hv, h.origin hv]
  -- The moves placed now are those placed before, without `n`.
  have hother : ∀ {x m'}, g'.move? x = some m' → m'.isPlaced → x ≠ n ∧ g.move? x = some m' := by
    intro x m' hm' hp
    rw [h.move?] at hm'
    split at hm'
    · cases hm'; simp [Move.isPlaced] at hp
    · rename_i hx; exact ⟨hx, hm'⟩
  constructor
  case assigned =>
    intro x m' q hm' hq
    have hp : m'.isPlaced := by simp [Move.isPlaced, hq]
    obtain ⟨hx, hm⟩ := hother hm' hp
    obtain ⟨a', ha', hc, hb, hsrc, hdst⟩ := hacc.assigned hm hq
    refine ⟨a', ?_, hc, hb, ?_, ?_⟩
    · rw [h.assignments, Std.ExtTreeMap.getElem?_erase, if_neg, ha']
      simpa [Std.LawfulEqOrd.compare_eq_iff_eq] using Ne.symm hx
    · rw [hsrc]
      cases ho : m'.srcOp with
      | none => rfl
      | some o => exact (hkeep hm' hp (.inl ho)).symm
    · rw [hdst]
      cases ho : m'.dstOp with
      | none => rfl
      | some o => exact (hkeep hm' hp (.inr ho)).symm
  case carries =>
    intro x m' q hm' hq
    obtain ⟨hx, hm⟩ := hother hm' (by simp [Move.isPlaced, hq])
    obtain ⟨p, hp⟩ := Option.isSome_iff_exists.1 h.placed
    obtain ⟨a', ha', hc, hb, -, -⟩ := hacc.assigned h.move hp
    rw [h.assigned] at ha'
    cases ha'
    rw [h.buses, Std.ExtTreeMap.getElem?_erase, if_neg, hacc.carries hm hq]
    rw [Std.LawfulEqOrd.compare_eq_iff_eq]
    intro hkey
    have hn := hacc.carries h.move hp
    rw [← hc, ← hb, hkey, hacc.carries hm hq] at hn
    exact hx (Option.some.inj hn)
  case triggered =>
    intro o x t v ht hv
    rw [h.startsAt] at ht
    split at ht
    · simp at ht
    rename_i hx
    have hv := h.origin hv
    refine h.triggers.2 ⟨hacc.triggered ht hv, ?_⟩
    rintro ⟨htr, v', hv', heq⟩
    obtain ⟨p, hp⟩ := Option.isSome_iff_exists.1 h.placed
    obtain ⟨a', ha', hc, -, -, hdst⟩ := hacc.assigned h.move hp
    rw [h.assigned] at ha'
    cases ha'
    cases heq
    rw [hdst] at hv'
    obtain ⟨o', ho', hb'⟩ := Option.bind_eq_some_iff.1 hv'
    have hn : g.StartsAt o' n a.cycle := ⟨m, h.move, ho', htr, by simp [Move.cycle?, hp, hc]⟩
    by_cases hoo : o = o'
    · subst hoo
      exact hx (hs.formed.startsAt_unique ht hn).1
    · exact hs.undisturbed.starts hoo (hs.runsOn_of_starts ht hv) (hs.runsOn_of_starts hn hb') ht hn
        rfl
  case bonds => exact hbonds
  case bonds_pos => exact fun hk => h.pos _ _ _ hk
  case unit =>
    intro o op' ho
    obtain ⟨op, -, rfl⟩ := h.origin_op ho
    rfl
  case unit_mem =>
    intro o op' v ho hv
    obtain ⟨op, hop, rfl⟩ := h.origin_op ho
    have hmem := hacc.unit_mem hop (h.origin hv)
    exact hmem

theorem runsOn_old (hacc : u.Accounts g) (hr : g'.RunsOn o v) : g.RunsOn o v := by
  obtain ⟨hsome, hv⟩ := h.runsOn.1 hr
  obtain ⟨op, hop⟩ := Option.isSome_iff_exists.1 hsome
  exact (hacc.runsOn_iff hop).2 (h.origin hv)

theorem startsAt_old {t : Cycle} (ht : g'.StartsAt o x t) : g.StartsAt o x t := by
  rw [h.startsAt] at ht
  split at ht
  · simp at ht
  · exact ht

theorem takesAt_old {r : Cycle} (hr : g'.TakesAt o x r) : g.TakesAt o x r := by
  rw [h.takesAt] at hr
  split at hr
  · simp at hr
  · exact hr

theorem writesAt_old {k : Nat} {r : Cycle} (hw : g'.WritesAt o x k r) : g.WritesAt o x k r := by
  rw [h.writesAt] at hw
  split at hw
  · simp at hw
  · exact hw

theorem undisturbed (hs : SoundBut X machine u g) : g'.Undisturbed X where
  starts hne hr hr' ht ht' := hs.undisturbed.starts hne (h.runsOn_old hs.accounts hr)
    (h.runsOn_old hs.accounts hr') (h.startsAt_old ht) (h.startsAt_old ht')
  operands hne hr hr' ht hw hw' hlt := hs.undisturbed.operands hne (h.runsOn_old hs.accounts hr)
    (h.runsOn_old hs.accounts hr') (h.startsAt_old ht) (h.writesAt_old hw) (h.writesAt_old hw') hlt
  results hne hr hr' hop' ht ht' hlt hread hx hn hn' := by
    obtain ⟨op, hop, rfl⟩ := h.origin_op hop'
    have hlate := hs.undisturbed.results hne (h.runsOn_old hs.accounts hr)
      (h.runsOn_old hs.accounts hr') hop (h.startsAt_old ht) (h.startsAt_old ht') hlt
      (h.takesAt_old hread) hx hn hn'
    exact hlate

theorem carried (hs : SoundBut X machine u g) : g'.Carried machine := by
  intro x m' q hm' hq
  rw [h.move?] at hm'
  split at hm'
  · cases hm'; simp at hq
  obtain ⟨bus, hbus, hw, hr, himm⟩ := hs.carried x m' q hm' hq
  have hold : ∀ o v, g'.RunsOn o v → g.RunsOn o v := fun _ _ => h.runsOn_old hs.accounts
  exact ⟨bus, hbus, fun q hq => hw q (writePort?_of_runsOn (fun o v _ => hold o v) hq),
    fun q hq => hr q (readPort?_of_runsOn (fun o v _ => hold o v) hq), himm⟩

theorem sound (hs : SoundBut X machine u g) : SoundBut X machine u' g' where
  formed := h.formed hs.formed
  accounts := h.accounts hs
  undisturbed := h.undisturbed hs
  carried := h.carried hs

end

end Unassigns

/-! ## Placing a move -/

namespace Assigns

variable {t c' : Cycle} {m' : Move} {w w' : MoveId} {k : Nat} {o' : OpId}

section

variable (h : u.Assigns machine g c n m a u' g')
include h

theorem fitted : (∃ xs, u.unitChoices g m.srcOp m.srcUnits = .ok xs ∧ a.srcUnit ∈ xs) ∧
      (∃ xs, u.unitChoices g m.dstOp [] = .ok xs ∧ a.dstUnit ∈ xs) ∧
      u.fitOn machine g c m a.srcUnit a.dstUnit = .ok (some a) := by
  obtain ⟨-, m', hm', hsrc, hdst, hon⟩ := fit_eq_some h.fit
  have hm := h.move
  rw [move?_of_move hm'] at hm
  cases hm
  exact ⟨hsrc, hdst, hon⟩

theorem srcUnit_eq : a.srcUnit = m.srcOp.bind u'.boundUnit := by
  cases ho : m.srcOp with
  | none =>
    obtain ⟨⟨xs, hxs, hx⟩, -, -⟩ := h.fitted
    have := isSome_of_mem_unitChoices hxs hx
    simpa [ho] using this
  | some o => obtain ⟨v, hv, hb⟩ := h.src ho; rw [Option.bind_some, hv, hb]

theorem dstUnit_eq : a.dstUnit = m.dstOp.bind u'.boundUnit := by
  cases ho : m.dstOp with
  | none =>
    obtain ⟨-, ⟨xs, hxs, hx⟩, -⟩ := h.fitted
    have := isSome_of_mem_unitChoices hxs hx
    simpa [ho] using this
  | some o => obtain ⟨v, hv, hb⟩ := h.dst ho; rw [Option.bind_some, hv, hb]

theorem unit_mem (hacc : u.Accounts g) {op : Operation}
    (hop : g.op? o = some op) (hv : u'.boundUnit o = some v) : v ∈ op.units := by
  have hchoice : ∀ {op' restrict xs x}, u.unitChoices g op' restrict = .ok xs → x ∈ xs →
      op' = some o → x = some v → v ∈ op.units := by
    rintro _ restrict xs _ hxs hx rfl rfl
    obtain ⟨h, -⟩ | ⟨o', v', ho, hv, hb | ⟨-, op', hop', hmem⟩⟩ := mem_unitChoices hxs hx
    · cases h
    · cases ho; cases hv; exact hacc.unit_mem hop hb
    · cases ho; cases hv
      rw [hop] at hop'
      cases hop'
      exact hmem
  obtain ⟨⟨ss, hss, hsrc⟩, ⟨ds, hds, hdst⟩, -⟩ := h.fitted
  obtain hv | ⟨ho, hv⟩ | ⟨ho, hv⟩ := h.origin hv
  · exact hacc.unit_mem hop hv
  · exact hchoice hss hsrc ho hv
  · exact hchoice hds hdst ho hv

/-- The operations of a move placed before stay where they are. -/
theorem boundUnit_old (hacc : u.Accounts g)
    (hm' : g.move? x = some m') (hp : m'.isPlaced) (ho : m'.srcOp = some o ∨ m'.dstOp = some o) :
    u'.boundUnit o = u.boundUnit o := by
  obtain ⟨v, hv⟩ := hacc.bound_of_placed hm' hp ho
  rw [hv, h.keeps hv]

theorem bus_free : ⟨c, a.bus⟩ ∉ u.buses ∧ ∃ dst src bus, destPort m.dst a.dstUnit = .ok dst ∧
      sourcePort m.src a.srcUnit = .ok src ∧ machine.buses[a.bus.val]? = some bus ∧
      bus.attaches dst ∧ (m.src.isImmediate = false → ∀ q, src = some q → bus.attaches q) ∧
      ∀ x, m.src = .immediate x → machine.longImmediates = 0 →
        immediateWidth x ≤ bus.immediateWidth := by
  obtain ⟨-, -, -, dst, src, hdst, -, hsrc, -, hbus⟩ := fitOn_eq_some h.fitted.2.2
  obtain ⟨hfree, bus, hb, hrest⟩ := busFor_eq_some hbus
  exact ⟨hfree, dst, src, bus, hdst, hsrc, hb, hrest⟩

theorem accounts (hacc : u.Accounts g) : u'.Accounts g' := by
  constructor
  case assigned =>
    intro x m' q hm' hq
    rw [h.move?] at hm'
    split at hm'
    · rename_i hx
      subst hx
      cases hm'
      cases hq
      obtain ⟨hc, -⟩ := fitOn_eq_some h.fitted.2.2
      exact ⟨a, by rw [h.assignments, Std.ExtTreeMap.getElem?_insert_self], hc, rfl, h.srcUnit_eq,
        h.dstUnit_eq⟩
    · rename_i hx
      have hp : m'.isPlaced := by simp [Move.isPlaced, hq]
      obtain ⟨a', ha', hc, hb, hsrc, hdst⟩ := hacc.assigned hm' hq
      refine ⟨a', ?_, hc, hb, ?_, ?_⟩
      · rw [h.assignments, Std.ExtTreeMap.getElem?_insert, if_neg, ha']
        simpa [Std.LawfulEqOrd.compare_eq_iff_eq] using Ne.symm hx
      · rw [hsrc]
        cases ho : m'.srcOp with
        | none => rfl
        | some o => exact (h.boundUnit_old hacc hm' hp (.inl ho)).symm
      · rw [hdst]
        cases ho : m'.dstOp with
        | none => rfl
        | some o => exact (h.boundUnit_old hacc hm' hp (.inr ho)).symm
  case carries =>
    intro x m' q hm' hq
    rw [h.move?] at hm'
    split at hm'
    · rename_i hx
      subst hx
      cases hm'
      cases hq
      rw [h.buses, Std.ExtTreeMap.getElem?_insert_self]
    · have hold := hacc.carries hm' hq
      rw [h.buses, Std.ExtTreeMap.getElem?_insert, if_neg, hold]
      rw [Std.LawfulEqOrd.compare_eq_iff_eq]
      intro hkey
      apply h.bus_free.1
      rw [hkey, Std.ExtTreeMap.mem_iff_isSome_getElem?, hold]
      rfl
  case triggered =>
    intro o x t v ht hv
    rw [h.startsAt] at ht
    rw [h.triggers]
    split at ht
    · obtain ⟨ho, htr, hc⟩ := ht
      cases hc
      obtain ⟨v', hv', hb⟩ := h.dst ho
      rw [hb] at hv
      cases hv
      exact .inr ⟨htr, v, hv', by simp [ho], rfl⟩
    · obtain ⟨m', hm', ho, -, hc⟩ := id ht
      rw [h.boundUnit_old hacc hm' (Move.isPlaced_of_cycle? hc) (.inr ho)] at hv
      exact .inl (hacc.triggered ht hv)
  case bonds => exact fun o => h.graph_bonds (hacc.bonds o)
  case bonds_pos => exact fun hk => h.pos _ _ _ hk
  case unit =>
    intro o op' ho
    obtain ⟨op, -, rfl⟩ := h.origin_op ho
    rfl
  case unit_mem =>
    intro o op' v ho hv
    obtain ⟨op, hop, rfl⟩ := h.origin_op ho
    have hmem := h.unit_mem hacc hop hv
    exact hmem

theorem runsOn_old (hacc : u.Accounts g)
    (hm' : g.move? x = some m') (hp : m'.isPlaced) (ho : m'.srcOp = some o ∨ m'.dstOp = some o)
    (hr : g'.RunsOn o v) : g.RunsOn o v := by
  obtain ⟨hsome, hv⟩ := h.runsOn.1 hr
  obtain ⟨op, hop⟩ := Option.isSome_iff_exists.1 hsome
  rw [h.boundUnit_old hacc hm' hp ho] at hv
  exact (hacc.runsOn_iff hop).2 hv

theorem boundUnit_new {op : Option OpId} (hv : g'.boundUnit op = some v) : op.bind u'.boundUnit = some v := by
  cases op with
  | none => simp [Graph.boundUnit] at hv
  | some o => exact (h.runsOn.1 hv).2

theorem carried (hs : SoundBut X machine u g) : g'.Carried machine := by
  intro x m' q hm' hq
  rw [h.move?] at hm'
  split at hm'
  · cases hm'
    cases hq
    obtain ⟨-, dst, src, bus, hdst, hsrc, hbus, hat, hat', himm⟩ := h.bus_free
    refine ⟨bus, hbus, ?_, ?_, himm⟩
    · intro q hq
      suffices q = dst by rw [this]; exact hat
      simp only [writePort?] at hq
      cases hd : m.dst with
      | register r => simp_all [destPort]
      | returnAddress => simp_all [destPort]
      | immediate | output => simp [hd] at hq
      | input k t =>
        simp only [hd] at hq
        obtain ⟨v, hv, rfl⟩ := Option.map_eq_some_iff.1 hq
        rw [hd, h.dstUnit_eq, h.boundUnit_new hv] at hdst
        simpa [destPort] using hdst
    · intro q hq
      simp only [readPort?] at hq
      cases hd : m.src with
      | register r => exact hat' (by simp [hd, Terminal.isImmediate]) q (by simp_all [sourcePort])
      | returnAddress => exact hat' (by simp [hd, Terminal.isImmediate]) q (by simp_all [sourcePort])
      | immediate | input => simp [hd] at hq
      | output k =>
        simp only [hd] at hq
        obtain ⟨v, hv, rfl⟩ := Option.map_eq_some_iff.1 hq
        rw [hd, h.srcUnit_eq, h.boundUnit_new hv] at hsrc
        simp only [sourcePort, Option.map_some, pure_eq_ok] at hsrc
        exact hat' (by simp [hd, Terminal.isImmediate]) _ hsrc.symm
  · have hp : m'.isPlaced := by simp [Move.isPlaced, hq]
    obtain ⟨bus, hbus, hw, hr, himm⟩ := hs.carried x m' q hm' hq
    exact ⟨bus, hbus,
      fun q hq => hw q (writePort?_of_runsOn
        (fun _ _ ho => h.runsOn_old hs.accounts hm' hp (.inr ho)) hq),
      fun q hq => hr q (readPort?_of_runsOn
        (fun _ _ ho => h.runsOn_old hs.accounts hm' hp (.inl ho)) hq), himm⟩

/-! ### The units -/

theorem dest_free (ho : m.dstOp = some o) (hr : g'.RunsOn o v) {t : Bool} (hd : m.dst = .input k t) :
    u.destFree machine g c m (.unitIn v k) = .ok true := by
  obtain ⟨-, -, -, dst, src, hdst, hfree, -⟩ := fitOn_eq_some h.fitted.2.2
  rw [h.dstUnit_eq, ho, Option.bind_some, (h.runsOn.1 hr).2, hd] at hdst
  simp only [destPort, pure_eq_ok] at hdst
  rw [hdst]
  exact hfree

theorem result_kept (hg : g.Formed machine)
    (ho : m.srcOp = some o) (hr : g'.RunsOn o v) : u.resultLost g v o c = .ok false := by
  obtain ⟨-, -, -, dst, src, -, -, hsrc, hfree, -⟩ := fitOn_eq_some h.fitted.2.2
  have hout := hg.src_output h.move
  rw [h.srcUnit_eq, ho, Option.bind_some, (h.runsOn.1 hr).2] at hsrc
  cases hd : m.src with
  | output k =>
    simp only [hd, sourcePort, Option.map_some, pure_eq_ok] at hsrc
    rw [← hsrc] at hfree
    exact sourceFree_output hfree ho
  | register | immediate | input | returnAddress => simp [ho, hd, Terminal.isOutput] at hout

theorem trigger_free (ho : m.dstOp = some o) (hr : g'.RunsOn o v) (ht : m.isTrigger) : ⟨c, v⟩ ∉ u.triggers ∧
      u.triggerDestroys g v o c = .ok false ∧
      ∃ k, m.dst = .input k true ∧ u.triggerStrands g v o k c = .ok false := by
  obtain ⟨k, hd⟩ := isTrigger_iff.1 ht
  obtain ⟨hfree, hdestroys, hstrands⟩ := destFree_trigger (h.dest_free ho hr hd) ho ht
  exact ⟨hfree, hdestroys, k, hd, hstrands⟩

section

variable (hs : SoundBut X machine u g)
include hs

theorem bound_of_starts (ht : g.StartsAt o x t) (hr : g'.RunsOn o v) : u.boundUnit o = some v := by
  obtain ⟨m', hm', ho, -, hc⟩ := ht
  obtain ⟨op, hop⟩ := hs.formed.dst_known hm' ho
  exact (hs.accounts.runsOn_iff hop).1
    (h.runsOn_old hs.accounts hm' (Move.isPlaced_of_cycle? hc) (.inr ho) hr)

theorem bound_of_writes (hw : g.WritesAt o x k t) (hr : g'.RunsOn o v) : u.boundUnit o = some v := by
  obtain ⟨m', -, hm', ho, -, hc⟩ := hw
  obtain ⟨op, hop⟩ := hs.formed.dst_known hm' ho
  exact (hs.accounts.runsOn_iff hop).1
    (h.runsOn_old hs.accounts hm' (Move.isPlaced_of_cycle? hc) (.inr ho) hr)

/-- A trigger placed now starts in another cycle than those placed before on its unit. -/
theorem starts_apart (ho : m.dstOp = some o) (ht : m.isTrigger) (hr : g'.RunsOn o v)
    (hr' : g'.RunsOn o' v) (ht' : g.StartsAt o' x t) : t ≠ c := by
  rintro rfl
  exact (h.trigger_free ho hr ht).1 (hs.accounts.triggered ht' (h.bound_of_starts hs ht' hr'))

section

variable (hne : o ≠ o') (hr : g'.RunsOn o v) (hr' : g'.RunsOn o' v)
include hne hr hr'

/-- A write placed now does not replace an operand that waits for its trigger. -/
theorem write_after_trigger {b : Bool} (ht : g.StartsAt o x t) (hw : g.WritesAt o w k c') (ho' : m.dstOp = some o')
    (hd : m.dst = .input k b) (hlt : c' < c) : t < c := by
  have hb := h.bound_of_starts hs ht hr
  by_cases htr : m.isTrigger
  · obtain ⟨-, -, k', hd', hstrands⟩ := h.trigger_free ho' hr' htr
    rw [hd] at hd'
    cases hd'
    have hbusy := (inputBusy_of_triggerStrands hs.formed hstrands).1
    have := (not_written_of_inputBusy hs.formed hbusy hne hb hw).2 x t ht
    lia
  · obtain ⟨t', -, hbusy⟩ := destFree_operand (h.dest_free ho' hr' hd) ho' (by simpa using htr)
    have := (not_written_of_inputBusy hs.formed hbusy hne hb hw).2 x t ht
    cases t' <;> simp only [holdWindow] at this <;> lia

/-- A trigger placed now finds its operands as they were written. -/
theorem trigger_before_write {c1 c2 : Cycle} (ho : m.dstOp = some o) (htr : m.isTrigger) (hwn : w ≠ n)
    (hw : g.WritesAt o w k c1) (hw' : g.WritesAt o' w' k c2) (hlt : c1 < c2) : c < c2 := by
  obtain ⟨mw, b, hmw, how, hdw, hcw⟩ := hw
  obtain ⟨-, -, k', -, hstrands⟩ := h.trigger_free ho hr htr
  cases b with
  | true =>
    have htw : mw.isTrigger := isTrigger_iff.2 ⟨k, hdw⟩
    exact absurd (hs.formed.one_trigger hmw h.move how ho htw htr) hwn
  | false =>
    have hbusy := (inputBusy_of_triggerStrands hs.formed hstrands).2 w mw k c1 hmw how hdw hcw
    have := (not_written_of_inputBusy hs.formed hbusy hne.symm (h.bound_of_writes hs hw' hr') hw').1
    lia

/-- An operand placed now is not replaced before its trigger. -/
theorem operand_before_write {b : Bool} (ho : m.dstOp = some o) (hd : m.dst = .input k b) (hxn : x ≠ n)
    (ht : g.StartsAt o x t) (hw' : g.WritesAt o' w' k c') (hlt : c < c') : t < c' := by
  have htr : m.isTrigger = false := by
    cases htr : m.isTrigger with
    | false => rfl
    | true =>
      obtain ⟨mx, hmx, hox, htx, -⟩ := ht
      exact absurd (hs.formed.one_trigger hmx h.move hox ho htx htr) hxn
  obtain ⟨t', ht', hbusy⟩ := destFree_operand (h.dest_free ho hr hd) ho htr
  obtain rfl := hs.formed.triggerCycle_eq ht ht'
  have := (not_written_of_inputBusy hs.formed hbusy hne.symm (h.bound_of_writes hs hw' hr') hw').1
  simp only [holdWindow] at this
  lia

end

theorem undisturbed : g'.Undisturbed X := by
  have hcycle : ∀ {q}, (some (⟨c, a.bus⟩ : Placement)).map Placement.cycle = some q → c = q :=
    fun hq => Option.some.inj hq
  constructor
  case starts =>
    intro o o' v x x' t t' hne hr hr' ht ht'
    rw [h.startsAt] at ht ht'
    split at ht <;> split at ht'
    · exact absurd (ht.1.symm.trans ht'.1) (by simpa using hne)
    · rw [← hcycle ht.2.2]
      exact (h.starts_apart hs ht.1 ht.2.1 hr hr' ht').symm
    · rw [← hcycle ht'.2.2]
      exact h.starts_apart hs ht'.1 ht'.2.1 hr' hr ht
    · exact hs.undisturbed.starts hne (hs.runsOn_of_starts ht (h.bound_of_starts hs ht hr))
        (hs.runsOn_of_starts ht' (h.bound_of_starts hs ht' hr')) ht ht'
  case operands =>
    intro o o' v x w w' k t c1 c2 hne hr hr' ht hw hw' hlt
    rw [h.startsAt] at ht
    rw [h.writesAt] at hw hw'
    split at hw'
    · -- The write that could replace the operand is the new one, so the others are old.
      obtain ⟨ho', ⟨b, hd⟩, hc⟩ := hw'
      rw [← hcycle hc] at hlt ⊢
      have hold : ∀ {q}, m.dstOp = some o ∧ q → False :=
        fun hq => hne (Option.some.inj (hq.1.symm.trans ho'))
      split at ht
      · exact (hold ht).elim
      · split at hw
        · exact (hold hw).elim
        · exact h.write_after_trigger hs hne hr hr' ht hw ho' hd hlt
    · split at ht <;> split at hw
      · have := hcycle ht.2.2
        have := hcycle hw.2.2
        lia
      · rename_i hwn
        rw [← hcycle ht.2.2]
        exact h.trigger_before_write hs hne hr hr' ht.1 ht.2.1 hwn hw hw' hlt
      · rename_i hxn _
        obtain ⟨ho, ⟨b, hd⟩, hc⟩ := hw
        rw [← hcycle hc] at hlt
        exact h.operand_before_write hs hne hr hr' ho hd hxn ht hw' hlt
      · exact hs.undisturbed.operands hne (hs.runsOn_of_starts ht (h.bound_of_starts hs ht hr))
          (hs.runsOn_of_writes hw' (h.bound_of_writes hs hw' hr')) ht hw hw' hlt
  case results =>
    intro o o' v op' x x' w t t' r hne hr hr' hop' ht ht' hlt hread hX hwx hwx'
    obtain ⟨op, hop, rfl⟩ := h.origin_op hop'
    show ArrivesAfter op t' r
    rw [h.startsAt] at ht ht'
    rw [h.takesAt] at hread
    split at hread
    · rename_i hwn
      subst hwn
      rw [if_neg (Ne.symm hwx)] at ht
      rw [if_neg (Ne.symm hwx')] at ht'
      rw [← hcycle hread.2.2]
      exact arrivesAfter_of_resultLost hs.formed (h.result_kept hs.formed hread.2.1 hr) ht hne.symm
        (h.bound_of_starts hs ht' hr') ht' hop hlt
    · split at ht
      · obtain ⟨ho, htr, hc⟩ := ht
        rw [← hcycle hc] at hlt
        split at ht'
        · exact absurd (ho.symm.trans ht'.1) (by simpa using hne)
        obtain ⟨op0, hop0⟩ := hs.formed.dst_known h.move ho
        exact (arrivesAfter_of_triggerDestroys hs.formed (h.trigger_free ho hr htr).2.1 hop0
          hne.symm (h.bound_of_starts hs ht' hr') ht' hop).2 hlt hread
      · split at ht'
        · obtain ⟨ho', htr', hc'⟩ := ht'
          rw [← hcycle hc'] at hlt ⊢
          obtain ⟨mx, hmx, hox, -⟩ := id ht
          obtain ⟨op0, hop0⟩ := hs.formed.dst_known hmx hox
          exact (arrivesAfter_of_triggerDestroys hs.formed (h.trigger_free ho' hr' htr').2.1 hop
            hne (h.bound_of_starts hs ht hr) ht hop0).1 hlt hread
        · exact hs.undisturbed.results hne (hs.runsOn_of_starts ht (h.bound_of_starts hs ht hr))
            (hs.runsOn_of_starts ht' (h.bound_of_starts hs ht' hr')) hop ht ht' hlt hread hX hwx hwx'

theorem sound : SoundBut X machine u' g' where
  formed := h.formed hs.formed
  accounts := h.accounts hs.accounts
  undisturbed := h.undisturbed hs
  carried := h.carried hs

end

end

end Assigns

end Usage

end Transport
