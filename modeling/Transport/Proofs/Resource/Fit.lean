import Transport.Proofs.Dependence.WellFormed

/-!
# What a fit promises

A move fits into a cycle only after a series of questions about the units, each answered from the
moves placed so far. The lemmas here turn every answer into a statement about the events of the
operations on the unit: `StartsAt`, `TakesAt` and `WritesAt`.
-/

namespace Transport.Usage

open Transport.Graph

variable {machine : Machine} {u : Usage} {g : Graph} {c : Cycle} {n : MoveId} {m : Move} {o o' : OpId}
  {v : UnitId} {a : Assignment} {b : BusId} {r t t' : Cycle} {n' : MoveId} {k : Nat} {op' : Operation}

theorem mem_othersOn : o' ∈ u.othersOn v o ↔ o' ≠ o ∧ u.boundUnit o' = some v := by
  simp only [othersOn, List.mem_map, List.mem_filter, boundUnit, Option.map_eq_some_iff,
    Prod.exists, Std.ExtTreeMap.mem_toList_iff_getElem?_eq_some, Bool.and_eq_true,
    decide_eq_true_eq]
  constructor
  · rintro ⟨o', v', k, ⟨h, hne, rfl⟩, rfl⟩; exact ⟨hne, v', k, h, rfl⟩
  · rintro ⟨hne, v', k, h, rfl⟩; exact ⟨o', v', k, ⟨h, hne, rfl⟩, rfl⟩

/-! ## Taking a fit apart -/

/-- A chosen unit is the bound one, or one of the operation's own if none is bound. -/
theorem mem_unitChoices {op : Option OpId} {restrict : List UnitId} {xs : List (Option UnitId)}
    (h : u.unitChoices g op restrict = .ok xs) {x : Option UnitId} (hx : x ∈ xs) :
    (op = none ∧ x = none) ∨ ∃ o v, op = some o ∧ x = some v ∧ (u.boundUnit o = some v ∨
      u.boundUnit o = none ∧ ∃ op, g.op? o = some op ∧ v ∈ op.units) := by
  cases op with
  | none =>
    simp only [unitChoices, pure_eq_ok] at h
    subst h
    exact .inl ⟨rfl, List.mem_singleton.1 hx⟩
  | some o =>
    refine .inr ⟨o, ?_⟩
    cases hb : u.boundUnit o with
    | some v =>
      simp only [unitChoices, hb, pure_eq_ok] at h
      subst h
      exact ⟨v, rfl, List.mem_singleton.1 hx, .inl rfl⟩
    | none =>
      simp only [unitChoices, hb, bind_eq_ok, pure_eq_ok] at h
      obtain ⟨op, hop, rfl⟩ := h
      obtain ⟨v, hv, rfl⟩ := List.mem_map.1 hx
      exact ⟨v, rfl, rfl, .inr ⟨rfl, op, op?_of_op hop, (List.mem_filter.1 hv).1⟩⟩

theorem fitOn_eq_some {s d : Option UnitId} (h : u.fitOn machine g c m s d = .ok (some a)) :
    a.cycle = c ∧ a.srcUnit = s ∧ a.dstUnit = d ∧ ∃ dst src,
      destPort m.dst d = .ok dst ∧ u.destFree machine g c m dst = .ok true ∧
      sourcePort m.src s = .ok src ∧ u.sourceFree machine g c m src = .ok true ∧
      u.busFor machine c m.src src dst = some (a.bus, a.long) := by
  simp only [fitOn, bind_eq_ok] at h
  obtain ⟨dst, hdst, x, hx, h⟩ := h
  cases x with
  | false => simp at h
  | true =>
    simp only [if_true, bind_eq_ok] at h
    obtain ⟨src, hsrc, y, hy, h⟩ := h
    cases y with
    | false => simp at h
    | true =>
      simp only [if_true, pure_eq_ok, Option.map_eq_some_iff] at h
      obtain ⟨⟨b, long⟩, hb, rfl⟩ := h
      exact ⟨rfl, rfl, rfl, dst, src, hdst, hx, hsrc, hy, hb⟩

theorem fit_eq_some (h : u.fit machine g c n = .ok (some a)) :
    0 ≤ c ∧ ∃ m, g.move n = .ok m ∧
      (∃ xs, u.unitChoices g m.srcOp m.srcUnits = .ok xs ∧ a.srcUnit ∈ xs) ∧
      (∃ xs, u.unitChoices g m.dstOp [] = .ok xs ∧ a.dstUnit ∈ xs) ∧
      u.fitOn machine g c m a.srcUnit a.dstUnit = .ok (some a) := by
  by_cases hc : c < 0
  · simp [fit, hc] at h
  simp only [fit, hc, if_false, bind_eq_ok] at h
  obtain ⟨m, hm, ss, hss, h⟩ := h
  obtain ⟨s, hs, h⟩ := findSomeM?_eq_some h
  simp only [bind_eq_ok] at h
  obtain ⟨ds, hds, h⟩ := h
  obtain ⟨d, hd, h⟩ := findSomeM?_eq_some h
  obtain ⟨-, hsrc, hdst, -⟩ := fitOn_eq_some h
  refine ⟨by lia, m, hm, ⟨ss, hss, hsrc ▸ hs⟩, ⟨ds, hds, hdst ▸ hd⟩, ?_⟩
  rw [hsrc, hdst]
  exact h

/-! ## Results stay until they are read -/

theorem check_of_add {a b s : Cycle} (h : Cycle.add a b = .ok s) : s = a + b :=
  (Cycle.check_eq_ok_iff.1 h).2

/-- The results of `other`, started at `t`, arrive after cycle `r`. -/
def ArrivesAfter (other : Operation) (t r : Cycle) : Prop :=
  ∃ s, Cycle.add t (Cycle.ofLatency other.latency) = .ok s ∧ r < s

/-- A read that is not too late comes before the results of all later operations on the unit. -/
theorem arrivesAfter_of_resultLost (hg : Formed machine g) (h : u.resultLost g v o r = .ok false) (ho : g.StartsAt o n t)
    (hne : o' ≠ o) (hb : u.boundUnit o' = some v) (ho' : g.StartsAt o' n' t')
    (hop' : g.op? o' = some op') (hlt : t < t') : ArrivesAfter op' t' r := by
  simp only [resultLost, bind_eq_ok] at h
  obtain ⟨x, hx, h⟩ := h
  obtain rfl := hg.triggerCycle_eq ho hx
  have h := anyM_eq_false.1 h o' (mem_othersOn.2 ⟨hne, hb⟩)
  simp only [bind_eq_ok] at h
  obtain ⟨y, hy, h⟩ := h
  obtain rfl := hg.triggerCycle_eq ho' hy
  have hlt : ¬ t' ≤ t := by lia
  simp only [hlt, if_false, bind_eq_ok, pure_eq_ok, decide_eq_false_iff_not] at h
  obtain ⟨op, hop, s, hs, h⟩ := h
  rw [op?_of_op hop] at hop'
  cases hop'
  exact ⟨s, hs, by lia⟩

theorem max?_of_mem {xs : List Cycle} {x : Cycle} (hx : x ∈ xs) :
    ∃ y, xs.max? = some y ∧ x ≤ y := by
  cases h : xs.max? with
  | none => rw [List.max?_eq_none_iff.1 h] at hx; cases hx
  | some y => exact ⟨y, rfl, (List.max?_eq_some_iff.1 h).2 x hx⟩

/-- A trigger that destroys nothing comes late enough for the results of earlier operations, and
early enough for its own results. -/
theorem arrivesAfter_of_triggerDestroys (hg : Formed machine g)
    {op : Operation} (h : u.triggerDestroys g v o t = .ok false) (hop : g.op? o = some op)
    (hne : o' ≠ o) (hb : u.boundUnit o' = some v) (ho' : g.StartsAt o' n' t')
    (hop' : g.op? o' = some op') :
    (t' < t → g.TakesAt o' n r → ArrivesAfter op t r) ∧
      (t < t' → g.TakesAt o n r → ArrivesAfter op' t' r) := by
  simp only [triggerDestroys, bind_eq_ok] at h
  obtain ⟨op1, hop1, h⟩ := h
  rw [op?_of_op hop1] at hop
  cases hop
  have h := anyM_eq_false.1 h o' (mem_othersOn.2 ⟨hne, hb⟩)
  simp only [bind_eq_ok] at h
  obtain ⟨op2, hop2, x, hx, h⟩ := h
  rw [op?_of_op hop2] at hop'
  cases hop'
  obtain rfl := hg.triggerCycle_eq ho' hx
  constructor
  · intro hlt hr
    obtain ⟨last, hlast, hle⟩ := max?_of_mem ((hg.mem_readCycles (op?_of_op hop2)).2 ⟨n, hr⟩)
    simp only [triggersClash, hlt, if_true, hlast, bind_eq_ok, pure_eq_ok,
      decide_eq_false_iff_not] at h
    obtain ⟨s, hs, h⟩ := h
    exact ⟨s, hs, by lia⟩
  · intro hlt hr
    obtain ⟨last, hlast, hle⟩ := max?_of_mem ((hg.mem_readCycles (op?_of_op hop1)).2 ⟨n, hr⟩)
    have hge : ¬ t' < t := by lia
    simp only [triggersClash, hge, if_false, hlt, if_true, hlast, bind_eq_ok, pure_eq_ok,
      decide_eq_false_iff_not] at h
    obtain ⟨s, hs, h⟩ := h
    exact ⟨s, hs, by lia⟩

/-! ## Operands stay until the trigger -/

/-- An input that is not busy is written by no other operation in the window, nor before it by an
operation that is triggered later. -/
theorem not_written_of_inputBusy (hg : Formed machine g) {lo hi c' : Cycle}
    (h : u.inputBusy g v o k lo hi = .ok false) (hne : o' ≠ o) (hb : u.boundUnit o' = some v)
    (hw : g.WritesAt o' n' k c') :
    ¬ (lo ≤ c' ∧ c' ≤ hi) ∧ ∀ n t, g.StartsAt o' n t → ¬ (c' ≤ hi ∧ lo ≤ t) := by
  obtain ⟨m, trigger, hm, hd, hk, hc⟩ := hw
  have h := anyM_eq_false.1 h o' (mem_othersOn.2 ⟨hne, hb⟩)
  simp only [bind_eq_ok, pure_eq_ok] at h
  obtain ⟨x, hx, op, hop, h⟩ := h
  have hmem : n' ∈ op.inputs := (hg.mem_inputs (op?_of_op hop)).2 ⟨m, hm, hd⟩
  have h := List.any_eq_false.1 h n' hmem
  have hwin : inputWindow g k x n' = some (holdWindow x c') := by
    simp [inputWindow, hm, hk, hc]
  simp only [hwin, Option.any_some, Bool.and_eq_true, decide_eq_true_eq, not_and] at h
  constructor
  · rintro ⟨hlo, hhi⟩
    cases x with
    | none => simp only [holdWindow] at h; exact h hhi hlo
    | some t => simp only [holdWindow] at h; have := h hhi; lia
  · rintro n t ht ⟨hhi, hlo⟩
    obtain rfl := hg.triggerCycle_eq ht hx
    simp only [holdWindow] at h
    have := h hhi
    lia

/-- A trigger that strands no operand finds its own port free, and every operand written before
still in place. -/
theorem inputBusy_of_triggerStrands (hg : Formed machine g) (h : u.triggerStrands g v o k t = .ok false) :
    u.inputBusy g v o k t t = .ok false ∧ ∀ n' m' k' c', g.move? n' = some m' → m'.dstOp = some o →
      m'.dst = .input k' false → m'.cycle? = some c' →
      u.inputBusy g v o k' (min c' t) t = .ok false := by
  simp only [triggerStrands, bind_eq_ok] at h
  obtain ⟨busy, hbusy, h⟩ := h
  cases busy with
  | true => simp at h
  | false =>
    refine ⟨hbusy, fun n' m' k' c' hm' hd hk hc => ?_⟩
    simp only [Bool.false_eq_true, if_false, bind_eq_ok] at h
    obtain ⟨op, hop, h⟩ := h
    have h := anyM_eq_false.1 h n' ((hg.mem_inputs (op?_of_op hop)).2 ⟨m', hm', hd⟩)
    simpa only [hm', hk, hc] using h

/-! ## Ports and buses -/

theorem destFree_trigger (h : u.destFree machine g c m (.unitIn v k) = .ok true)
    (ho : m.dstOp = some o) (ht : m.isTrigger) :
    ⟨c, v⟩ ∉ u.triggers ∧ u.triggerDestroys g v o c = .ok false ∧
      u.triggerStrands g v o k c = .ok false := by
  simp only [destFree, ho, ht, if_true] at h
  split at h
  · simp at h
  · split at h
    · simp at h
    · rename_i hfree
      simp only [bind_eq_ok] at h
      obtain ⟨x, hx, h⟩ := h
      cases x with
      | true => simp at h
      | false =>
        simp only [Bool.false_eq_true, if_false, bind_eq_ok, pure_eq_ok, Bool.not_eq_true'] at h
        obtain ⟨y, hy, rfl⟩ := h
        exact ⟨by simpa using hfree, hx, hy⟩

theorem destFree_operand (h : u.destFree machine g c m (.unitIn v k) = .ok true)
    (ho : m.dstOp = some o) (ht : m.isTrigger = false) :
    ∃ t, triggerCycle g o = .ok t ∧
      u.inputBusy g v o k (holdWindow t c).1 (holdWindow t c).2 = .ok false := by
  simp only [destFree, ho, ht] at h
  split at h
  · simp at h
  · simp only [Bool.false_eq_true, if_false, bind_eq_ok, pure_eq_ok, Bool.not_eq_true'] at h
    obtain ⟨t, htc, y, hy, rfl⟩ := h
    exact ⟨t, htc, hy⟩

theorem sourceFree_output (h : u.sourceFree machine g c m (some (.unitOut v k)) = .ok true)
    (ho : m.srcOp = some o) : u.resultLost g v o c = .ok false := by
  simp only [sourceFree, ho] at h
  split at h
  · simp at h
  · simp only [bind_eq_ok, pure_eq_ok, Bool.not_eq_true'] at h
    obtain ⟨x, hx, rfl⟩ := h
    exact hx

theorem freeBus_eq_some {suits : Bus → Bool} (h : u.freeBus machine c suits = some b) :
    ⟨c, b⟩ ∉ u.buses ∧ ∃ bus, machine.buses[b.val]? = some bus ∧ suits bus := by
  have h := List.find?_some h
  simp only [Bool.and_eq_true, Bool.not_eq_true', Option.any_eq_true] at h
  exact ⟨by rw [Std.ExtTreeMap.mem_iff_contains, h.1]; exact Bool.false_ne_true, h.2⟩

/-- The bus of a transport is free, joins its ports and has room for its immediate. -/
theorem busFor_eq_some {src : Terminal} {srcPort : Option Port} {dst : Port}
    {long : Bool} (h : u.busFor machine c src srcPort dst = some (b, long)) :
    ⟨c, b⟩ ∉ u.buses ∧ ∃ bus, machine.buses[b.val]? = some bus ∧ bus.attaches dst ∧
      (src.isImmediate = false → ∀ p, srcPort = some p → bus.attaches p) ∧
      (∀ x, src = .immediate x → machine.longImmediates = 0 →
        immediateWidth x ≤ bus.immediateWidth) := by
  unfold busFor at h
  split at h
  · rename_i x srcPort
    split at h
    · rename_i b' hb
      cases h
      obtain ⟨hfree, bus, hbus, hsuits⟩ := freeBus_eq_some hb
      simp only [Bool.and_eq_true, decide_eq_true_eq] at hsuits
      refine ⟨hfree, bus, hbus, hsuits.1, by simp [Terminal.isImmediate], ?_⟩
      intro y hy _
      cases hy
      exact hsuits.2
    · split at h
      · rename_i hlong
        obtain ⟨b', hb, hpair⟩ := Option.map_eq_some_iff.1 h
        cases hpair
        obtain ⟨hfree, bus, hbus, hsuits⟩ := freeBus_eq_some hb
        refine ⟨hfree, bus, hbus, hsuits, by simp [Terminal.isImmediate], ?_⟩
        intro y _ hzero
        omega
      · cases h
  · rename_i p himm
    obtain ⟨b', hb, hpair⟩ := Option.map_eq_some_iff.1 h
    cases hpair
    obtain ⟨hfree, bus, hbus, hsuits⟩ := freeBus_eq_some hb
    simp only [Bool.and_eq_true] at hsuits
    refine ⟨hfree, bus, hbus, hsuits.2, ?_, fun y hy => (himm y hy).elim⟩
    intro _ q hq
    cases hq
    exact hsuits.1
  · cases h

end Transport.Usage
