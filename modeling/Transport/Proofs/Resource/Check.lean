import Transport.Proofs.Resource.Placing

/-!
# Checking an accounted schedule

What `Graph.check` reports on a graph whose usage is `Sound`. The rules about buses, ports,
immediates, bindings, triggers and operands are never broken. The rule about results is broken in
one case only, `ChainedResultLost`. The main statements are `isOrder_iff_of_check` and
`check_eq_ok`.
-/

namespace Transport

/-- A move without a place or a latency that is not kept. -/
def Violation.isOrder : Violation → Bool
  | .unscheduled _ | .latencyViolated .. => true
  | _ => false

/-- Every unit and every bus of the machine has an identifier. -/
structure Machine.Addressable (m : Machine) : Prop where
  units : m.units.size ≤ 4294967295
  buses : m.buses.size ≤ 4294967295

namespace Graph

/-- In cycle `r` a result of an operation is carried by a move that triggers this operation or the
later one `op'`, which starts on the same unit in cycle `t'`. -/
def Chained (g : Graph) (op' : Operation) (t' r : Cycle) : Prop :=
  ∃ o o' v n n' w t, o ≠ o' ∧ g.RunsOn o v ∧ g.RunsOn o' v ∧ g.op? o' = some op' ∧
    g.StartsAt o n t ∧ g.StartsAt o' n' t' ∧ t < t' ∧ g.ReadsAt o w r ∧ (w = n ∨ w = n')

/-- A chained result is no longer there when it is carried on: the later operation has delivered
its own by then. -/
def ChainedResultLost (g : Graph) : Prop :=
  ∃ op' t' r, g.Chained op' t' r ∧ ¬ Usage.ArrivesAfter op' t' r

/-- The sums of cycles and latencies that a check forms fit the width of a cycle. -/
structure InRange (g : Graph) : Prop where
  links {e : EdgeId} {l : Link} {t h : Cycle} : g.link? e = some l → l.live → l.dep.isBack = false →
    (g.move? l.tail).bind Move.cycle? = some t → (g.move? l.head).bind Move.cycle? = some h →
    ∃ d s, g.linkLatency l = .ok d ∧ Cycle.add t d = .ok s
  chained {op' : Operation} {t' r : Cycle} : g.Chained op' t' r →
    ∃ s, Cycle.add t' (Cycle.ofLatency op'.latency) = .ok s

variable {machine : Machine} {u : Usage} {g : Graph} {n : MoveId} {m : Move} {o : OpId} {vs : List Violation}
  {x : Violation} {bus : Bus} {b : BusId} {r : Cycle} {e : EdgeId} {earlier ns : List MoveId}
  {others : List Start} {op : Operation} {s other : Start}

/-! ## Moves -/

section

variable (hb : machine.buses[b.val]? = some bus)
include hb

theorem isOnBus_eq_true {port : Option Port} {y : Bool} (hp : ∀ q, port = some q → bus.attaches q)
    (h : isOnBus machine b port = .ok y) : y = true := by
  cases port with
  | none => simp only [isOnBus, pure_eq_ok] at h; exact h.symm
  | some q =>
    simp only [isOnBus, Machine.busReaches, Machine.bus, bind_eq_ok, pure_eq_ok] at h
    obtain ⟨bus', hbus', rfl⟩ := h
    rw [(Id.fetch_eq_ok_iff.1 hbus').2] at hb
    cases hb
    exact hp q rfl

theorem checkPorts_eq (hw : ∀ q, g.writePort? m = some q → bus.attaches q)
    (hr : ∀ q, g.readPort? m = some q → bus.attaches q)
    (h : g.checkPorts machine n m b = .ok vs) : vs = [] := by
  simp only [checkPorts, bind_eq_ok] at h
  obtain ⟨y, hy, h⟩ := h
  obtain rfl := isOnBus_eq_true hb hw hy
  simp only [if_true, bind_eq_ok] at h
  obtain ⟨z, hz, h⟩ := h
  obtain rfl := isOnBus_eq_true hb hr hz
  simpa using h

theorem checkImmediate_eq (himm : ∀ z, m.src = .immediate z → machine.longImmediates = 0 →
      immediateWidth z ≤ bus.immediateWidth)
    (h : checkImmediate machine n m b = .ok vs) : vs = [] := by
  unfold checkImmediate at h
  split at h
  · rename_i z hz
    split at h
    · rename_i hlong
      simp only [Machine.bus, bind_eq_ok, pure_eq_ok] at h
      obtain ⟨bus', hbus', rfl⟩ := h
      rw [(Id.fetch_eq_ok_iff.1 hbus').2] at hb
      cases hb
      have := himm z hz hlong
      rw [if_neg (by omega)]
    · simpa using h
  · simpa using h

end

/-- A placed move breaks no rule, and one without a place only that one. -/
theorem checkMove_eq (hs : Sound machine u g) (hn : n ∉ earlier)
    (hm : g.move? n = some m) (h : g.checkMove machine earlier n = .ok vs) :
    vs = if m.isPlaced then [] else [.unscheduled n] := by
  have h := of_move_bind hm h
  cases hp : m.placement with
  | none =>
    simp only [hp, pure_eq_ok] at h
    simp [← h, Move.isPlaced, hp]
  | some p =>
    obtain ⟨bus, hbus, hw, hr, himm⟩ := hs.carried n m p hm hp
    have hholder : g.holder? earlier p = none := by
      rw [holder?, List.find?_eq_none]
      intro n' hn' hsame
      rw [Option.any_eq_true] at hsame
      obtain ⟨m2, hm2, hp2⟩ := hsame
      have hcarries := hs.accounts.carries hm2 (of_decide_eq_true hp2)
      cases (hs.accounts.carries hm hp).symm.trans hcarries
      exact hn hn'
    simp only [hp, bind_eq_ok, pure_eq_ok, hholder] at h
    obtain ⟨ports, hports, imms, himms, rfl⟩ := h
    rw [checkPorts_eq hbus hw hr hports, checkImmediate_eq hbus himm himms]
    simp [Move.isPlaced, hp]

theorem checkMoves_eq (hs : Sound machine u g)
    (hnodup : (earlier ++ ns).Nodup) (hns : ∀ n ∈ ns, ∃ m, g.move? n = some m)
    (h : g.checkMoves machine earlier ns = .ok vs) :
    vs = (ns.filter fun n => !(g.move? n).any Move.isPlaced).map .unscheduled := by
  induction ns generalizing earlier vs with
  | nil => simpa [checkMoves] using h
  | cons n ns ih =>
    simp only [checkMoves, bind_eq_ok, pure_eq_ok] at h
    obtain ⟨found, hfound, rest, hrest, rfl⟩ := h
    obtain ⟨m, hm⟩ := hns n (.head _)
    have hn : n ∉ earlier := by
      intro hmem
      exact (List.nodup_append.1 hnodup).2.2 n hmem n (.head _) rfl
    rw [checkMove_eq hs hn hm hfound, ih (by simpa using hnodup) (fun k hk => hns k (.tail _ hk)) hrest]
    cases hp : m.isPlaced <;> simp [hm, hp]

/-! ## Edges and operations -/

theorem checkLink_isOrder {l : Link} (h : g.checkLink e l = .ok vs) (hx : x ∈ vs) : x.isOrder := by
  unfold checkLink at h
  split at h
  · simp only [pure_eq_ok] at h; simp [← h] at hx
  split at h
  · simp only [bind_eq_ok, pure_eq_ok] at h
    obtain ⟨d, -, s, -, rfl⟩ := h
    split at hx
    · rw [List.mem_singleton.1 hx]; rfl
    · cases hx
  · simp only [pure_eq_ok] at h; simp [← h] at hx

theorem operation_isSome {v : UnitId} {opcode : String} {y : Option OperationDesc}
    (hv : v ∈ machine.unitsWith opcode) (h : machine.operation v opcode = .ok y) : y.isSome := by
  simp only [Machine.unitsWith, List.mem_filter, Option.any_eq_true] at hv
  obtain ⟨-, unit, hunit, hops⟩ := hv
  simp only [Machine.operation, Machine.unit, bind_eq_ok, pure_eq_ok] at h
  obtain ⟨unit', hunit', rfl⟩ := h
  rw [(Id.fetch_eq_ok_iff.1 hunit').2] at hunit
  cases hunit
  simpa using hops

theorem checkOperation_eq (hs : Sound machine u g) (h : g.checkOperation machine o = .ok vs) :
    vs = [] := by
  simp only [checkOperation, bind_eq_ok] at h
  obtain ⟨op, hop, h⟩ := h
  have hop := op?_of_op hop
  split at h
  · rename_i hany
    obtain ⟨n, hn, hp⟩ := List.any_eq_true.1 hany
    rw [Option.any_eq_true] at hp
    obtain ⟨m, hm, hp⟩ := hp
    have hbound : ∃ v, u.boundUnit o = some v := by
      rcases List.mem_append.1 hn with hn | hn
      · have ho := of_some ((hs.formed.mem_inputs hop).1 hn) hm
        exact hs.accounts.bound_of_placed hm hp (.inr ho)
      · obtain ⟨ho, -⟩ := of_some ((hs.formed.mem_outputs hop).1 hn) hm
        exact hs.accounts.bound_of_placed hm hp (.inl ho)
    obtain ⟨v, hv⟩ := hbound
    simp only [hs.accounts.unit hop, hv, bind_eq_ok, pure_eq_ok] at h
    obtain ⟨y, hy, rfl⟩ := h
    have := operation_isSome (hs.formed.units hop (hs.accounts.unit_mem hop hv)) hy
    simp [Option.isNone_iff_eq_none, Option.isSome_iff_ne_none.1 this]
  · simpa using h

/-! ## Units -/

theorem start?_eq_some (hg : g.Formed machine) :
    g.start? o = some s ↔ s.op = o ∧ g.RunsOn o s.unit ∧ ∃ n, g.StartsAt o n s.cycle := by
  constructor
  · intro h
    simp only [start?, Option.bind_eq_bind, Option.bind_eq_some_iff, pure, Option.some.injEq] at h
    obtain ⟨op, hop, unit, hunit, tr, htr, m, hm, cycle, hc, rfl⟩ := h
    obtain ⟨hd, ht⟩ := of_some (hg.trigger_of_find hop htr) hm
    exact ⟨rfl, by simp [RunsOn, boundUnit, hop, hunit], tr, m, hm, hd, ht, hc⟩
  · rintro ⟨rfl, hr, n, m, hm, hd, ht, hc⟩
    obtain ⟨op, hop⟩ := hg.dst_known hm hd
    have hunit : op.unit? = some s.unit := by simpa [RunsOn, boundUnit, hop] using hr
    simp [start?, hop, hunit, hg.find_trigger hop hm hd ht, hm, hc]

theorem mem_starts (hg : g.Formed machine) :
    s ∈ g.starts ↔ g.RunsOn s.op s.unit ∧ ∃ n, g.StartsAt s.op n s.cycle := by
  rw [starts, (sortBy_perm _ _).mem_iff, List.mem_filterMap]
  constructor
  · rintro ⟨o, -, hs⟩
    obtain ⟨rfl, h⟩ := (start?_eq_some hg).1 hs
    exact h
  · rintro ⟨hr, n, hn⟩
    obtain ⟨m, hm, hd, -⟩ := id hn
    exact ⟨s.op, mem_opIds.2 (hg.dst_known hm hd), (start?_eq_some hg).2 ⟨rfl, hr, n, hn⟩⟩

theorem starts_nodup (hg : g.Formed machine) : g.starts.Pairwise fun a b => a.op ≠ b.op := by
  rw [starts, (sortBy_perm _ _).pairwise_iff (fun h => Ne.symm h), List.pairwise_filterMap]
  have hids : g.opIds.Pairwise (· ≠ ·) := by
    rw [opIds, Id.below, List.pairwise_map]
    exact List.nodup_range.imp fun h hab => h (congrArg Id.val hab)
  refine hids.imp fun {o o'} hne s hs s' hs' => ?_
  rw [((start?_eq_some hg).1 hs).1, ((start?_eq_some hg).1 hs').1]
  exact hne

theorem triggerConflicts_eq_nil {ss : List Start}
    (h : ss.Pairwise fun a b => ¬ (a.unit = b.unit ∧ a.cycle = b.cycle)) :
    triggerConflicts ss = [] := by
  induction ss with
  | nil => rfl
  | cons a ss ih =>
    cases ss with
    | nil => rfl
    | cons b ss =>
      have hab := List.rel_of_pairwise_cons h (.head _)
      rw [triggerConflicts, ih h.of_cons, if_neg (by simpa using hab), List.nil_append]

theorem starts_apart (hs : Sound machine u g) : triggerConflicts g.starts = [] := by
  apply triggerConflicts_eq_nil
  refine (starts_nodup hs.formed).imp_of_mem fun {a b} ha hb hne => ?_
  rintro ⟨hunit, hcycle⟩
  obtain ⟨hra, na, hna⟩ := (mem_starts hs.formed).1 ha
  obtain ⟨hrb, nb, hnb⟩ := (mem_starts hs.formed).1 hb
  exact hs.undisturbed.starts hne hra (hunit ▸ hrb) hna hnb hcycle

theorem mem_operandWrites (hg : g.Formed machine) {k : Nat} {c : Cycle} :
    (n, k, c) ∈ g.operandWrites o ↔ g.WritesAt o n k c := by
  constructor
  · intro h
    cases hop : g.op? o with
    | none => simp [operandWrites, hop] at h
    | some op =>
      simp only [operandWrites, hop, Option.map_some, Option.getD_some, List.mem_filterMap,
        Option.bind_eq_bind, Option.bind_eq_some_iff] at h
      obtain ⟨n', hn', m, hm, h⟩ := h
      have hd := of_some ((hg.mem_inputs hop).1 hn') hm
      split at h
      · rename_i k' b c' hdst hc
        cases h
        exact ⟨m, b, hm, hd, hdst, hc⟩
      · cases h
  · rintro ⟨m, trigger, hm, hd, hdst, hc⟩
    obtain ⟨op, hop⟩ := hg.dst_known hm hd
    simp only [operandWrites, hop, Option.map_some, Option.getD_some, List.mem_filterMap,
      Option.bind_eq_bind, Option.bind_eq_some_iff]
    exact ⟨n, (hg.mem_inputs hop).2 ⟨m, hm, hd⟩, m, hm, by simp [hdst, hc]⟩

theorem overwrittenOperands_eq_nil (hs : Sound machine u g) (hmem : s ∈ g.starts)
    (hothers : ∀ other ∈ others, other ∈ g.starts ∧ other.unit = s.unit ∧ other.op ≠ s.op) :
    g.overwrittenOperands s others = [] := by
  rw [overwrittenOperands, List.flatMap_eq_nil_iff]
  rintro ⟨w, k, c⟩ hw
  rw [List.flatMap_eq_nil_iff]
  intro other hother
  obtain ⟨hmem', hunit, hne⟩ := hothers other hother
  obtain ⟨hr, n, hn⟩ := (mem_starts hs.formed).1 hmem
  obtain ⟨hr', -⟩ := (mem_starts hs.formed).1 hmem'
  rw [List.map_eq_nil_iff, List.filter_eq_nil_iff]
  rintro ⟨w', k', c'⟩ hw'
  simp only [Bool.and_eq_true, decide_eq_true_eq, not_and]
  rintro ⟨rfl, hlt⟩
  have := hs.undisturbed.operands hne.symm hr (hunit ▸ hr') hn
    ((mem_operandWrites hs.formed).1 hw) ((mem_operandWrites hs.formed).1 hw') hlt
  lia

theorem arrivesBefore_eq {y : Bool} {op' : Operation}
    (hop : g.op? other.op = some op') (h : g.arrivesBefore s other r = .ok y) :
    y = true ↔ s.cycle < other.cycle ∧ ¬ Usage.ArrivesAfter op' other.cycle r := by
  unfold arrivesBefore at h
  split at h
  · rename_i hle
    simp only [pure_eq_ok] at h
    simp only [← h, Bool.false_eq_true, false_iff, not_and]
    intro hlt
    lia
  · rename_i hgt
    simp only [bind_eq_ok, pure_eq_ok] at h
    obtain ⟨op, hop', sum, hsum, rfl⟩ := h
    rw [op?_of_op hop'] at hop
    cases hop
    rw [decide_eq_true_eq]
    constructor
    · intro hle
      refine ⟨by lia, ?_⟩
      rintro ⟨sum', hsum', hlt⟩
      rw [hsum] at hsum'
      cases hsum'
      lia
    · rintro ⟨-, hnot⟩
      by_cases hle : sum ≤ r
      · exact hle
      · exact absurd ⟨sum, hsum, by lia⟩ hnot

theorem mem_reads (hg : g.Formed machine) (hop : g.op? o = some op) : (n, r) ∈ op.outputs.filterMap (fun n =>
      ((g.move? n).bind Move.cycle?).map fun c => (n, c)) ↔ g.TakesAt o n r := by
  simp only [List.mem_filterMap, Option.map_eq_some_iff, Option.bind_eq_some_iff, Prod.mk.injEq]
  constructor
  · rintro ⟨n', hn', c, ⟨m, hm, hc⟩, rfl, rfl⟩
    obtain ⟨ho, hl⟩ := of_some ((hg.mem_outputs hop).1 hn') hm
    exact ⟨m, hm, hl, ho, hc⟩
  · rintro ⟨m, hm, hl, ho, hc⟩
    exact ⟨n, (hg.mem_outputs hop).2 ⟨m, hm, ho, hl⟩, r, ⟨m, hm, hc⟩, rfl, rfl⟩

theorem mem_overwrittenResults (hg : g.Formed machine)
    (h : g.overwrittenResults s others = .ok vs) : x ∈ vs ↔ ∃ n r other, g.TakesAt s.op n r ∧
      other ∈ others ∧ g.arrivesBefore s other r = .ok true ∧
      x = .resultOverwritten s.op other.op n := by
  simp only [overwrittenResults, bind_eq_ok, pure_eq_ok] at h
  obtain ⟨op, hop, found, hfound, rfl⟩ := h
  have hop := op?_of_op hop
  simp only [List.mem_flatten, mem_of_mapM_eq_ok hfound, bind_eq_ok, pure_eq_ok]
  constructor
  · rintro ⟨l, ⟨⟨n, r⟩, hn, writers, hw, rfl⟩, hx⟩
    obtain ⟨other, hother, rfl⟩ := List.mem_map.1 hx
    obtain ⟨hmem, harr⟩ := (mem_of_filterM_eq_ok hw).1 hother
    exact ⟨n, r, other, (mem_reads hg hop).1 hn, hmem, harr, rfl⟩
  · rintro ⟨n, r, other, hread, hmem, harr, rfl⟩
    have hread := (mem_reads hg hop).2 hread
    obtain ⟨l, hl⟩ := ok_of_mapM_eq_ok hfound hread
    simp only [bind_eq_ok, pure_eq_ok] at hl
    obtain ⟨writers, hw, rfl⟩ := hl
    refine ⟨_, ⟨(n, r), hread, writers, hw, rfl⟩, ?_⟩
    exact List.mem_map.2 ⟨other, (mem_of_filterM_eq_ok hw).2 ⟨hmem, harr⟩, rfl⟩

theorem arrivesBefore_ok (hg : g.Formed machine)
    (h : g.overwrittenResults s others = .ok vs) (hread : g.TakesAt s.op n r)
    (hother : other ∈ others) : ∃ y, g.arrivesBefore s other r = .ok y := by
  simp only [overwrittenResults, bind_eq_ok, pure_eq_ok] at h
  obtain ⟨op, hop, found, hfound, -⟩ := h
  obtain ⟨l, hl⟩ := ok_of_mapM_eq_ok hfound ((mem_reads hg (op?_of_op hop)).2 hread)
  simp only [bind_eq_ok] at hl
  obtain ⟨writers, hw, -⟩ := hl
  exact ok_of_filterM_eq_ok hw hother

section

variable (hs : Sound machine u g)
include hs

/-- A started operation is only hurt by one that replaces a result of it too early. -/
theorem mem_checkStart (hmem : s ∈ g.starts)
    (h : g.checkStart g.starts s = .ok vs) : x ∈ vs ↔ ∃ n r other op', g.TakesAt s.op n r ∧
      other ∈ g.starts ∧ other.unit = s.unit ∧ other.op ≠ s.op ∧ s.cycle < other.cycle ∧
      g.op? other.op = some op' ∧ ¬ Usage.ArrivesAfter op' other.cycle r ∧
      x = .resultOverwritten s.op other.op n := by
  simp only [checkStart, bind_eq_ok, pure_eq_ok] at h
  obtain ⟨results, hresults, rfl⟩ := h
  have hothers : ∀ {other : Start}, other ∈ g.starts.filter (fun other =>
      other.unit = s.unit && other.op ≠ s.op) ↔
      other ∈ g.starts ∧ other.unit = s.unit ∧ other.op ≠ s.op := by
    simp [List.mem_filter]
  rw [overwrittenOperands_eq_nil hs hmem fun other => hothers.1, List.nil_append,
    mem_overwrittenResults hs.formed hresults]
  constructor
  · rintro ⟨n, r, other, hread, hother, harr, rfl⟩
    obtain ⟨hmem', hunit, hne⟩ := hothers.1 hother
    obtain ⟨-, n', m', hm', hd', -⟩ := (mem_starts hs.formed).1 hmem'
    obtain ⟨op', hop'⟩ := hs.formed.dst_known hm' hd'
    obtain ⟨hlt, hlate⟩ := (arrivesBefore_eq hop' harr).1 rfl
    exact ⟨n, r, other, op', hread, hmem', hunit, hne, hlt, hop', hlate, rfl⟩
  · rintro ⟨n, r, other, op', hread, hmem', hunit, hne, hlt, hop', hlate, rfl⟩
    have hother := hothers.2 ⟨hmem', hunit, hne⟩
    obtain ⟨y, hy⟩ := arrivesBefore_ok hs.formed hresults hread hother
    have htrue := (arrivesBefore_eq hop' hy).2 ⟨hlt, hlate⟩
    exact ⟨n, r, other, hread, hother, htrue ▸ hy, rfl⟩

/-! ## The whole check -/

/-- What a check that ends reports: the moves without a place, the latencies, and what the units
do to results. -/
theorem check_eq (h : g.check machine = .ok vs) : ∃ links units,
    (g.entries g.edgeIds).mapM (fun (e, l) => g.checkLink e l) = .ok links ∧
    g.starts.mapM (g.checkStart g.starts) = .ok units ∧
    vs = (g.moveIds.filter fun n => !(g.move? n).any Move.isPlaced).map .unscheduled ++
      links.flatten ++ units.flatten := by
  simp only [check, bind_eq_ok, pure_eq_ok] at h
  obtain ⟨moves, hmoves, links, hlinks, ops, hops, units, hunits, rfl⟩ := h
  refine ⟨links, units, hlinks, hunits, ?_⟩
  have hnodup : ([] ++ g.moveIds).Nodup := by
    rw [List.nil_append, moveIds, Id.below]
    refine List.Pairwise.filter _ (List.pairwise_map.2 (List.nodup_range.imp ?_))
    exact fun hab heq => hab (congrArg Id.val heq)
  have hops : ops.flatten = [] := by
    rw [List.flatten_eq_nil_iff]
    intro l hl
    obtain ⟨o, -, ho⟩ := (mem_of_mapM_eq_ok hops).1 hl
    exact checkOperation_eq hs ho
  rw [checkMoves_eq hs hnodup (fun n hn => (mem_moveIds.1 hn).imp fun m hm => hm.1) hmoves, hops,
    starts_apart hs, List.append_nil, List.append_nil]

/-- The units do nothing wrong unless a chained result is lost. -/
theorem units_eq_nil_iff {units : List (List Violation)}
    (h : g.starts.mapM (g.checkStart g.starts) = .ok units) :
    units.flatten = [] ↔ ¬ g.ChainedResultLost := by
  constructor
  · rintro hnil ⟨op', t', r, ⟨o, o', v, n, n', w, t, hne, hr, hr', hop', ht, ht', hlt, hread, hw⟩, hlate⟩
    have hread : g.TakesAt o w r := by
      rcases hw with rfl | rfl
      · exact hs.formed.takesAt_of_startsAt hread ht
      · exact hs.formed.takesAt_of_startsAt hread ht'
    have hmem : (⟨v, t, o⟩ : Start) ∈ g.starts := (mem_starts hs.formed).2 ⟨hr, n, ht⟩
    have hmem' : (⟨v, t', o'⟩ : Start) ∈ g.starts := (mem_starts hs.formed).2 ⟨hr', n', ht'⟩
    obtain ⟨l, hl⟩ := ok_of_mapM_eq_ok h hmem
    have hx := (mem_checkStart hs hmem hl).2
      ⟨w, r, _, op', hread, hmem', rfl, hne.symm, hlt, hop', hlate, rfl⟩
    rw [List.flatten_eq_nil_iff.1 hnil l ((mem_of_mapM_eq_ok h).2 ⟨_, hmem, hl⟩)] at hx
    cases hx
  · intro hkept
    rw [List.flatten_eq_nil_iff]
    intro l hl
    obtain ⟨s, hmem, hl⟩ := (mem_of_mapM_eq_ok h).1 hl
    rw [List.eq_nil_iff_forall_not_mem]
    intro x hx
    obtain ⟨w, r, other, op', hread, hmem', hunit, hne, hlt, hop', hlate, -⟩ :=
      (mem_checkStart hs hmem hl).1 hx
    obtain ⟨hr, n, ht⟩ := (mem_starts hs.formed).1 hmem
    obtain ⟨hr', n', ht'⟩ := (mem_starts hs.formed).1 hmem'
    rw [hunit] at hr'
    by_cases hw : w = n ∨ w = n'
    · exact hkept ⟨op', other.cycle, r, ⟨s.op, other.op, s.unit, n, n', w, s.cycle, hne.symm, hr, hr',
        hop', ht, ht', hlt, hread.reads, hw⟩, hlate⟩
    · exact hlate (hs.undisturbed.results hne.symm hr hr' hop' ht ht' hlt hread not_false
        (fun h => hw (.inl h)) (fun h => hw (.inr h)))

/-- Only places and latencies are reported, unless a chained result is lost. -/
theorem isOrder_iff_of_check (h : g.check machine = .ok vs) : (∀ x ∈ vs, x.isOrder) ↔ ¬ g.ChainedResultLost := by
  obtain ⟨links, units, hlinks, hunits, rfl⟩ := check_eq hs h
  rw [← units_eq_nil_iff hs hunits]
  constructor
  · intro hall
    rw [List.eq_nil_iff_forall_not_mem]
    intro x hx
    obtain ⟨l, hl, hxl⟩ := List.mem_flatten.1 hx
    obtain ⟨s, hmem, hs'⟩ := (mem_of_mapM_eq_ok hunits).1 hl
    obtain ⟨w, r, other, op', -, -, -, -, -, -, -, rfl⟩ := (mem_checkStart hs hmem hs').1 hxl
    exact absurd (hall _ (List.mem_append_right _ hx)) (by simp [Violation.isOrder])
  · intro hnil x hx
    rw [hnil, List.append_nil, List.mem_append] at hx
    rcases hx with hx | hx
    · obtain ⟨n, -, rfl⟩ := List.mem_map.1 hx
      rfl
    · obtain ⟨l, hl, hxl⟩ := List.mem_flatten.1 hx
      obtain ⟨⟨e, l'⟩, -, hl'⟩ := (mem_of_mapM_eq_ok hlinks).1 hl
      exact checkLink_isOrder hl' hxl

end

/-! ## A check that ends -/

theorem checkPorts_ok (hb : machine.bus b = .ok bus) : ∃ vs, g.checkPorts machine n m b = .ok vs := by
  have hport : ∀ port, ∃ y, isOnBus machine b port = .ok y := by
    intro port
    cases port with
    | none => exact ⟨true, rfl⟩
    | some q => exact ⟨bus.attaches q, by simp only [isOnBus, Machine.busReaches, hb]; rfl⟩
  refine exists_bind_eq_ok (hport _) fun y _ => ?_
  split
  · refine exists_bind_eq_ok (hport _) fun z _ => ?_
    split
    · exact exists_pure_eq_ok
    · exact exists_pure_eq_ok
  · exact exists_pure_eq_ok

theorem checkImmediate_ok (hb : machine.bus b = .ok bus) : ∃ vs, checkImmediate machine n m b = .ok vs := by
  unfold checkImmediate
  split
  · split
    · exact exists_bind_eq_ok ⟨bus, hb⟩ fun _ _ => exists_pure_eq_ok
    · exact exists_pure_eq_ok
  · exact exists_pure_eq_ok

theorem checkLink_ok (hrange : g.InRange) {l : Link} (hl : g.link? e = some l)
    (hlive : l.live) : ∃ vs, g.checkLink e l = .ok vs := by
  unfold checkLink
  split
  · exact exists_pure_eq_ok
  · rename_i hback
    split
    · rename_i t h ht hh
      obtain ⟨d, s, hd, hsum⟩ := hrange.links hl hlive (by simpa using hback) ht hh
      refine exists_bind_eq_ok ⟨d, hd⟩ fun d' hd' => ?_
      rw [hd] at hd'
      cases hd'
      exact exists_bind_eq_ok ⟨s, hsum⟩ fun _ _ => exists_pure_eq_ok
    · exact exists_pure_eq_ok

theorem checkStart_ok (hs : Sound machine u g) (hrange : g.InRange)
    (hmem : s ∈ g.starts) : ∃ vs, g.checkStart g.starts s = .ok vs := by
  obtain ⟨hr, n, ht⟩ := (mem_starts hs.formed).1 hmem
  obtain ⟨m, hm, hd, -⟩ := id ht
  obtain ⟨op, hop⟩ := hs.formed.dst_known hm hd
  refine exists_bind_eq_ok ?_ fun _ _ => exists_pure_eq_ok
  refine exists_bind_eq_ok ⟨op, op_eq_ok.2 ⟨hs.formed.op_valid hop, hop⟩⟩ fun op1 hop1 => ?_
  refine exists_bind_eq_ok ?_ fun _ _ => exists_pure_eq_ok
  apply mapM_eq_ok_of_forall
  rintro ⟨w, r⟩ hw
  have hread := (mem_reads hs.formed (op?_of_op hop1)).1 hw
  refine exists_bind_eq_ok ?_ fun _ _ => exists_pure_eq_ok
  apply filterM_eq_ok_of_forall
  intro other hother
  simp only [List.mem_filter, Bool.and_eq_true, decide_eq_true_eq] at hother
  obtain ⟨hmem', hunit, hne⟩ := hother
  obtain ⟨hr', n', ht'⟩ := (mem_starts hs.formed).1 hmem'
  rw [hunit] at hr'
  obtain ⟨m', hm', hd', -⟩ := id ht'
  obtain ⟨op', hop'⟩ := hs.formed.dst_known hm' hd'
  unfold arrivesBefore
  split
  · exact exists_pure_eq_ok
  · rename_i hlt
    have hlt : s.cycle < other.cycle := by lia
    refine exists_bind_eq_ok ⟨op', op_eq_ok.2 ⟨hs.formed.op_valid hop', hop'⟩⟩ fun op2 hop2 => ?_
    rw [op?_of_op hop2] at hop'
    cases hop'
    refine exists_bind_eq_ok ?_ fun _ _ => exists_pure_eq_ok
    have hop' := op?_of_op hop2
    by_cases hw : w = n ∨ w = n'
    · exact hrange.chained ⟨s.op, other.op, s.unit, n, n', w, s.cycle, hne.symm, hr, hr', hop', ht,
        ht', hlt, hread.reads, hw⟩
    · obtain ⟨sum, hsum, -⟩ := hs.undisturbed.results hne.symm hr hr' hop' ht ht' hlt hread not_false
        (fun h => hw (.inl h)) (fun h => hw (.inr h))
      exact ⟨sum, hsum⟩

section

variable (hs : Sound machine u g) (hmachine : machine.Addressable)
include hs hmachine

theorem checkMove_ok (hn : n ≠ .invalid)
    (hm : g.move? n = some m) (earlier : List MoveId) :
    ∃ vs, g.checkMove machine earlier n = .ok vs := by
  refine exists_bind_eq_ok ⟨m, move_eq_ok.2 ⟨hn, hm⟩⟩ fun m' hm' => ?_
  rw [move?_of_move hm'] at hm
  cases hm
  split
  · rename_i p hp
    obtain ⟨bus, hbus, -⟩ := hs.carried n m p (move?_of_move hm') hp
    have hfetch : machine.bus p.bus = .ok bus := fetch_ok hmachine.buses hbus
    exact exists_bind_eq_ok (checkPorts_ok hfetch) fun _ _ =>
      exists_bind_eq_ok (checkImmediate_ok hfetch) fun _ _ => exists_pure_eq_ok
  · exact exists_pure_eq_ok

theorem checkMoves_ok (hns : ∀ n ∈ ns, n ≠ .invalid ∧ ∃ m, g.move? n = some m)
    (earlier : List MoveId) : ∃ vs, g.checkMoves machine earlier ns = .ok vs := by
  induction ns generalizing earlier with
  | nil => exact exists_pure_eq_ok
  | cons n ns ih =>
    obtain ⟨hn, m, hm⟩ := hns n (.head _)
    exact exists_bind_eq_ok (checkMove_ok hs hmachine hn hm earlier) fun _ _ =>
      exists_bind_eq_ok (ih (fun k hk => hns k (.tail _ hk)) _) fun _ _ => exists_pure_eq_ok

theorem checkOperation_ok (hop : g.op? o = some op) : ∃ vs, g.checkOperation machine o = .ok vs := by
  refine exists_bind_eq_ok ⟨op, op_eq_ok.2 ⟨hs.formed.op_valid hop, hop⟩⟩ fun op' hop' => ?_
  rw [op?_of_op hop'] at hop
  cases hop
  split
  · split
    · exact exists_pure_eq_ok
    · rename_i v hv
      have hop := op?_of_op hop'
      rw [hs.accounts.unit hop] at hv
      have hmem := hs.formed.units hop (hs.accounts.unit_mem hop hv)
      simp only [Machine.unitsWith, List.mem_filter, Option.any_eq_true] at hmem
      obtain ⟨-, unit, hunit, -⟩ := hmem
      have hfetch : machine.unit v = .ok unit := fetch_ok hmachine.units hunit
      refine exists_bind_eq_ok ?_ fun _ _ => exists_pure_eq_ok
      exact exists_bind_eq_ok ⟨unit, hfetch⟩ fun _ _ => exists_pure_eq_ok
  · exact exists_pure_eq_ok

/-- A check ends if all identifiers are valid and all sums in range. -/
theorem check_eq_ok (hmoves : ∀ n ∈ g.moveIds, n ≠ .invalid) (hrange : g.InRange) :
    ∃ vs, g.check machine = .ok vs := by
  refine exists_bind_eq_ok (checkMoves_ok hs hmachine (fun n hn => ⟨hmoves n hn, ?_⟩) []) ?_
  · exact (mem_moveIds.1 hn).imp fun m hm => hm.1
  intro _ _
  refine exists_bind_eq_ok (mapM_eq_ok_of_forall ?_) fun _ _ => ?_
  · rintro ⟨e, l⟩ he
    obtain ⟨he, hl⟩ := mem_entries.1 he
    have hlive := of_some (mem_edgeIds.1 he) hl
    exact checkLink_ok hrange hl hlive
  refine exists_bind_eq_ok (mapM_eq_ok_of_forall ?_) fun _ _ => ?_
  · intro o ho
    obtain ⟨op, hop⟩ := mem_opIds.1 ho
    exact checkOperation_ok hs hmachine hop
  exact exists_bind_eq_ok (mapM_eq_ok_of_forall fun s hmem => checkStart_ok hs hrange hmem)
    fun _ _ => exists_pure_eq_ok

end

end Graph

end Transport
