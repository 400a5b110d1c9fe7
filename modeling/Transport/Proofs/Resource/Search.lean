import Mathlib.Order.Bounds.Defs
import Transport.Proofs.Resource.FitFaults
import Transport.Proofs.Resource.Tally

/-!
# The search for a place

A place for a move is looked for from a given cycle up to a little past the last used one. After the last
used cycle all buses and ports are free, so whether a move fits there depends on nothing but the results and
operands that the units still hold, and what they hold can only get lost with time: a move that fits late
fits in every unused cycle before. The first unused cycle thus stands for all that follow it, and
`earliestFit_isLeast` says that the search misses nothing.
-/

namespace Transport

/-! ## Computations that do not fail -/

/-- The computation does not fail. -/
abbrev Succeeds {α : Type} (x : Checked α) : Prop := Avoids (fun _ => True) x

theorem succeeds_iff {α : Type} {x : Checked α} : Succeeds x ↔ ∃ a, x = .ok a := by
  cases x with
  | ok a => simp
  | error e => exact ⟨fun h => absurd rfl (h e trivial), by simp⟩

theorem findSomeM?_eq_none {α β : Type} {f : α → Checked (Option β)} {xs : List α}
    (h : xs.findSomeM? f = .ok none) : ∀ x ∈ xs, f x = .ok none := by
  induction xs with
  | nil => simp
  | cons a xs ih =>
    simp only [List.findSomeM?, bind_eq_ok] at h
    obtain ⟨b, hb, h⟩ := h
    cases b with
    | some y => simp at h
    | none => exact List.forall_mem_cons.2 ⟨hb, ih h⟩

/-- A search among answers finds the least cycle that passes, or there is none. -/
theorem searchUp_spec {p : Cycle → Checked Bool} {k : Nat} {c : Cycle}
    (hp : ∀ x, c ≤ x → x < c + k → ∃ b, p x = .ok b) : ∃ r, searchUp p k c = .ok r ∧
      (∀ y, r = some y → c ≤ y ∧ p y = .ok true ∧ ∀ x, c ≤ x → x < y → p x = .ok false) ∧
      (r = none → ∀ x, c ≤ x → x < c + k → p x = .ok false) := by
  induction k generalizing c with
  | zero => exact ⟨none, rfl, by simp, fun _ x hx hlt => by push_cast at hlt; lia⟩
  | succ k ih =>
    obtain ⟨b, hb⟩ := hp c (Int.le_refl c) (by push_cast; lia)
    cases b with
    | true =>
      refine ⟨some c, by simp [searchUp, hb], fun y hy => ?_, by simp⟩
      cases hy
      exact ⟨Int.le_refl c, hb, fun x hx hlt => by lia⟩
    | false =>
      obtain ⟨r, hr, hsome, hnone⟩ := ih (c := c + 1) fun x hx hlt => hp x (by lia) (by push_cast; lia)
      -- The first cycle does not pass, so what holds from the next one on holds from here on.
      have hext {x y : Cycle} (h : ∀ x, c + 1 ≤ x → x < y → p x = .ok false) (hx : c ≤ x) (hlt : x < y) :
          p x = .ok false := by
        rcases Int.lt_or_eq_of_le hx with hx | rfl
        · exact h x hx hlt
        · exact hb
      refine ⟨r, by simpa [searchUp, hb] using hr, fun y hy => ?_, fun h x hx hlt => ?_⟩
      · obtain ⟨hle, hpass, hbefore⟩ := hsome y hy
        exact ⟨by lia, hpass, fun x => hext hbefore⟩
      · exact hext (hnone h) hx (by push_cast at hlt; lia)

/-- The cycle is in range, and so is every latency after it. -/
def Graph.Room (g : Graph) (c : Cycle) : Prop :=
  c < 2147483648 ∧ ∀ o op, g.op? o = some op → c + op.latency < 2147483648

theorem Graph.Room.mono {g : Graph} {c c' : Cycle} (h : g.Room c') (hle : c ≤ c') : g.Room c :=
  ⟨by have := h.1; lia, fun o op ho => by have := h.2 o op ho; lia⟩

namespace Usage

open Transport.Graph

variable {machine : Machine} {u : Usage} {g g0 : Graph} {c c' : Cycle} {n : MoveId} {m : Move} {o : OpId}
  {v : UnitId} {k : Nat}

/-! ## After the last used cycle -/

/-- The cycles in use have the property. -/
def Uses (u : Usage) (P : Cycle → Prop) : Prop := ∀ n a, u.assignments[(n : MoveId)]? = some a → P a.cycle

/-- Every move has its place before the cycle. -/
abbrev Past (u : Usage) (c : Cycle) : Prop := u.Uses (· < c)

theorem Past.mono (hp : u.Past c) (hle : c ≤ c') : u.Past c' := fun n a ha => Int.lt_of_lt_of_le (hp n a ha) hle

theorem past_of_lastCycle (h : u.lastCycle.getD 0 < c) : u.Past c := by
  intro n a ha
  have hmem : a.cycle ∈ u.cycles :=
    List.mem_map.2 ⟨(n, a), Std.ExtTreeMap.mem_toList_iff_getElem?_eq_some.2 ha, rfl⟩
  obtain ⟨last, hlast, hle⟩ := max?_of_mem hmem
  rw [lastCycle, hlast] at h
  exact Int.lt_of_le_of_lt hle h

/-- Buses, ports and slots are free. -/
structure Vacant (u : Usage) (c : Cycle) : Prop where
  bus (b : BusId) : u.buses.contains ⟨c, b⟩ = false
  read (f : FileId) : u.fileReads.getD ⟨c, f⟩ 0 = 0
  write (f : FileId) : u.fileWrites.getD ⟨c, f⟩ 0 = 0
  input (v : UnitId) (k : Nat) : u.inputs.contains ⟨c, v, k⟩ = false
  trigger (v : UnitId) : u.triggers.contains ⟨c, v⟩ = false
  result (v : UnitId) (k : Nat) : u.results[(⟨c, v, k⟩ : At UnitPort)]? = none
  long : u.longImmediates.getD c 0 = 0

theorem Past.vacant (hp : u.Past c) (hu : u.PortTallies g0) : u.Vacant c := by
  have hnone {κ : Type} {key : Move → Assignment → Option κ} {x : κ}
      (hkey : ∀ m a, key m a = some x → a.cycle = c) {n : MoveId} {m : Move} {a : Assignment}
      (hc : g0.Carries u.assignments n m a) : key m a ≠ some x := fun h =>
    Int.ne_of_lt (hp n a hc.2) (hkey m a h)
  have hheld {κ ν : Type} [Ord κ] [Std.TransOrd κ] {t : Std.ExtTreeMap κ ν}
      {key : Move → Assignment → Option κ} {val : MoveId → Move → Option ν} {x : κ}
      (h : HeldBy t g0 u.assignments key val) (hkey : ∀ m a, key m a = some x → a.cycle = c) :
      t.contains x = false := by
    rw [Std.ExtTreeMap.contains_eq_isSome_getElem?, Option.isSome_eq_false_iff, Option.isNone_iff_eq_none]
    refine Option.eq_none_iff_forall_ne_some.2 fun v hv => ?_
    obtain ⟨n, m, a, hc, hk, -⟩ := h.entry.1 hv
    exact hnone hkey hc hk
  have hdemand {κ : Type} [DecidableEq κ] {key : Move → Assignment → Option κ} {x : κ}
      (hkey : ∀ m a, key m a = some x → a.cycle = c) : g0.demand u.assignments key x = 0 := by
    refine Nat.eq_zero_of_not_pos fun hpos => ?_
    obtain ⟨n, m, a, hc, hk⟩ := demand_pos_iff.1 hpos
    exact hnone hkey hc hk
  have hcount {κ : Type} [Ord κ] [Std.TransOrd κ] [DecidableEq κ] {t : Std.ExtTreeMap κ Nat}
      {key : Move → Assignment → Option κ} {x : κ} (h : Counts t g0 u.assignments key)
      (hkey : ∀ m a, key m a = some x → a.cycle = c) : t.getD x 0 = 0 := by
    rw [Std.ExtTreeMap.getD_eq_getD_getElem?, h x, hdemand hkey]
    rfl
  have hresult (v : UnitId) (k : Nat) : g0.demand u.assignments resultKey ⟨c, v, k⟩ = 0 := hdemand (by
    grind [resultKey])
  refine ⟨fun b => hheld hu.buses ?_, fun f => hcount hu.fileReads ?_, fun f => hcount hu.fileWrites ?_,
    fun v k => hheld hu.inputs ?_, fun v => hheld hu.triggers ?_, fun v k => ?_, hcount hu.longImmediates ?_⟩
  case refine_6 => simpa [hresult, entry] using hu.results.count ⟨c, v, k⟩
  all_goals grind [busKey, readKey, writeKey, inputKey, triggerKey, longKey, Option.map_eq_some_iff]

section

variable (hu : u.Orderly g)
include hu

theorem Uses.cycle {P : Cycle → Prop} {x : Cycle} (hP : u.Uses P) (hm : g.move? n = some m)
    (hx : m.cycle? = some x) : P x := by
  have h := hu.entered hm
  obtain ⟨p, hplace, rfl⟩ := Option.map_eq_some_iff.1 hx
  rw [hplace] at h
  obtain ⟨a, ha, rfl⟩ := Option.map_eq_some_iff.1 h
  exact hP n a ha

theorem Uses.triggerCycle {P : Cycle → Prop} {t : Cycle} (hP : u.Uses P)
    (h : Usage.triggerCycle g o = .ok (some t)) : P t := by
  simp only [Usage.triggerCycle, bind_eq_ok] at h
  obtain ⟨x, hx, h⟩ := h
  cases x with
  | none => simp at h
  | some n =>
    simp only [bind_eq_ok, pure_eq_ok] at h
    obtain ⟨m, hm, h⟩ := h
    exact hP.cycle hu (move?_of_move hm) h

theorem Uses.readCycles {P : Cycle → Prop} {op : Operation} {r : Cycle} (hP : u.Uses P)
    (hr : r ∈ Usage.readCycles g op) : P r := by
  obtain ⟨n, -, h⟩ := List.mem_filterMap.1 hr
  obtain ⟨m, hm, hr⟩ := Option.bind_eq_some_iff.1 h
  exact hP.cycle hu hm hr

variable (hp : u.Past c)
include hp

theorem Past.inputWindow_lt {trigger : Option Cycle} {w : Cycle × Cycle} (htrigger : ∀ t, trigger = some t → t < c)
    (h : inputWindow g k trigger n = some w) : w.2 < c := by
  simp only [inputWindow, Option.bind_eq_bind, Option.bind_eq_some_iff] at h
  obtain ⟨m, hm, h⟩ := h
  split at h
  · split at h
    · cases h
    · split at h
      · rename_i x hx
        cases h
        have hlt := hp.cycle hu hm hx
        cases trigger with
        | none => exact hlt
        | some t => exact Int.max_lt.2 ⟨htrigger t rfl, hlt⟩
      · obtain ⟨t, rfl, rfl⟩ := Option.map_eq_some_iff.1 h
        exact htrigger t rfl
  · cases h

/-! ## What the units still hold -/

/-- No input is needed in an unused cycle. -/
theorem Past.inputBusy_eq_false {hi : Cycle} {b : Bool} (h : u.inputBusy g v o k c hi = .ok b) : b = false := by
  cases b with
  | false => rfl
  | true =>
    obtain ⟨other, -, h⟩ := exists_of_anyM_eq_true h
    simp only [bind_eq_ok, pure_eq_ok] at h
    obtain ⟨t, ht, op, -, h⟩ := h
    obtain ⟨n, -, h⟩ := List.any_eq_true.1 h
    obtain ⟨w, hw, h⟩ := (Option.any_eq_true ..).1 h
    have hlt := hp.inputWindow_lt hu (fun x hx => hp.triggerCycle hu (hx ▸ ht)) hw
    simp only [Bool.and_eq_true, decide_eq_true_eq] at h
    lia

/-- A trigger in an unused cycle comes after all that the units have done. -/
theorem Past.triggerDestroys_eq_false {b : Bool} (hlat : ∀ op, g.op? o = some op → 0 ≤ Cycle.ofLatency op.latency)
    (h : u.triggerDestroys g v o c = .ok b) : b = false := by
  cases b with
  | false => rfl
  | true =>
    simp only [triggerDestroys, bind_eq_ok] at h
    obtain ⟨op, hop, h⟩ := h
    obtain ⟨other, -, h⟩ := exists_of_anyM_eq_true h
    simp only [bind_eq_ok] at h
    obtain ⟨op', -, t, ht, h⟩ := h
    have hlat := hlat op (op?_of_op hop)
    have hlast {last : Cycle} (h : (readCycles g op').max? = some last) : last < c :=
      hp.readCycles hu (List.max?_mem h)
    unfold triggersClash at h
    split at h
    · split at h
      · rename_i hmax
        simp only [bind_eq_ok] at h
        obtain ⟨x, -, h⟩ := h
        split at h
        · simp at h
        · simp only [bind_eq_ok, pure_eq_ok, decide_eq_true_eq] at h
          obtain ⟨s, hs, h⟩ := h
          have := hlast hmax
          have := check_of_add hs
          lia
      · simp at h
    · rename_i t
      have hlt := hp.triggerCycle hu ht
      simp only [hlt, if_true] at h
      split at h
      · rename_i hmax
        simp only [bind_eq_ok, pure_eq_ok, decide_eq_true_eq] at h
        obtain ⟨s, hs, h⟩ := h
        have := hlast hmax
        have := check_of_add hs
        lia
      · simp at h

end

/-- A longer stay is only harder to fit in. -/
theorem inputBusy_antitone {lo hi hi' : Cycle} (hle : hi ≤ hi') (h : u.inputBusy g v o k lo hi' = .ok false) :
    u.inputBusy g v o k lo hi = .ok false := by
  refine anyM_eq_false.2 fun other hother => ?_
  have h := anyM_eq_false.1 h other hother
  simp only [bind_eq_ok, pure_eq_ok] at h ⊢
  obtain ⟨t, ht, op, hop, h⟩ := h
  refine ⟨t, ht, op, hop, List.any_eq_false.2 fun n hn hbusy => List.any_eq_false.1 h n hn ?_⟩
  obtain ⟨w, hw, hmeet⟩ := (Option.any_eq_true ..).1 hbusy
  simp only [Bool.and_eq_true, decide_eq_true_eq] at hmeet
  refine (Option.any_eq_true ..).2 ⟨w, hw, ?_⟩
  simp only [Bool.and_eq_true, decide_eq_true_eq]
  exact ⟨Int.le_trans hmeet.1 hle, hmeet.2⟩

/-- A result that is still there late is there before. -/
theorem resultLost_antitone (hle : c ≤ c') (h : u.resultLost g v o c' = .ok false) :
    u.resultLost g v o c = .ok false := by
  simp only [resultLost, bind_eq_ok] at h ⊢
  obtain ⟨t, ht, h⟩ := h
  refine ⟨t, ht, ?_⟩
  cases t with
  | none => rfl
  | some t =>
    refine anyM_eq_false.2 fun other hother => ?_
    have h := anyM_eq_false.1 h other hother
    simp only [bind_eq_ok] at h ⊢
    obtain ⟨t', ht', h⟩ := h
    refine ⟨t', ht', ?_⟩
    cases t' with
    | none => rfl
    | some t' =>
      dsimp only at h ⊢
      split
      · rfl
      · rename_i hlt
        simp only [hlt, if_false, bind_eq_ok, pure_eq_ok, decide_eq_false_iff_not] at h ⊢
        obtain ⟨op, hop, s, hs, h⟩ := h
        exact ⟨op, hop, s, hs, fun hs => h (Int.le_trans hs hle)⟩

/-! ## A move that fits late fits early -/

section

variable (hp : u.Past c) (hle : c ≤ c')
include hp hle

theorem Past.triggerStrands_eq_false (hu : u.Orderly g) {b : Bool} (h' : u.triggerStrands g v o k c' = .ok false)
    (h : u.triggerStrands g v o k c = .ok b) : b = false := by
  simp only [triggerStrands, bind_eq_ok] at h h'
  obtain ⟨busy', -, h'⟩ := h'
  obtain ⟨busy, hbusy, h⟩ := h
  obtain rfl := hp.inputBusy_eq_false hu hbusy
  cases busy' with
  | true => simp at h'
  | false =>
    simp only [Bool.false_eq_true, if_false, bind_eq_ok] at h h'
    obtain ⟨op, hop, h'⟩ := h'
    obtain ⟨_, hop', h⟩ := h
    cases hop.symm.trans hop'
    cases b with
    | false => rfl
    | true =>
      obtain ⟨n, hn, h⟩ := exists_of_anyM_eq_true h
      have h' := anyM_eq_false.1 h' n hn
      cases hm : g.move? n with
      | none => simp [hm] at h
      | some m =>
        simp only [hm] at h h'
        split at h
        · rename_i hd hx
          have hlt := hp.cycle hu hm hx
          simp only [hd, hx] at h'
          rw [Int.min_eq_left (by lia)] at h h'
          cases h.symm.trans (inputBusy_antitone hle h')
        · simp at h

variable (hports : u.PortTallies g0)
include hports

theorem Past.destFree_eq_true (hu : u.Orderly g)
    (hlat : ∀ o op, g.op? o = some op → 0 ≤ Cycle.ofLatency op.latency) {dst : Port} {b : Bool}
    (h' : u.destFree machine g c' m dst = .ok true) (h : u.destFree machine g c m dst = .ok b) : b = true := by
  have hfree := hp.vacant hports
  have hfree' := (hp.mono hle).vacant hports
  unfold destFree at h
  split at h
  · rename_i v k o ho
    simp only [hfree.input, Bool.false_eq_true, if_false] at h
    cases ht : m.isTrigger with
    | true =>
      obtain ⟨-, -, hstrands'⟩ := destFree_trigger h' ho ht
      simp only [ht, hfree.trigger, Bool.false_eq_true, if_true, if_false, bind_eq_ok] at h
      obtain ⟨destroys, hdestroys, h⟩ := h
      obtain rfl := hp.triggerDestroys_eq_false hu (hlat o) hdestroys
      simp only [Bool.false_eq_true, if_false, bind_eq_ok, pure_eq_ok] at h
      obtain ⟨strands, hstrands, rfl⟩ := h
      rw [hp.triggerStrands_eq_false hle hu hstrands' hstrands]
      rfl
    | false =>
      simp only [ht, Bool.false_eq_true, if_false, bind_eq_ok, pure_eq_ok] at h
      obtain ⟨t, htrigger, busy, hbusy, rfl⟩ := h
      -- The trigger is past too, so the stay of the operand is this cycle.
      have hwindow : (holdWindow t c).1 = c := by cases t <;> rfl
      rw [hwindow] at hbusy
      rw [hp.inputBusy_eq_false hu hbusy]
      rfl
  · simp only [bind_eq_ok, pure_eq_ok, hfree.write] at h
    simp only [destFree, bind_eq_ok, pure_eq_ok, hfree'.write] at h'
    obtain ⟨file, hfile, rfl⟩ := h
    obtain ⟨file', hfile', h'⟩ := h'
    cases hfile.symm.trans hfile'
    exact h'
  · exact (pure_eq_ok.1 h).symm

theorem Past.sourceFree_eq_true {src : Option Port} {b : Bool}
    (h' : u.sourceFree machine g c' m src = .ok true) (h : u.sourceFree machine g c m src = .ok b) : b = true := by
  have hfree := hp.vacant hports
  have hfree' := (hp.mono hle).vacant hports
  unfold sourceFree at h
  split at h
  · simp only [bind_eq_ok, pure_eq_ok, hfree.read] at h
    simp only [sourceFree, bind_eq_ok, pure_eq_ok, hfree'.read] at h'
    obtain ⟨file, hfile, rfl⟩ := h
    obtain ⟨file', hfile', h'⟩ := h'
    cases hfile.symm.trans hfile'
    exact h'
  · rename_i v k o ho
    have hkept := resultLost_antitone hle (sourceFree_output h' ho)
    simp only [hfree.result, Option.any_none, Bool.false_eq_true, if_false, hkept, ok_bind, pure_eq_ok] at h
    exact h.symm
  · exact (pure_eq_ok.1 h).symm

theorem Past.busFor_eq {src : Terminal} {srcPort : Option Port} {dst : Port} :
    u.busFor machine c' src srcPort dst = u.busFor machine c src srcPort dst := by
  have hfree := hp.vacant hports
  have hfree' := (hp.mono hle).vacant hports
  have hbus (suits : Bus → Bool) : u.freeBus machine c' suits = u.freeBus machine c suits := by
    simp only [freeBus, hfree.bus, hfree'.bus]
  unfold busFor
  split <;> simp only [hbus, hfree.long, hfree'.long]

/-- A move that does not fit into an unused cycle fits into no later one. -/
theorem Past.fit_ne_some (hu : u.Orderly g)
    (hlat : ∀ o op, g.op? o = some op → 0 ≤ Cycle.ofLatency op.latency) {a : Assignment} (hc : 0 ≤ c)
    (h : u.fit machine g c n = .ok none) : u.fit machine g c' n ≠ .ok (some a) := by
  intro h'
  obtain ⟨-, m, hm, ⟨ss, hss, hs⟩, ⟨ds, hds, hd⟩, h'⟩ := fit_eq_some h'
  have hnone : u.fitOn machine g c m a.srcUnit a.dstUnit = .ok none := by
    have hc : ¬ c < 0 := by lia
    simp only [fit, hc, if_false, hm, ok_bind, hss] at h
    have h := findSomeM?_eq_none h _ hs
    rw [hds, ok_bind] at h
    exact findSomeM?_eq_none h _ hd
  obtain ⟨-, -, -, dst, src, hdst, hdfree, hsrc, hsfree, hbus⟩ := fitOn_eq_some h'
  simp only [fitOn, hdst, ok_bind, bind_eq_ok] at hnone
  obtain ⟨b, hb, h⟩ := hnone
  obtain rfl := hp.destFree_eq_true hle hports hu hlat hdfree hb
  simp only [if_true, hsrc, ok_bind, bind_eq_ok] at h
  obtain ⟨b, hb, h⟩ := h
  obtain rfl := hp.sourceFree_eq_true hle hports hsfree hb
  rw [hp.busFor_eq hle hports] at hbus
  simp [hbus] at h

end

/-! ## The search gets its answers -/

theorem ofLatency_of_room {op : Operation} (h : g.Room c) (hc : 0 ≤ c) (ho : g.op? o = some op) :
    Cycle.ofLatency op.latency = op.latency := Cycle.ofLatency_of_lt (by have := h.2 o op ho; lia)

theorem succeeds_add {op : Operation} (h : g.Room c) (hc : 0 ≤ c) (ho : g.op o = .ok op) :
    Succeeds (Cycle.add c (Cycle.ofLatency op.latency)) := by
  have ho := op?_of_op ho
  refine succeeds_iff.2 ⟨c + op.latency, Cycle.check_eq_ok_iff.2 ⟨?_, ?_⟩⟩
  · rw [ofLatency_of_room h hc ho]
    exact ⟨by lia, h.2 o op ho⟩
  · rw [ofLatency_of_room h hc ho]

/-- What the usage is asked about has an answer: moves and operations are there, and the cycles of the placed
moves are in range. -/
theorem asks_of_room (hg : g.Formed machine) (hu : u.Orderly g) (hvalid : ∀ {n m}, g.move? n = some m → n ≠ .invalid)
    (hknown : ∀ {o v}, u.boundUnit o = some v → ∃ op, g.op? o = some op) (hroom : u.Uses fun x => 0 ≤ x ∧ g.Room x) :
    u.Asks (fun _ => True) g fun o => ∃ op, g.op? o = some op where
  op := by
    rintro o ⟨op, ho⟩
    exact succeeds_iff.2 ⟨op, op_eq_ok.2 ⟨hg.op_valid ho, ho⟩⟩
  trigger {o n} ht := by
    simp only [trigger, bind_eq_ok, pure_eq_ok] at ht
    obtain ⟨op, -, ht⟩ := ht
    have hn := List.find?_some ht
    obtain ⟨m, hm, -⟩ := (Option.any_eq_true ..).1 hn
    exact succeeds_iff.2 ⟨m, move_eq_ok.2 ⟨hvalid hm, hm⟩⟩
  others ho' := hknown (mem_othersOn.1 ho').2
  ends hop ht := by
    obtain ⟨hpos, hfit⟩ := hroom.triggerCycle hu ht
    exact succeeds_add hfit hpos hop
  starts {o op r} hop hr := by
    obtain ⟨hpos, hfit⟩ := hroom.readCycles hu hr
    have hop := op?_of_op hop
    have hlt := hfit.2 o op hop
    refine succeeds_iff.2 ⟨_, Cycle.check_eq_ok_iff.2 ⟨?_, rfl⟩⟩
    rw [ofLatency_of_room hfit hpos hop]
    exact ⟨by lia, by lia⟩

/-- The move can be carried: its source can be read, its destination be written, and its registers are in
files of the machine. -/
structure Carriable (machine : Machine) (m : Move) : Prop where
  src : m.src.isInput = false
  dst : m.dst.isImmediate = false ∧ m.dst.isOutput = false
  file {r : Reg} : m.src.reg? = some r ∨ m.dst.reg? = some r → ∃ file, machine.file r.file = .ok file

theorem Carriable.served (h : Carriable machine m) (hg : g.Formed machine) (hm : g.move? n = some m) :
    Served (fun _ => True) machine u g (fun o => ∃ op, g.op? o = some op) m where
  src := hg.src_known hm
  dst := hg.dst_known hm
  srcPort {s} := by
    have hsrc := h.src
    unfold sourcePort
    split
    any_goals exact avoids_pure _
    all_goals simp_all [Terminal.isInput]
  dstPort {ds d} hds hd := by
    have hunit : m.dst.isInput → d.isSome := by
      rw [← hg.dst_input hm]
      rcases mem_unitChoices hds hd with ⟨hop, -⟩ | ⟨o, v, -, rfl, -⟩
      · simp [hop]
      · exact fun _ => rfl
    have hdst := h.dst
    unfold destPort
    split
    any_goals exact avoids_pure _
    all_goals simp_all [Terminal.isInput, Terminal.isImmediate, Terminal.isOutput]
  file hr := succeeds_iff.2 (h.file hr)

end Usage

namespace Request

variable {machine : Machine} {g : Graph}

theorem cycle_nonneg {s : Usage × Graph} {rs : List Request} (hs : Books machine g ({}, g))
    (hrun : runAll machine g rs = .ok s) : s.1.Uses (0 ≤ ·) := by
  refine (foldlM_keeps (P := fun s => Books machine g s ∧ s.1.Uses (0 ≤ ·)) ?_ ⟨hs, ?_⟩ hrun).2
  swap
  · simp [Usage.Uses]
  rintro r - ⟨u, g1⟩ ⟨u', g'⟩ ⟨hs, hpos⟩ h
  refine ⟨hs.step h, fun n a ha => ?_⟩
  cases r with
  | assign c x =>
    obtain ⟨m, b, hb⟩ := Usage.assigns_of_assign hs.sound.accounts h
    rw [hb.assignments, Graph.getElem?_insert_move] at ha
    split at ha
    · cases ha
      obtain ⟨hc, _, -, -, -, hfit⟩ := Usage.fit_eq_some hb.fit
      rw [(Usage.fitOn_eq_some hfit).1]
      exact hc
    · exact hpos n a ha
  | unassign x =>
    obtain ⟨m, b, hb⟩ := Usage.unassigns_of_unassign hs.sound.accounts h
    rw [hb.assignments, Graph.getElem?_erase_move] at ha
    split at ha
    · cases ha
    · exact hpos n a ha

/-- Every question about an unplaced move has an answer in a state that requests lead to. -/
theorem asks {p : Program} {u : Usage} {g' : Graph} {rs : List Request} (hbuild : p.graph machine = .ok g)
    (hrun : runAll machine g rs = .ok (u, g')) (hsize : g.moves.size ≤ 4294967295)
    (hroom : g'.Room (u.lastCycle.getD 0)) : u.Asks (fun _ => True) g' fun o => ∃ op, g'.op? o = some op := by
  have hs := (Books.start hbuild).runAll hrun
  refine Usage.asks_of_room hs.sound.formed hs.orderly ?_ ?_ ?_
  · intro n m hm
    exact Id.ne_invalid hsize ((Kept.of_runAll hbuild hrun).size_eq ▸ Graph.lt_of_move? hm)
  · intro o v ho
    obtain ⟨⟨v', k⟩, hb, -⟩ := Option.map_eq_some_iff.1 ho
    have hpos := pos_of_entry ((hs.tallies.bindings o).symm.trans (by rw [hb]; rfl))
    have hformed := (Program.graph_formed hbuild).1
    have hop : ∃ op, g.op? o = some op := by
      rcases Nat.add_pos_iff_pos_or_pos.1 hpos with hpos | hpos
      · obtain ⟨n, m, a, hc, hsrc⟩ := Graph.demand_pos_iff.1 hpos
        exact hformed.src_known hc.1 hsrc
      · obtain ⟨n, m, a, hc, hdst⟩ := Graph.demand_pos_iff.1 hpos
        exact hformed.dst_known hc.1 hdst
    obtain ⟨op, hop⟩ := hop
    have hinstall : g' = u.install g := hs.installed
    exact ⟨_, by rw [hinstall, Usage.op?_install, hop]; rfl⟩
  · intro n a ha
    have hle : a.cycle ≤ u.lastCycle.getD 0 := by
      refine Int.not_lt.1 fun hlt => ?_
      exact Int.lt_irrefl _ (Usage.past_of_lastCycle hlt n a ha)
    exact ⟨cycle_nonneg (Books.start hbuild) hrun n a ha, hroom.mono hle⟩

/-- **The search for a place misses nothing.** As long as cycles and latencies are in range, the search
returns: the least cycle from `lower` on that the move can be placed in, and nothing only if there is no such
cycle at all, however late. -/
theorem earliestFit_isLeast {p : Program} {u : Usage} {g' : Graph} {rs : List Request} {n : MoveId} {m : Move}
    {lower : Cycle} (hbuild : p.graph machine = .ok g) (hrun : runAll machine g rs = .ok (u, g'))
    (hsize : g.moves.size ≤ 4294967295) (hm : g'.move n = .ok m) (hpending : m.placement = none)
    (hcarry : Usage.Carriable machine m)
    (hroom : g'.Room (max (max lower 0) (u.lastCycle.getD 0) + Usage.searchWindow)) :
    ∃ r, u.earliestFit machine g' lower n = .ok r ∧
      (∀ c, g'.Room c → ∃ b, u.canAssign machine g' c n = .ok b) ∧
      (∀ c, r = some c ↔ IsLeast {c | max lower 0 ≤ c ∧ u.canAssign machine g' c n = .ok true} c) ∧
      (r = none → ∀ c, max lower 0 ≤ c → u.canAssign machine g' c n ≠ .ok true) := by
  have hs := (Books.start hbuild).runAll hrun
  have hwindow : Usage.searchWindow = 64 := rfl
  rw [hwindow] at hroom
  have hasks := asks hbuild hrun hsize (hroom.mono (by lia))
  have hcan (c : Cycle) : u.canAssign machine g' c n = u.fits machine g' n c := by
    simp [Usage.canAssign, Graph.isPlaced, hm, Move.isPlaced, hpending]
  simp only [hcan]
  have hfits (c : Cycle) (hc : g'.Room c) : ∃ b, u.fits machine g' n c = .ok b := by
    refine succeeds_iff.1 (avoids_bind (hasks.avoids_fit (succeeds_iff.2 ⟨m, hm⟩) (fun m' hm' => ?_)
      fun hpos hop => Usage.succeeds_add hc hpos hop) fun _ => avoids_pure _)
    cases hm.symm.trans hm'
    exact hcarry.served hs.sound.formed (Graph.move?_of_move hm)
  have hadd : Cycle.add (max (max lower 0) (u.lastCycle.getD 0)) Usage.searchWindow =
      .ok (max (max lower 0) (u.lastCycle.getD 0) + 64) :=
    Cycle.check_eq_ok_iff.2 ⟨⟨by lia, hroom.1⟩, rfl⟩
  obtain ⟨r, hr, hsome, hnone⟩ := searchUp_spec (p := u.fits machine g' n) (c := max lower 0)
    (k := (max (max lower 0) (u.lastCycle.getD 0) + 64 - max lower 0 + 1).toNat)
    fun x hx hlt => hfits x (hroom.mono (by lia))
  have hnever : r = none → ∀ c, max lower 0 ≤ c → u.fits machine g' n c ≠ .ok true := by
    intro hr c hc hfit
    -- The first unused cycle is in the window, and no later one is better.
    have hfirst := hnone hr (max (max lower 0) (u.lastCycle.getD 0 + 1)) (by lia) (by lia)
    by_cases hlt : c < max (max lower 0) (u.lastCycle.getD 0 + 1)
    · cases hfit.symm.trans (hnone hr c hc (by lia))
    simp only [Usage.fits, bind_eq_ok, pure_eq_ok] at hfirst hfit
    obtain ⟨x, hx, hxnone⟩ := hfirst
    obtain ⟨y, hy, hysome⟩ := hfit
    obtain ⟨a, rfl⟩ := Option.isSome_iff_exists.1 hysome
    rw [Option.isSome_eq_false_iff, Option.isNone_iff_eq_none] at hxnone
    subst hxnone
    refine (Usage.past_of_lastCycle (by lia)).fit_ne_some (by lia) hs.ports hs.orderly ?_ (by lia) hx hy
    intro o op ho
    rw [Usage.ofLatency_of_room hroom (by lia) ho]
    lia
  refine ⟨r, ?_, hfits, fun c => ⟨fun hc => ?_, fun hc => ?_⟩, hnever⟩
  · simpa only [Usage.earliestFit, hadd, ok_bind] using hr
  · obtain ⟨hle, hpass, hbefore⟩ := hsome c hc
    refine ⟨⟨hle, hpass⟩, fun x hx => Int.not_lt.1 fun hlt => ?_⟩
    cases hx.2.symm.trans (hbefore x hx.1 hlt)
  · cases r with
    | none => exact absurd hc.1.2 (hnever rfl c hc.1.1)
    | some x =>
      obtain ⟨hle, hpass, hbefore⟩ := hsome x rfl
      have hxc : c ≤ x := hc.2 ⟨hle, hpass⟩
      rcases Int.lt_or_eq_of_le hxc with hlt | rfl
      · cases hc.1.2.symm.trans (hbefore c hc.1.1 hlt)
      · rfl

/-- The second move of the chain after the first one was placed. -/
theorem earliestFit_isLeast_chain : ∃ g u g', chainProgram.graph copyMachine = .ok g ∧
    runAll copyMachine g [.assign 0 ⟨0⟩] = .ok (u, g') ∧ u.earliestFit copyMachine g' 0 ⟨1⟩ = .ok (some 1) ∧
      IsLeast {c | max 0 0 ≤ c ∧ u.canAssign copyMachine g' c ⟨1⟩ = .ok true} 1 := by
  obtain ⟨g, u, g', hg, hrun, h⟩ := exists_of_chainRun [.assign 0 ⟨0⟩] (fun x => x.1.moves.size ≤ 2 &&
      (x.2.2.move ⟨1⟩).toOption.any (fun m => m.placement = none ∧ m.src = .output 2 ∧ m.dst = .input 1 true) &&
      x.2.2.ops.all (·.latency ≤ 1) && x.2.1.lastCycle = some 0 &&
      (x.2.1.earliestFit copyMachine x.2.2 0 ⟨1⟩).toOption.any (· = some 1)) (by decide +kernel)
  simp only [Bool.and_eq_true, decide_eq_true_eq, Array.all_eq_true] at h
  obtain ⟨⟨⟨⟨hsize, hmove⟩, hlat⟩, hlast⟩, hfit⟩ := h
  obtain ⟨m, hm, hmove⟩ := exists_ok_of_any hmove
  obtain ⟨_, hfit, hone⟩ := exists_ok_of_any hfit
  obtain ⟨hpending, hsrc, hdst⟩ := of_decide_eq_true hmove
  obtain rfl := of_decide_eq_true hone
  have hroom : g'.Room (max (max (0 : Cycle) 0) (u.lastCycle.getD 0) + Usage.searchWindow) := by
    simp only [hlast, Option.getD_some, Usage.searchWindow]
    refine ⟨by decide, fun o op ho => ?_⟩
    obtain ⟨hlt, rfl⟩ := Array.getElem?_eq_some_iff.1 ho
    have := hlat o.val hlt
    lia
  have hcarry : Usage.Carriable copyMachine m := by
    constructor <;> simp [hsrc, hdst, Terminal.isInput, Terminal.isImmediate, Terminal.isOutput, Terminal.reg?]
  obtain ⟨r, hr, -, hleast, -⟩ := earliestFit_isLeast hg hrun (by omega) hm hpending hcarry hroom
  cases hfit.symm.trans hr
  exact ⟨g, u, g', hg, hrun, hfit, (hleast 1).1 rfl⟩

end Request

end Transport
