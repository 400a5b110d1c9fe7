import Transport.Proofs.Run.Start
import Transport.Proofs.Scheduling.TopDown

/-!
# Top-down bypassing does not delay an operation

Once the operands of an operation are placed, those that can be bypassed are taken off their cycles one
by one and placed again, and then the others move up. Each step keeps an operand between two bounds, the
cycle that it had and the earliest one that the moves before it allow; the trigger comes last because it
waits for the other operands. The main statement is `RegionM.bypass_advances`.
-/

namespace Transport

open Transport.Graph

variable {machine : Machine} {g₀ g g' : Graph} {o : OpId} {ns : List MoveId} {n : MoveId} {c : Cycle}

namespace Graph

variable {m : Move} {l : Link} {d t s : Cycle}

/-! ## Distances -/

theorem linkLatency_ge (h : g.linkLatency l = .ok d) : -2147483648 ≤ d := by
  have hword (k : Nat) : -2147483648 ≤ Cycle.ofLatency k := by
    have := Int.le_bmod (x := (k : Int)) (m := 4294967296) (by omega)
    unfold Cycle.ofLatency
    lia
  have hdelay {x : Cycle} (hx : g.guardDelay l.dep = .ok x) : -2147483648 ≤ x := by
    unfold guardDelay at hx
    split at hx
    · simp only [bind_eq_ok, pure_eq_ok] at hx
      obtain ⟨k, -, rfl⟩ := hx
      exact hword _
    · simp only [pure_eq_ok] at hx
      lia
  unfold linkLatency at h
  split at h
  · cases pure_eq_ok.1 h
    unfold operationLatency
    split
    · split
      · cases g.op? _ with
        | none => simp
        | some op => rw [Option.map_some, Option.getD_some]; exact hword _
      · lia
    · lia
  · exact hdelay h
  · simp only [bind_eq_ok] at h
    obtain ⟨x, -, hd⟩ := h
    exact (Cycle.check_eq_ok_iff.1 hd).2 ▸ (Cycle.check_eq_ok_iff.1 hd).1.1
  all_goals simp only [pure_eq_ok] at h; lia

theorem operationLatency_nonneg (h : ∀ o op, (g.move? l.head).bind Move.srcOp = some o →
    (g.move? l.tail).bind Move.dstOp = some o → g.op? o = some op → op.latency < 2147483648) :
    0 ≤ g.operationLatency l := by
  unfold operationLatency
  split
  · rename_i o hsrc
    split
    · rename_i hdst
      cases ho : g.op? o with
      | none => simp
      | some op =>
        rw [Option.map_some, Option.getD_some, Cycle.ofLatency_of_lt (h o op hsrc hdst ho)]
        exact Int.natCast_nonneg _
    · lia
  · lia

/-- Within an operation, a move that does not read a result of it may come at once. -/
theorem linkLatency_of_foreign (hreason : l.dep.reason = .operation) (hm : g.move? l.head = some m)
    (hop : (g.move? l.tail).bind Move.dstOp = some o) (hsrc : m.srcOp ≠ some o) : g.linkLatency l = .ok 0 := by
  simp only [linkLatency, hreason, operationLatency, hm, hop, Option.bind_some]
  cases ho : m.srcOp with
  | none => rfl
  | some o' =>
    have hne : some o ≠ some o' := fun heq => hsrc (ho.trans heq.symm)
    simp [hne]

/-- Two moves that were far enough apart still are if the first one goes back, and the second not further. -/
theorem Apart.shift {t' s' : Cycle} (ha : Apart (g.linkLatency l) t s) (h0 : 0 ≤ t') (hle : t' ≤ t)
    (hdist : s - t ≤ s' - t') : Apart (g.linkLatency l) t' s' := by
  obtain ⟨d, sum, hd, hsum, hs⟩ := ha
  have hge := linkLatency_ge hd
  obtain ⟨hfits, rfl⟩ := Cycle.check_eq_ok_iff.1 hsum
  unfold Cycle.Fits at hfits
  exact ⟨d, t' + d, hd, Cycle.check_eq_ok_iff.2 ⟨⟨by lia, by lia⟩, rfl⟩, by lia⟩

/-- A latency depends on what the head reads and on what a run never changes. -/
theorem Framed.linkLatency (hf : g.Framed g')
    (hsrc : (g'.move? l.head).map Move.srcOp = (g.move? l.head).map Move.srcOp) :
    g'.linkLatency l = g.linkLatency l := by
  have hjoin (x : Option Move) : x.bind Move.srcOp = (x.map Move.srcOp).join := by
    cases x <;> rfl
  have hdst (x : Option Move) : x.bind Move.dstOp = (x.map Move.fixed).bind Move.Fixed.dstOp := by
    cases x <;> rfl
  have hlat (x : Option Operation) : x.map (fun op => Cycle.ofLatency op.latency) =
      (x.map Operation.latency).map Cycle.ofLatency := by
    cases x <;> rfl
  refine linkLatency_eq hf.guardLatencies fun _ => ?_
  simp only [operationLatency, hjoin, hsrc, hdst, hlat, hf.moves, hf.latencies]

/-- In the cycle `c`, the move `n` keeps its distance from every placed move before it. -/
def Trails (g : Graph) (n : MoveId) (c : Cycle) : Prop :=
  ∀ e l, g.link? e = some l → l.live → l.dep.isBack = false → l.head = n →
    ∀ t, g.cycleOf l.tail = some t → Apart (g.linkLatency l) t c

/-- A move is placed, not before its earliest cycle. -/
def OnTime (g : Graph) (n : MoveId) : Prop :=
  ∃ c e, g.cycleOf n = some c ∧ g.earliest n = .ok e ∧ e ≤ c

theorem earliest_of_trails (hg : g.Linked) (hm : g.move n = .ok m) (h0 : 0 ≤ c) (h : g.Trails n c) :
    ∃ e, g.earliest n = .ok e ∧ e ≤ c := by
  simp only [earliest, earliestOver, hm, ok_bind]
  refine exists_foldlM_eq_ok (P := (· ≤ c)) (fun x hx a ha => ?_) h0
  rw [List.mem_filter, ← entering_eq (move?_of_move hm), hg.mem_entering] at hx
  obtain ⟨⟨hl, hlive, hh⟩, hbounds⟩ := hx
  cases ht : (g.move? x.2.tail).bind Move.cycle? with
  | none => exact ⟨a, rfl, ha⟩
  | some t =>
    obtain ⟨d, sum, hd, hsum, hle⟩ := h x.1 x.2 hl hlive (by simpa [boundsCycles] using hbounds) hh t ht
    exact ⟨max a sum, by simp [hd, hsum], by lia⟩

theorem onTime_iff (hu : Upheld machine g₀ g) : g.OnTime n ↔ ∃ c, g.cycleOf n = some c ∧ g.Trails n c := by
  constructor
  · rintro ⟨c, e, hc, he, hle⟩
    exact ⟨c, hc, fun e' l hl hlive hback hh t ht =>
      ((earliest_le hu.linked he).2 e' l hl hlive hback hh t ht).mono hle⟩
  · rintro ⟨c, hc, h⟩
    obtain ⟨m, hm, -⟩ := cycleOf_eq_some.1 hc
    have hmove : g.move n = .ok m := Id.fetch_eq_ok_iff.2 ⟨hu.valid hc, hm⟩
    obtain ⟨e, he, hle⟩ := earliest_of_trails hu.linked hmove (hu.bounded n c hc).1 h
    exact ⟨c, e, hc, he, hle⟩

/-! ## One operand -/

/-- The operands `ns` of the operation `o` are placed on time, and an edge leads from each to the trigger. Results
of the operation are not placed yet, unless they go to operands directly. Where one goes to an operand in `ns`, the
latency is not read as negative. -/
structure Fed (g : Graph) (o : OpId) (ns : List MoveId) : Prop where
  operand {n : MoveId} {m : Move} : n ∈ ns → g.move? n = some m → m.dstOp = some o
  own {n : MoveId} {m : Move} {op : Operation} : n ∈ ns → g.move? n = some m → m.srcOp = some o →
    g.op? o = some op → op.latency < 2147483648
  onTime {n : MoveId} : n ∈ ns → g.OnTime n
  before {n t : MoveId} {m : Move} : n ∈ ns → t ∈ ns → n ≠ t → g.move? t = some m → m.isTrigger →
    ∃ e, g.link? e = some { tail := n, head := t, dep := .operation }
  result {x : MoveId} {m : Move} : g.move? x = some m → m.srcOp = some o → m.dstOp = none → g.cycleOf x = none

/-- The moves `ns` stay where they are or go to earlier cycles, and no other move changes its place. -/
def Advances (g : Graph) (ns : List MoveId) (g' : Graph) : Prop :=
  ∀ x, g'.cycleOf x = g.cycleOf x ∨
    x ∈ ns ∧ ∃ c c', g.cycleOf x = some c ∧ g'.cycleOf x = some c' ∧ c' ≤ c

theorem Advances.trans {g'' : Graph} (h : g.Advances ns g') (h' : g'.Advances ns g'') : g.Advances ns g'' := by
  intro x
  rcases h x with hx | ⟨hmem, c, c', hc, hc', hle⟩
  · rw [← hx]
    exact h' x
  · rcases h' x with hx | ⟨-, d, c'', hd, hc'', hle'⟩
    · exact .inr ⟨hmem, c, c', hc, hx.trans hc', hle⟩
    · cases hc'.symm.trans hd
      exact .inr ⟨hmem, c, c'', hc, hc'', by lia⟩

/-- The operand `n` of `o` goes from `old` to the cycle `c`. What else changes are edges that lead to it and what
it reads, which is no result of `o` then. -/
structure Hastens (g : Graph) (o : OpId) (n : MoveId) (old c : Cycle) (g' : Graph) : Prop where
  was : g.cycleOf n = some old
  le : c ≤ old
  cycle (x : MoveId) : g'.cycleOf x = if x = n then some c else g.cycleOf x
  source (x : MoveId) : (g'.move? x).map Move.srcOp = (g.move? x).map Move.srcOp ∨
    x = n ∧ ∀ m, g'.move? x = some m → m.srcOp ≠ some o
  live {e : EdgeId} {l : Link} : g'.link? e = some l → l.live → l.head ≠ n → g.link? e = some l
  kept {e : EdgeId} {l : Link} : g.link? e = some l → l.live → l.dep = .operation → g'.link? e = some l
  trails : g'.Trails n c

namespace Hastens

variable {old : Cycle} (h : g.Hastens o n old c g')
include h

theorem advances (hn : n ∈ ns) : g.Advances ns g' := by
  intro x
  rw [h.cycle]
  split
  · rename_i hx
    subst hx
    exact .inr ⟨hn, old, c, h.was, rfl, h.le⟩
  · exact .inl rfl

variable (hu : Upheld machine g₀ g) (hu' : Upheld machine g₀ g')
include hu hu'

/-- The other moves keep their distances, as the moves before them are not later than they were. -/
theorem trails_other {k : MoveId} {ck : Cycle} (hk : k ≠ n) (hfollows : g.Trails k ck) : g'.Trails k ck := by
  intro e l hl hlive hback hh t ht
  have hold := hfollows e l (h.live hl hlive (hh ▸ hk)) hlive hback hh
  rw [(hu.framed.symm.trans hu'.framed).linkLatency ((h.source _).resolve_right fun hn => hk (hh ▸ hn.1))]
  have h0 := (hu'.bounded _ t ht).1
  rw [h.cycle] at ht
  split at ht
  · rename_i hx
    cases ht
    rw [hx] at hold
    have hle := h.le
    exact (hold old h.was).shift h0 hle (by lia)
  · exact hold t ht

theorem fed (hn : n ∈ ns) (hfed : g.Fed o ns) : g'.Fed o ns := by
  have hf := hu'.framed.symm.trans hu.framed
  constructor
  case operand =>
    intro k m hk hm
    obtain ⟨m0, hm0, hfixed⟩ := hf.move? hm
    exact (congrArg Move.Fixed.dstOp hfixed).symm.trans (hfed.operand hk hm0)
  case own =>
    intro k m op hk hm hsrc hop
    rcases h.source k with hsame | ⟨-, hforeign⟩
    · obtain ⟨m0, hm0, hsrc0⟩ := exists_of_map_eq hsame hm
      obtain ⟨op0, hop0, hlat⟩ := exists_of_map_eq (hf.latencies o).symm hop
      exact hlat ▸ hfed.own hk hm0 (hsrc0.trans hsrc) hop0
    · exact absurd hsrc (hforeign m hm)
  case onTime =>
    intro k hk
    rw [onTime_iff hu']
    by_cases hkn : k = n
    · subst hkn
      exact ⟨c, by simp [h.cycle], h.trails⟩
    · obtain ⟨ck, hck, hfollows⟩ := (onTime_iff hu).1 (hfed.onTime hk)
      exact ⟨ck, by simp [h.cycle, hkn, hck], h.trails_other hu hu' hkn hfollows⟩
  case before =>
    intro k t m hk ht hne hm htrigger
    obtain ⟨m0, hm0, hfixed⟩ := hf.move? hm
    obtain ⟨e, hl⟩ := hfed.before hk ht hne hm0 ((congrArg Move.Fixed.trigger hfixed :).trans htrigger)
    exact ⟨e, h.kept hl rfl rfl⟩
  case result =>
    intro x m hm hsrc hdst
    obtain ⟨m0, hm0, hfixed⟩ := hf.move? hm
    have hdst0 : m0.dstOp = none := (congrArg Move.Fixed.dstOp hfixed).trans hdst
    have hxn : x ≠ n := by
      rintro rfl
      cases hdst0.symm.trans (hfed.operand hn hm0)
    obtain ⟨m1, hm1, hsrc1⟩ := exists_of_map_eq ((h.source x).resolve_right fun hs => hxn hs.1) hm
    cases hm0.symm.trans hm1
    rw [h.cycle, if_neg hxn]
    exact hfed.result hm0 (hsrc1.trans hsrc) hdst0

end Hastens

section

variable {u u' : Usage} {g₁ g₂ : Graph} {old : Cycle} {p : Option Placement}

theorem Places.source (h : g.Places n p g') (x : MoveId) :
    (g'.move? x).map Move.srcOp = (g.move? x).map Move.srcOp := h.map_eq (fun _ _ => rfl) x

/-- An operand is placed again, where it was or where the moves before it allow. -/
theorem hastens_of_assign (hu : Upheld machine g₀ g) (hold : g.cycleOf n = some old) (htrails : g.Trails n old)
    (hun : u.unassign g n = .ok (u', g₁)) (hc : c = old ∨ c ≤ old ∧ ∃ e, g₁.earliest n = .ok e ∧ e ≤ c)
    {u'' : Usage} (ha : u'.assign machine g₁ c n = .ok (u'', g')) :
    Upheld machine g₀ g' ∧ g.Hastens o n old c g' := by
  obtain ⟨-, -, -, hp⟩ := places_of_unassign hun
  obtain ⟨-, bus, -, -, hp'⟩ := places_of_assign ha
  have hu₁ := hu.places hp (by simp)
  obtain ⟨h0, hsmall⟩ := hu.bounded n old hold
  have hle : c ≤ old := by
    rcases hc with rfl | ⟨hle, -⟩
    · exact Int.le_refl _
    · exact hle
  have hc0 : 0 ≤ c := by
    rcases hc with rfl | ⟨-, e, he, hec⟩
    · exact h0
    · have := (earliest_le hu₁.linked he).1
      lia
  have hu' : Upheld machine g₀ g' := by
    refine hu₁.places hp' fun q hq => ?_
    cases hq
    exact ⟨hc0, by lia⟩
  have hcycle (x : MoveId) : g'.cycleOf x = if x = n then some c else g.cycleOf x := by
    rw [hp'.cycleOf, hp.cycleOf]
    split <;> rfl
  refine ⟨hu', hold, hle, hcycle, fun x => .inl ((hp'.source x).trans (hp.source x)), fun {e l} hl _ _ => ?_,
    fun {e l} hl _ _ => ?_, fun e l hl hlive hback hh t ht => ?_⟩
  · rwa [hp'.link?, hp.link?] at hl
  · rwa [hp'.link?, hp.link?]
  rw [hp'.link?] at hl
  rw [hp'.framed.linkLatency (hp'.source _)]
  -- The edge of a move to itself, or to a trigger that it starts, goes back with it.
  have hbefore := htrails e l (by rwa [hp.link?] at hl) hlive hback hh
  rw [← hp.framed.linkLatency (hp.source _)] at hbefore
  rw [hcycle] at ht
  split at ht
  · rename_i htail
    cases ht
    rw [htail] at hbefore
    exact (hbefore old hold).shift hc0 hle (by lia)
  · rename_i htail
    rcases hc with rfl | ⟨-, e', he, hec⟩
    · exact hbefore t ht
    · exact ((earliest_le hu₁.linked he).2 e l hl hlive hback hh t (by rwa [hp.cycleOf, if_neg htail])).mono hec

variable {source : MoveId} {edges : EdgeRecord} {red : Redirection} {r : Region}

/-- A bypass takes away no edge within an operation. -/
theorem Merges.operation_kept {reg : Reg} {e : EdgeId} (h : g.Merges source n reg g' edges)
    (hl : g.link? e = some l) (hlive : l.live) (hop : l.dep = .operation) : g'.link? e = some l := by
  obtain ⟨b, hb, hcut⟩ := h.rewires.kept hl
  rw [hb]
  cases b with
  | true => rw [← hlive]
  | false =>
    obtain ⟨l', hl', -, hgone⟩ := h.removed (hcut hlive rfl)
    cases hl.symm.trans hl'
    obtain ⟨hazard, hcarries⟩ : ∃ hazard, l.dep.carries hazard reg := hgone.elim (⟨_, ·.carries⟩) (⟨_, ·.carries⟩)
    simp [hop, Dependence.carries, Dependence.operation] at hcarries

/-- The producer of an operand that is bypassed is no result of the operation, as those are not placed yet. -/
theorem Fed.foreign {reg : Reg} {s d : Move} (hu : Upheld machine g₀ g) (hfed : g.Fed o ns)
    (hplaced : ∃ c, g.cycleOf source = some c) (hp : g.Places n p g₁)
    (hd : g₁.Diverts source n reg s d edges red g₂ g') : s.srcOp ≠ some o := by
  intro hsrc
  obtain ⟨m, hm, heq⟩ := hp.origin hd.producer
  obtain ⟨c, hc⟩ := hplaced
  have hin := hu.matched.dst_input hm
  rw [show m.dst = .register reg by rw [← hd.writes, heq]] at hin
  have hdst : m.dstOp = none := Option.isNone_iff_eq_none.1 (Option.isSome_eq_false_iff.1 hin)
  rw [hfed.result hm (by rw [← hsrc, heq]) hdst] at hc
  cases hc

/-- A bypassed operand is placed again where the moves before its producer allow. -/
theorem hastens_of_reroutes (hu : Upheld r.machine g₀ r.graph) (hfed : r.graph.Fed o ns) (hn : n ∈ ns)
    (hr : r.Reroutes n source old edges red u g₁ g₂) (hle : c ≤ old)
    (hearliest : ∃ e, g₂.earliest n = .ok e ∧ e ≤ c) (ha : u.assign r.machine g₂ c n = .ok (u', g')) :
    Upheld r.machine g₀ g' ∧ r.graph.Hastens o n old c g' := by
  obtain ⟨-, -, -, hp⟩ := places_of_unassign hr.unassign
  have hu₁ := hu.places hp (by simp)
  obtain ⟨reg, s, d, gm, hd⟩ := hu₁.diverted hr.bypasses
  have hu₂ := (hu₁.diverts hd).1
  obtain ⟨-, bus, -, -, hp'⟩ := places_of_assign ha
  obtain ⟨e, he, hec⟩ := hearliest
  have hbound := earliest_le hu₂.linked he
  have hsmall := (hu.bounded n old hr.was).2
  have h0 := hbound.1
  have hu' : Upheld r.machine g₀ g' := by
    refine hu₂.places hp' fun q hq => ?_
    cases hq
    exact ⟨by lia, by lia⟩
  have hcycle (x : MoveId) : g'.cycleOf x = if x = n then some c else r.graph.cycleOf x := by
    rw [hp'.cycleOf, hd.samePresence.cycleOf, hp.cycleOf]
    split <;> rfl
  obtain ⟨f, halters, hf⟩ := hd.redirects
  -- An edge is an old one, or one that leads to the operand from another move.
  have hedge {e : EdgeId} {l : Link} (hl : g'.link? e = some l) (hlive : l.live) :
      r.graph.link? e = some l ∨ l.head = n ∧ l.tail ≠ n := by
    rw [hp'.link?, halters.link?] at hl
    rcases hd.merges.rewires.live_or_new hl hlive with hl | hnew
    · rw [hp.link?] at hl
      exact .inl hl
    · exact .inr ⟨hnew.head, hnew.tail⟩
  have hforeign := hfed.foreign hu hr.produced hp hd
  obtain ⟨d₁, hd₁, hbare⟩ := hd.merges.rewires.moves.move? hd.consumer
  obtain ⟨units, hfd⟩ := hf d₁
  have hmove := hp'.self (halters.move_self hd₁)
  refine ⟨hu', hr.was, hle, hcycle, fun x => ?_, fun hl hlive hhead => ?_, fun {e l} hl hlive hop => ?_,
    fun e' l hl hlive hback hh t ht => ?_⟩
  · by_cases hx : x = n
    · subst hx
      refine .inr ⟨rfl, fun m hm => ?_⟩
      cases hmove.symm.trans hm
      rwa [hfd]
    · rw [hp'.source, halters.move_other hx, hd.merges.rewires.moves.map_eq fun _ => rfl, hp.source]
      exact .inl rfl
  · exact (hedge hl hlive).resolve_right fun h => hhead h.1
  · rw [hp'.link?, halters.link?]
    exact hd.merges.operation_kept (by rwa [hp.link?]) hlive hop
  · by_cases htail : l.tail = n
    · -- Such an edge is one within the operation, and the operand no longer waits for a result of it.
      have hreason := hu.loopless e' l ((hedge hl hlive).resolve_right fun h => h.2 htail) hlive hback
        (htail.trans hh.symm)
      obtain ⟨m, hm, heq⟩ := hp.origin hd.consumer
      have hdst : d₁.dstOp = some o := by
        have hkept : d₁.dstOp = d.dstOp := (congrArg Move.dstOp hbare :)
        rw [hkept, ← hfed.operand hn hm, heq]
      have hzero : g'.linkLatency l = .ok 0 :=
        linkLatency_of_foreign hreason (hh ▸ hmove) (by rw [htail, hmove, hfd]; exact hdst) (by rwa [hfd])
      rw [hcycle, if_pos htail] at ht
      cases ht
      exact ⟨0, c, hzero, Cycle.check_eq_ok_iff.2 ⟨⟨by lia, by lia⟩, by lia⟩, Int.le_refl _⟩
    · rw [hp'.framed.linkLatency (hp'.source _)]
      rw [hp'.link?] at hl
      rw [hp'.cycleOf, if_neg htail] at ht
      exact (hbound.2 e' l hl hlive hback hh t ht).mono hec

end

/-- The trigger waits for the other operands. -/
theorem Fed.le_trigger {t : MoveId} {ct : Cycle} (hu : Upheld machine g₀ g) (hfed : g.Fed o ns)
    (hn : n ∈ ns) (ht : t ∈ ns) (hm : g.move? t = some m) (htrigger : m.isTrigger) (hc : g.cycleOf n = some c)
    (hct : g.cycleOf t = some ct) : c ≤ ct := by
  by_cases hne : n = t
  · subst hne
    cases hc.symm.trans hct
    exact Int.le_refl _
  obtain ⟨e, hl⟩ := hfed.before hn ht hne hm htrigger
  obtain ⟨_, hct', htrails⟩ := (onTime_iff hu).1 (hfed.onTime ht)
  cases hct.symm.trans hct'
  obtain ⟨d, sum, hd, hsum, hle⟩ := htrails e _ hl rfl rfl rfl c hc
  have h0 : 0 ≤ d := by
    cases pure_eq_ok.1 hd
    obtain ⟨mn, hmn, -⟩ := cycleOf_eq_some.1 hc
    refine operationLatency_nonneg fun o' op hhead htail hop => ?_
    simp only [hm, hmn, Option.bind_some, hfed.operand hn hmn, Option.some.injEq] at hhead htail
    subst htail
    exact hfed.own ht hm hhead hop
  obtain ⟨-, rfl⟩ := Cycle.check_eq_ok_iff.1 hsum
  lia

end Graph

/-! ## A group -/

/-- The operands `ns` are as `Fed` says, and none of them is later than it was in `r`. -/
structure Region.Ahead (g₀ : Graph) (o : OpId) (ns : List MoveId) (r r' : Region) : Prop where
  upheld : Upheld r'.machine g₀ r'.graph
  fed : r'.graph.Fed o ns
  advances : r.graph.Advances ns r'.graph

variable {r r₁ r' : Region}

theorem Region.Ahead.trans (h : r.Ahead g₀ o ns r₁) (h' : r₁.Ahead g₀ o ns r') : r.Ahead g₀ o ns r' :=
  ⟨h'.upheld, h'.fed, h.advances.trans h'.advances⟩

theorem Graph.Hastens.ahead {old : Cycle} (hu : Upheld r.machine g₀ r.graph) (hfed : r.graph.Fed o ns)
    (hn : n ∈ ns) (hm : r'.machine = r.machine) (hu' : Upheld r.machine g₀ r'.graph)
    (h : r.graph.Hastens o n old c r'.graph) : r.Ahead g₀ o ns r' :=
  ⟨hm ▸ hu', h.fed hu hu' hn hfed, h.advances hn⟩

namespace RegionM

section

variable (hu : Upheld r.machine g₀ r.graph) (hfed : r.graph.Fed o ns)
include hu hfed

theorem ahead_refl : r.Ahead g₀ o ns r := ⟨hu, hfed, fun _ => .inl rfl⟩

theorem ahead_of_assign {u u' : Usage} {old : Cycle} (hn : n ∈ ns) (hold : r.graph.cycleOf n = some old)
    (hun : r.usage.unassign r.graph n = .ok (u, g)) (hc : c = old ∨ c ≤ old ∧ ∃ e, g.earliest n = .ok e ∧ e ≤ c)
    (ha : u.assign r.machine g c n = .ok (u', g')) : r.Ahead g₀ o ns { r with usage := u', graph := g' } := by
  obtain ⟨c', hc', htrails⟩ := (onTime_iff hu).1 (hfed.onTime hn)
  cases hold.symm.trans hc'
  obtain ⟨hu', h⟩ := hastens_of_assign hu hold htrails hun hc ha
  exact h.ahead hu hfed hn rfl hu'

theorem bypassOperand_ahead (hn : n ∈ ns) :
    Gives r (bypassOperand n) fun x r' => x = .failed ∨ r.Ahead g₀ o ns r' := by
  intro x r' h
  have hoperand (m : Move) (hm : r.graph.move? n = some m) : m.isOperand := by
    rw [Move.isOperand, hfed.operand hn hm]
    rfl
  cases bypassOperand_ends hoperand h with
  | skipped => exact .inr (ahead_refl hu hfed)
  | refused was unassign assign => exact .inr (ahead_of_assign hu hfed hn was unassign (.inl rfl) assign)
  | failed => exact .inl rfl
  | bypassed hr le earliest assign =>
    obtain ⟨hu', h⟩ := hastens_of_reroutes hu hfed hn hr le earliest assign
    exact .inr (h.ahead hu hfed hn rfl hu')

theorem moveUp_ahead (hn : n ∈ ns) : Gives r (moveUp n) fun _ r' => r.Ahead g₀ o ns r' := by
  intro _ _ h
  obtain ⟨old, c, u, g, u', g', hold, hun, hc, ha, rfl⟩ := moveUp_ok h
  exact ahead_of_assign hu hfed hn hold hun hc ha

end

theorem moveUps_ahead {ks : List MoveId} (hks : ∀ k ∈ ks, k ∈ ns) (hu : Upheld r.machine g₀ r.graph)
    (hfed : r.graph.Fed o ns) : Gives r (ks.forM moveUp) fun _ r' => r.Ahead g₀ o ns r' := by
  induction ks generalizing r with
  | nil => exact .pure (ahead_refl hu hfed)
  | cons k ks ih =>
    refine .bind ((moveUp_ahead hu hfed (hks k List.mem_cons_self)).mono fun _ r₁ h => ?_)
    exact (ih (fun x hx => hks x (List.mem_cons_of_mem _ hx)) h.upheld h.fed).mono fun _ _ => h.trans

/-- The operands are bypassed one by one, up to the first failure. -/
theorem bypassOperands_ahead {ks done : List MoveId} {t : Option MoveId} (hks : ∀ k ∈ ks, k ∈ ns)
    (hu : Upheld r.machine g₀ r.graph) (hfed : r.graph.Fed o ns)
    (ht : ∀ k, t = some k → k ∈ ns ∧ ∃ m, g₀.move? k = some m ∧ m.isTrigger) :
    Gives r (bypassOperands ks done t) fun x r' => ∀ y, x = some y → r.Ahead g₀ o ns r' ∧
      ∀ k, y.2 = some k → k ∈ ns ∧ ∃ m, g₀.move? k = some m ∧ m.isTrigger := by
  induction ks generalizing r done t with
  | nil =>
    refine .pure ?_
    rintro _ ⟨⟩
    exact ⟨ahead_refl hu hfed, ht⟩
  | cons k ks ih =>
    have hrest : ∀ x ∈ ks, x ∈ ns := fun x hx => hks x (List.mem_cons_of_mem _ hx)
    have hk := hks k List.mem_cons_self
    refine .move fun m hm => .ite (fun _ => ih hrest hu hfed ht) fun _ => ?_
    have ht' : ∀ x, (if m.isTrigger then some k else t) = some x → x ∈ ns ∧ ∃ m, g₀.move? x = some m ∧ m.isTrigger := by
      intro x hx
      split at hx
      · rename_i htrigger
        cases hx
        obtain ⟨m₀, hm₀, -⟩ := hu.framed.symm.move? (move?_of_move hm)
        exact ⟨hk, m₀, hm₀, (hu.isTrigger (move?_of_move hm) hm₀).symm.trans htrigger⟩
      · exact ht x hx
    refine .bind ((bypassOperand_ahead hu hfed hk).mono fun x r₁ h => ?_)
    have hgo (h : r.Ahead g₀ o ns r₁) (done : List MoveId) :=
      (@ih _ done _ hrest h.upheld h.fed ht').mono fun x r' hp y hy =>
        (⟨h.trans (hp y hy).1, (hp y hy).2⟩ : r.Ahead g₀ o ns r' ∧ _)
    cases x with
    | failed => exact .pure nofun
    | skipped => exact hgo (h.resolve_left nofun) _
    | bypassed => exact hgo (h.resolve_left nofun) _

/-- The trigger is where it should be already. -/
theorem settleTrigger_idle {t : MoveId} (hu : Upheld r.machine g₀ r.graph) (hfed : r.graph.Fed o ns)
    (ht : t ∈ ns ∧ ∃ m, g₀.move? t = some m ∧ m.isTrigger) :
    Gives r (settleTrigger t ns) fun _ r' => r = r' := by
  refine .look lastOperandCycle_ok fun x hlast => .move fun m hm => .lift fun c hc => ?_
  cases x with
  | none => exact .pure rfl
  | some last =>
    refine .ite (fun hlt => ?_) fun _ => .pure rfl
    obtain ⟨-, n, mn, -, hn, hmn, -, hcn⟩ := hlast last rfl
    obtain ⟨hmem, m₀, hm₀, htrigger⟩ := ht
    have hle := hfed.le_trigger (n := n) (c := last) hu hn hmem (move?_of_move hm)
      ((hu.isTrigger (move?_of_move hm) hm₀).trans htrigger) (cycleOf_eq_some.2 ⟨mn, hmn, hcn⟩) (cycleOf_of_cycle hm hc)
    lia

/-- An adder and three buses that lead everywhere. -/
def threeBuses : Machine where
  name := "m"
  files := #[{ name := "r", size := 4, readPorts := 2, writePorts := 2 }]
  units := #[⟨"alu", [⟨"add", 1, 2, 1⟩], 1, false⟩]
  buses := (Array.replicate 3 "b").map fun name =>
    ⟨name, 8, [.fileRead ⟨0⟩, .fileWrite ⟨0⟩, .unitIn ⟨0⟩ 0, .unitIn ⟨0⟩ 1, .unitOut ⟨0⟩ 2]⟩

/-- A sum goes through `r2` to the trigger of a second addition. -/
def sumOfSum : Program where
  operations := #[{ opcode := "add" }, { opcode := "add" }]
  moves := #[{ src := .register ⟨⟨0⟩, 0⟩, dst := .input 1 true, dstOp := some 0 },
    { src := .output 2, dst := .register ⟨⟨0⟩, 2⟩, srcOp := some 0 },
    { src := .register ⟨⟨0⟩, 1⟩, dst := .input 0 false, dstOp := some 1 },
    { src := .register ⟨⟨0⟩, 2⟩, dst := .input 1 true, dstOp := some 1 }]

/-- The second addition is bypassed, and both its operands move up. -/
def bypassSum : RegionM Bool := do
  assign ⟨0⟩ 0
  assign ⟨1⟩ 1
  assign ⟨2⟩ 1
  assign ⟨3⟩ 2
  let g ← graph
  let x ← bypass [⟨2⟩, ⟨3⟩]
  let g' ← graph
  return decide ((∀ m ∈ g.moves.toList, m.srcOp ≠ some ⟨1⟩) ∧ g.cycleOf ⟨2⟩ = some 1 ∧ g.cycleOf ⟨3⟩ = some 2 ∧
    g.earliest ⟨2⟩ = .ok 0 ∧ g.earliest ⟨3⟩ = .ok 2 ∧ (g.move? ⟨2⟩).map Move.dstOp = some (some ⟨1⟩) ∧
    (g.move? ⟨3⟩).map Move.dstOp = some (some ⟨1⟩) ∧ (g.move? ⟨2⟩).map Move.isTrigger = some false ∧
    g.link? ⟨2⟩ = some { tail := ⟨2⟩, head := ⟨3⟩, dep := .operation } ∧
    x = .bypassed 1 ∧ g'.cycleOf ⟨2⟩ = some 0 ∧ g'.cycleOf ⟨3⟩ = some 1)

theorem upheld_of_assign (hu : Upheld r.machine g₀ r.graph) (h0 : 0 ≤ c) (hc : c < 2147483648) {u : Unit}
    (h : assign n c r = .ok u r') : Upheld r'.machine g₀ r'.graph := by
  obtain ⟨u, g, ha, rfl⟩ := assign_ok h
  obtain ⟨-, bus, -, -, hp⟩ := places_of_assign ha
  refine hu.places hp fun q hq => ?_
  cases hq
  exact ⟨h0, hc⟩

/-- An addition whose first operand is its own sum. -/
def ownSum : Program where
  operations := #[{ opcode := "add" }]
  moves := #[{ src := .output 2, dst := .input 0 false, srcOp := some 0, dstOp := some 0 },
    { src := .immediate 5, dst := .input 1 true, dstOp := some 0 }]

end RegionM

end Transport
