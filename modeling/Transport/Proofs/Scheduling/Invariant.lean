import Transport.Proofs.Renaming.Soundness

/-!
# What the scheduler upholds

`Upheld` collects what is true of the graph at every moment of a run: moves, operations, edges and
tags are in order, and what a run never changes is as in the graph it began with. One lemma for each
kind of change says that it stays so.
-/

namespace Transport

/-- The edge of an operation that one of its operands has to itself. -/
structure Graph.OwnEdge (g : Graph) (e : EdgeId) (l : Link) : Prop where
  link : g.link? e = some l
  live : l.live
  reason : l.dep.reason = .operation
  self : l.tail = l.head
  operand : ∃ m, g.move? l.tail = some m ∧ m.isOperand

/-- One move gets another place or none, and at most the units of its operations change with it. -/
structure Graph.Places (g : Graph) (n : MoveId) (p : Option Placement) (g' : Graph) : Prop where
  valid : n ≠ .invalid
  known : ∃ m, g.move? n = some m
  graph : ∃ ops, g' = { g.modifyMove n fun m => { m with placement := p } with ops }
  op? (o : OpId) : ∃ unit, g'.op? o = (g.op? o).map fun op => { op with unit? := unit }

/-- What is true throughout a run that began with the graph `g₀`. -/
structure Upheld (machine : Machine) (g₀ g : Graph) : Prop where
  matched : g.Matched machine
  linked : g.Linked
  tagged : g.Tagged
  framed : g₀.Framed g
  loopless : g.Loopless
  bounded : g.Bounded
  valid {n : MoveId} {c : Cycle} : g.cycleOf n = some c → n ≠ .invalid
  ownEdge {e : EdgeId} {l : Link} : g₀.OwnEdge e l → g.link? e = some l
  result {n : MoveId} {m₀ : Move} {o : OpId} : g₀.move? n = some m₀ → m₀.srcOp = some o →
    ∃ m, g.move? n = some m ∧ m.srcOp = some o

/-! ## Places -/

namespace Graph

variable {machine : Machine} {g g' g'' : Graph} {u u' : Usage} {n x : MoveId} {m : Move} {e : EdgeId}
  {p : Option Placement} {c : Cycle} {op : Option OpId} {unit : Option UnitId}

namespace Places

section

variable (h : g.Places n p g')
include h

theorem move? (x : MoveId) : g'.move? x =
    if x = n then (g.move? x).map fun m => { m with placement := p } else g.move? x := by
  obtain ⟨ops, rfl⟩ := h.graph
  exact move?_modifyMove

theorem link? (e : EdgeId) : g'.link? e = g.link? e := by
  obtain ⟨ops, rfl⟩ := h.graph
  rfl

theorem self (hm : g.move? n = some m) : g'.move? n = some { m with placement := p } := by
  rw [h.move?, if_pos rfl, hm]
  rfl

theorem other (hx : x ≠ n) : g'.move? x = g.move? x := by
  rw [h.move?, if_neg hx]

theorem cycleOf : g'.cycleOf x = if x = n then p.map Placement.cycle else g.cycleOf x := by
  split
  · rename_i hx
    obtain ⟨m, hm⟩ := h.known
    rw [hx, Graph.cycleOf, h.self hm]
    rfl
  · rename_i hx
    rw [Graph.cycleOf, h.other hx]

/-- What does not look at the place is as before. -/
theorem map_eq {α : Type} {f : Move → α} (hf : ∀ m p, f { m with placement := p } = f m) (x : MoveId) :
    (g'.move? x).map f = (g.move? x).map f := by
  rw [h.move?]
  split
  · rw [Option.map_map]
    exact congrArg (Option.map · (g.move? x)) (funext fun m => hf m p)
  · rfl

theorem move_of_move? (hm : g.move? x = some m) : ∃ q, g'.move? x = some { m with placement := q } := by
  by_cases hx : x = n
  · exact ⟨p, hx ▸ h.self (hx ▸ hm)⟩
  · exact ⟨m.placement, (h.other hx).trans hm⟩

theorem origin {m' : Move} (hm' : g'.move? x = some m') :
    ∃ m, g.move? x = some m ∧ m' = { m with placement := m'.placement } := by
  by_cases hx : x = n
  · obtain ⟨m, hm⟩ := h.known
    rw [hx, h.self hm] at hm'
    cases hm'
    exact ⟨m, hx ▸ hm, rfl⟩
  · exact ⟨m', (h.other hx).symm.trans hm', rfl⟩

theorem linked (hg : g.Linked) : g'.Linked :=
  SameEdges.linked ⟨h.map_eq fun _ _ => rfl, h.link?⟩ hg

theorem sameShapes : g.SameShapes g' := by
  refine ⟨h.map_eq fun _ _ => rfl, fun o => ?_⟩
  obtain ⟨unit, ho⟩ := h.op? o
  rw [ho, Option.map_map]
  rfl

theorem framed : g.Framed g' := by
  refine ⟨h.map_eq fun _ _ => rfl, ?_, fun o => ?_, ?_, ?_⟩
  · obtain ⟨ops, rfl⟩ := h.graph
    simp [modifyMove]
  · obtain ⟨unit, ho⟩ := h.op? o
    rw [ho, Option.map_map]
    rfl
  · obtain ⟨ops, rfl⟩ := h.graph
    rfl
  · obtain ⟨ops, rfl⟩ := h.graph
    rfl

theorem sameRegisters : g.SameRegisters g' := h.map_eq fun _ _ => rfl

end

end Places

/-- At most the units of operations change. -/
structure Rebinds (g g' : Graph) : Prop where
  graph : ∃ ops, g' = { g with ops }
  op? (o : OpId) : ∃ unit, g'.op? o = (g.op? o).map fun op => { op with unit? := unit }

namespace Rebinds

theorem refl : g.Rebinds g := by
  refine ⟨⟨g.ops, rfl⟩, fun o => ?_⟩
  cases ho : g.op? o with
  | none => exact ⟨none, rfl⟩
  | some op => exact ⟨op.unit?, rfl⟩

theorem trans (h : g.Rebinds g') (h' : g'.Rebinds g'') : g.Rebinds g'' := by
  obtain ⟨ops, rfl⟩ := h.graph
  obtain ⟨ops', rfl⟩ := h'.graph
  refine ⟨⟨ops', rfl⟩, fun o => ?_⟩
  obtain ⟨unit, ho⟩ := h.op? o
  obtain ⟨unit', ho'⟩ := h'.op? o
  refine ⟨unit', ?_⟩
  rw [ho', ho, Option.map_map]
  rfl

theorem modifyOp {o : OpId} :
    g.Rebinds (g.modifyOp o fun op => { op with unit? := unit }) := by
  refine ⟨⟨_, rfl⟩, fun o' => ?_⟩
  rw [op?_modifyOp]
  split
  · exact ⟨unit, rfl⟩
  · exact refl.op? o'

end Rebinds

theorem rebinds_of_bind (h : u.bind g op unit = .ok (u', g')) : g.Rebinds g' := by
  rcases Usage.bind_cases op unit with ⟨o, v, rfl, rfl⟩ | ⟨-, -, hnone⟩
  · obtain ⟨-, -, -, rfl⟩ := Usage.bound_of_bind h
    exact .modifyOp
  · cases (hnone u g).1.symm.trans h
    exact .refl

theorem rebinds_of_unbind (h : u.unbind g op unit = .ok (u', g')) : g.Rebinds g' := by
  rcases Usage.bind_cases op unit with ⟨o, v, rfl, rfl⟩ | ⟨-, -, hnone⟩
  · obtain ⟨-, ⟨-, rfl⟩ | ⟨-, rfl⟩⟩ := Usage.freed_of_unbind h
    · exact .refl
    · exact .modifyOp
  · cases (hnone u g).2.symm.trans h
    exact .refl

theorem places_of_rebinds {g1 : Graph} (h : g.Rebinds g1) (hn : n ≠ .invalid)
    (hm : g.move? n = some m) (hset : g1.setPlacement n p = .ok g') : g.Places n p g' := by
  obtain ⟨-, -, rfl⟩ := setPlacement_ok hset
  obtain ⟨ops, rfl⟩ := h.graph
  exact ⟨hn, ⟨m, hm⟩, ⟨ops, rfl⟩, h.op?⟩

theorem places_of_assign (h : u.assign machine g c n = .ok (u', g')) :
    ∃ m b, g.move? n = some m ∧ m.placement = none ∧ g.Places n (some ⟨c, b⟩) g' := by
  obtain ⟨m, a, u1, g1, g2, hm, hpending, -, h1, h2, hset⟩ := Usage.assign_eq_ok h
  refine ⟨m, a.bus, move?_of_move hm, hpending, ?_⟩
  exact places_of_rebinds ((rebinds_of_bind h1).trans (rebinds_of_bind h2)) (move_eq_ok.1 hm).1
    (move?_of_move hm) hset

theorem places_of_unassign (h : u.unassign g n = .ok (u', g')) :
    ∃ m, g.move? n = some m ∧ m.isPlaced ∧ g.Places n none g' := by
  obtain ⟨m, a, u1, g1, g2, hm, hplaced, -, h1, h2, hset⟩ := Usage.unassign_eq_ok h
  refine ⟨m, move?_of_move hm, hplaced, ?_⟩
  exact places_of_rebinds ((rebinds_of_unbind h1).trans (rebinds_of_unbind h2)) (move_eq_ok.1 hm).1
    (move?_of_move hm) hset

end Graph

namespace Upheld

open Transport.Graph

variable {machine : Machine} {g0 g g' : Graph} {n : MoveId} {m : Move} {e : EdgeId}
  {l : Link} {p : Option Placement}

theorem places (h : Upheld machine g0 g) (hp : g.Places n p g')
    (hbound : ∀ q, p = some q → 0 ≤ q.cycle ∧ q.cycle < 2147483648) : Upheld machine g0 g' := by
  constructor
  case matched => exact h.matched.congr hp.sameShapes
  case linked => exact hp.linked h.linked
  case tagged =>
    refine ⟨fun hl => ?_, fun hl hlive => ?_⟩
    · exact (h.tagged.ok (hp.link? _ ▸ hl)).congr hp.sameRegisters.guardFile
    · exact (h.tagged.raw (hp.link? _ ▸ hl) hlive).congr hp.sameRegisters
  case framed => exact h.framed.trans hp.framed
  case loopless => exact fun e l hl => h.loopless e l (hp.link? e ▸ hl)
  case bounded =>
    intro x c hc
    rw [hp.cycleOf] at hc
    split at hc
    · obtain ⟨q, hq, rfl⟩ := Option.map_eq_some_iff.1 hc
      exact hbound q hq
    · exact h.bounded x c hc
  case valid =>
    intro x c hc
    rw [hp.cycleOf] at hc
    split at hc
    · rename_i hx
      exact hx ▸ hp.valid
    · exact h.valid hc
  case ownEdge => exact fun hl => (hp.link? _).trans (h.ownEdge hl)
  case result =>
    intro x m0 o hm0 ho
    obtain ⟨k, hk, hko⟩ := h.result hm0 ho
    obtain ⟨q, hq⟩ := hp.move_of_move? hk
    exact ⟨_, hq, hko⟩

/-! ## Edges -/

section

variable {New : MoveId → MoveId → Dependence → Prop} {Back Cut : EdgeId → Prop}

theorem rewires (h : Upheld machine g0 g) (hr : g.Rewires g' New Back Cut)
    (hnew : ∀ l : Link, New l.tail l.head l.dep → g.TagOk l ∧ l.dep.isRaw = false ∧ l.tail ≠ l.head)
    (hback : ∀ e l, Back e → g.link? e = some l → g.RawOk l ∧
      (l.dep.isBack = false → l.tail = l.head → l.dep.reason = .operation))
    (hcut : ∀ e l, Cut e → g.link? e = some l → ¬ g0.OwnEdge e l) : Upheld machine g0 g' := by
  have hcycle (x : MoveId) : g'.cycleOf x = g.cycleOf x := hr.moves.bind_eq fun _ => rfl
  constructor
  case matched => exact h.matched.congr hr.moves.sameShapes
  case linked => exact hr.linked h.linked
  case tagged =>
    exact h.tagged.rewires hr (fun l hl => ⟨(hnew l hl).1, (hnew l hl).2.1⟩)
      (fun e l hb hl => (hback e l hb hl).1)
  case framed => exact h.framed.trans hr.moves.framed
  case loopless =>
    intro e l hl hlive hb hself
    rcases hr.live hl hlive with hl0 | ⟨hbk, hl0⟩ | ⟨-, hn⟩
    · exact h.loopless e l hl0 hlive hb hself
    · exact (hback e _ hbk hl0).2 hb hself
    · exact absurd hself (hnew l hn).2.2
  case bounded => exact fun x c hc => h.bounded x c ((hcycle x).symm.trans hc)
  case valid => exact fun {x c} hc => h.valid ((hcycle x).symm.trans hc)
  case ownEdge =>
    intro e l hl
    have hl0 := h.ownEdge hl
    obtain ⟨b, hb, hc⟩ := hr.kept hl0
    cases b with
    | true =>
      have hlive := hl.live
      rw [hb]
      cases l
      simp_all
    | false => exact absurd hl (hcut e l (hc hl.live rfl) hl0)
  case result =>
    intro x m0 o hm0 ho
    obtain ⟨k, hk, hko⟩ := h.result hm0 ho
    obtain ⟨k', hk', hb⟩ := hr.moves.move? hk
    exact ⟨k', hk', (congrArg Move.srcOp hb :).trans hko⟩

end

/-! ## Renamings -/

theorem relocates {direction : Direction} {start : MoveId × Role} {range : LiveRange} {w : MoveId}
    {old new : Reg} (h : Upheld machine g0 g) (hr : g.Relocates direction start range w old new g') :
    Upheld machine g0 g' := by
  have hcycle (x : MoveId) : g'.cycleOf x = g.cycleOf x := hr.cycleOf
  constructor
  case matched => exact h.matched.congr (hr.sameShapes h.linked h.tagged)
  case linked => exact hr.linked h.linked
  case tagged => exact hr.tagged h.linked h.tagged
  case framed => exact h.framed.trans (hr.framed h.linked h.tagged)
  case loopless => exact hr.loopless h.loopless
  case bounded => exact fun x c hc => h.bounded x c ((hcycle x).symm.trans hc)
  case valid => exact fun {x c} hc => h.valid ((hcycle x).symm.trans hc)
  case ownEdge => exact fun hl => hr.link_of_reason (h.ownEdge hl) (by simp [hl.reason])
  case result =>
    intro x m0 o hm0 ho
    obtain ⟨k, hk, hko⟩ := h.result hm0 ho
    obtain ⟨k', hk', hb⟩ := hr.move? hk
    exact ⟨k', hk', (congrArg Move.srcOp hb :).trans hko⟩

/-! ## Bypasses and removals -/

/-- A function that changes no more of a move than what it reads and whether it is in the graph. -/
def Resources (f : Move → Move) : Prop :=
  ∀ m, ∃ src srcOp units live, f m = { m with src := src, srcOp := srcOp, srcUnits := units, live := live }

theorem alters {f : Move → Move} {k : OpId → Operation → Operation} (h : Upheld machine g0 g)
    (ha : g.Alters n f k g') (hf : Resources f) (hm : g.move? n = some m)
    (hmatched : g'.Matched machine) (hk : ∀ o op, k o op = { op with outputs := (k o op).outputs })
    (hop : m.dstOp.isSome ∨ (f m).srcOp = m.srcOp)
    (hread : ∀ e l, g.link? e = some l → l.live → l.dep.isRaw → l.dep.guardUse = false → l.head = n →
      (f m).src = m.src)
    (hresult : ∀ m0 o, g0.move? n = some m0 → m0.srcOp = some o → (f m).srcOp = some o) :
    Upheld machine g0 g' := by
  have hcycle (x : MoveId) : g'.cycleOf x = g.cycleOf x := by
    by_cases hx : x = n
    · obtain ⟨_, _, _, _, hfm⟩ := hf m
      subst hx
      rw [Graph.cycleOf, Graph.cycleOf, ha.move_self hm, hm, hfm]
      rfl
    · rw [Graph.cycleOf, Graph.cycleOf, ha.move_other hx]
  have hfixed : (f m).fixed = m.fixed := by
    obtain ⟨_, srcOp, _, _, hfm⟩ := hf m
    rcases hop with ho | ho
    · obtain ⟨o, ho⟩ := Option.isSome_iff_exists.1 ho
      simp [hfm, Move.fixed, ho, Move.isTrigger, Move.guardFile]
    · rw [hfm] at ho ⊢
      have ho : srcOp = m.srcOp := ho
      simp [Move.fixed, ho, Move.isTrigger, Move.guardFile]
  have hframed : g.Framed g' := by
    refine ⟨fun x => ?_, ha.size, fun o => ?_, ha.guardLatencies, ha.forcedFiles⟩
    · by_cases hx : x = n
      · subst hx
        rw [ha.move_self hm, hm, Option.map_some, Option.map_some, hfixed]
      · rw [ha.move_other hx]
    · rw [ha.op?]
      cases g.op? o with
      | none => rfl
      | some op => rw [Option.map_some, Option.map_some, hk]; rfl
  have hdst {x : MoveId} {mx : Move} (hx : g.move? x = some mx) :
      ∃ mx', g'.move? x = some mx' ∧ mx'.dst = mx.dst ∧ (x ≠ n → mx' = mx) := by
    by_cases hxn : x = n
    · subst hxn
      rw [hm] at hx
      cases hx
      obtain ⟨_, _, _, _, hfm⟩ := hf m
      exact ⟨f m, ha.move_self hm, by rw [hfm], fun hne => absurd rfl hne⟩
    · exact ⟨mx, by rw [ha.move_other hxn, hx], rfl, fun _ => rfl⟩
  constructor
  case matched => exact hmatched
  case linked =>
    refine ha.linked (fun m => ?_) (fun m => ?_) h.linked
    · obtain ⟨_, _, _, _, hfm⟩ := hf m
      rw [hfm]
    · obtain ⟨_, _, _, _, hfm⟩ := hf m
      rw [hfm]
  case tagged =>
    refine ⟨fun hl => ?_, fun {e l} hl hlive hraw => ?_⟩
    · exact (h.tagged.ok (ha.link? _ ▸ hl)).congr hframed.guardFile
    · rw [ha.link?] at hl
      obtain ⟨r, mt, mh, htag, hmt, hmh, hd, hs, hg⟩ := h.tagged.raw hl hlive hraw
      obtain ⟨mt', hmt', hd', -⟩ := hdst hmt
      obtain ⟨mh', hmh', -, hother⟩ := hdst hmh
      have hfile := of_some (hframed.guardFile _ _ hmh) hmh'
      refine ⟨r, mt', mh', htag, hmt', hmh', hd'.trans hd, fun hu => ?_, fun hu => hfile.trans (hg hu)⟩
      by_cases hx : l.head = n
      · have hsame := hread e l hl hlive hraw hu hx
        rw [hx, ha.move_self hm] at hmh'
        rw [hx, hm] at hmh
        cases hmh'
        cases hmh
        exact hsame.trans (hs hu)
      · rw [hother hx]
        exact hs hu
  case framed => exact h.framed.trans hframed
  case loopless => exact fun e l hl => h.loopless e l (ha.link? e ▸ hl)
  case bounded => exact fun x c hc => h.bounded x c ((hcycle x).symm.trans hc)
  case valid => exact fun {x c} hc => h.valid ((hcycle x).symm.trans hc)
  case ownEdge => exact fun hl => (ha.link? _).trans (h.ownEdge hl)
  case result =>
    intro x m0 o hm0 ho
    by_cases hx : x = n
    · subst hx
      exact ⟨f m, ha.move_self hm, hresult m0 o hm0 ho⟩
    · obtain ⟨k, hk, hko⟩ := h.result hm0 ho
      exact ⟨k, by rw [ha.move_other hx, hk], hko⟩

end Upheld

end Transport
