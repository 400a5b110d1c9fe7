import Transport.Proofs.Scheduling.Turns

/-!
# From the first turn to the schedule

A block is scheduled by turns, from a region with a fresh selector to one where every move has a place.
Then the bypassed producers that nobody reads are swept out. `RegionM.schedule_ok` takes a schedule
apart that way.
-/

namespace Transport

open Transport.Graph
open Relation (ReflTransGen)

/-- What happens while dead producers are swept out. -/
inductive Sweep : Region → Region → Prop
  | quiet {r r' : Region} (machine : r'.machine = r.machine) (usage : r'.usage = r.usage)
      (graph : r.graph.Alike r'.graph) : Sweep r r'
  | remove {r : Region} {n : MoveId} {m : Move} {rm : RemovedMove} {u : Usage} {g g' : Graph}
      (move : r.graph.move? n = some m) (live : m.live) (result : m.isResult)
      (unneeded : r.graph.resultNeeded n = .ok false)
      (off : m.isPlaced = false ∧ u = r.usage ∧ g = r.graph ∨ r.usage.unassign r.graph n = .ok (u, g))
      (remove : g.removeMove n = .ok (g', rm)) : Sweep r { r with usage := u, graph := g' }

abbrev Sweeps : Region → Region → Prop := ReflTransGen Sweep

variable {options : Options} {way : Direction} {g0 g : Graph} {r r' : Region} {n : MoveId} {g' : Graph}
  {machine : Machine} {x : MoveId} {p : Option Placement}

/-- The region that a block is scheduled in, before any move has been offered. -/
def Region.begun (r : Region) (options : Options) : Region :=
  { r with
    stats := {}
    selector := some
      { direction := options.direction, orphans := options.orphans
        controlFlow := r.graph.moveIds.filter fun n => (r.graph.move? n).any Move.controlFlow }
    bypasser := { lookBack := options.bypassDistance, killDeadResults := options.killDeadResults }
    renamer := if options.renameRegisters
      then r.renamer.map ({ · with longImmediates := options.longImmediates }) else none }

/-! ## What a sweep keeps -/

theorem Graph.Places.showsKill (h : g.Places x p g') (l : Link) : g'.showsKill l = g.showsKill l := by
  have hguard : (g'.move? l.head).any Move.isUnguarded = (g.move? l.head).any Move.isUnguarded := by
    have := h.map_eq (f := Move.isUnguarded) (fun _ _ => rfl) l.head
    cases hm : g.move? l.head <;> cases hm' : g'.move? l.head <;> simp_all
  simp only [Graph.showsKill, hguard]

/-- Whether a value is needed does not depend on places. -/
theorem Graph.Places.resultNeeded {b : Bool}
    (h : g.Places x p g') (hb : g.resultNeeded n = .ok b) : g'.resultNeeded n = .ok b := by
  simp only [Graph.resultNeeded, bind_eq_ok] at hb
  obtain ⟨m, hm, hb⟩ := hb
  obtain ⟨q, hm'⟩ := h.move_of_move? (move?_of_move hm)
  have hentries (es : List EdgeId) : g'.entries es = g.entries es := by
    simp only [Graph.entries, h.link?]
  have hlive (r : Reg) : g'.isLiveOut r = g.isLiveOut r := by
    obtain ⟨ops, rfl⟩ := h.graph
    rfl
  rw [Graph.resultNeeded, move_eq_ok.2 ⟨(move_eq_ok.1 hm).1, hm'⟩]
  simp only [ok_bind, hentries, h.showsKill, hlive]
  exact hb

/-- A move that has just been taken off its cycle, if it had one, is taken out. -/
theorem Upheld.removal {g1 : Graph} {m : Move} {rm : RemovedMove} {u u' : Usage}
    (h : Upheld machine g0 g) (hm : g.move? n = some m) (hlive : m.live) (hresult : m.isResult)
    (hunneeded : g.resultNeeded n = .ok false)
    (hoff : m.isPlaced = false ∧ u' = u ∧ g1 = g ∨ u.unassign g n = .ok (u', g1))
    (hremove : g1.removeMove n = .ok (g', rm)) :
    Upheld machine g0 g1 ∧ Upheld machine g0 g' := by
  rcases hoff with ⟨-, -, rfl⟩ | hoff
  · exact ⟨h, (h.removes hm hlive hresult hunneeded hremove).1⟩
  · obtain ⟨m', -, -, hp⟩ := places_of_unassign hoff
    have hu := h.places hp (by simp)
    exact ⟨hu, (hu.removes (hp.self hm) hlive hresult (hp.resultNeeded hunneeded) hremove).1⟩

theorem Upheld.sweep (h : Upheld r.machine g0 r.graph) (hs : Sweep r r') :
    Upheld r'.machine g0 r'.graph := by
  cases hs with
  | quiet machine _ graph =>
    rw [machine]
    exact h.alike graph
  | remove move live result unneeded off remove => exact (h.removal move live result unneeded off remove).2

theorem Upheld.sweeps (h : Upheld r.machine g0 r.graph) (hs : Sweeps r r') :
    Upheld r'.machine g0 r'.graph := by
  induction hs with
  | refl => exact h
  | tail _ hsweep ih => exact ih.sweep hsweep

/-- What neither places nor the removal of a move take away is left after the sweeps. -/
theorem Sweeps.keep {P : Graph → Prop} (hs : Sweeps r r') (hstill : ∀ {g g' : Graph}, g.Still g' → P g → P g')
    (hremove : ∀ {g g' : Graph} {n : MoveId} {rm : RemovedMove}, g.removeMove n = .ok (g', rm) → P g → P g')
    (hP : P r.graph) : P r'.graph := by
  induction hs with
  | refl => exact hP
  | tail _ hsweep ih =>
    cases hsweep with
    | quiet _ _ graph => exact hstill (.of_alike graph) ih
    | remove _ _ _ _ off remove =>
      refine hremove remove ?_
      rcases off with ⟨-, -, rfl⟩ | off
      · exact ih
      · exact hstill (.of_unassign off) ih

namespace RegionM

theorem turns_prepare {v : Unit} (h : prepare options r = .ok v r') :
    Turns way g0 ⟨r.begun options, []⟩ ⟨r', []⟩ ∧ r'.stats = {} := by
  simp only [prepare, run_bind_ok, graph_ok, lift_logged_ok, run_modify_ok] at h
  obtain ⟨_, _, ⟨rfl, rfl⟩, ⟨x, g⟩, _, ⟨notes, hx, rfl⟩, rfl⟩ := h
  exact ⟨Selector.turns_offers (s := ⟨r.begun options, []⟩) rfl (Selector.offers_offerAll hx) notes, rfl⟩

/-- A producer without readers is taken out, or there is a reason to keep it. -/
theorem sweeps_removeDead {x : Option (RemovedMove × Option Cycle)}
    (h : removeDead n r = .ok x r') : Sweeps r r' ∧ r'.stats.groups = r.stats.groups ∧
      ∀ m m', r.graph.move? n = some m → m.live → m.isResult → r.graph.resultNeeded n = .ok false →
        r'.graph.move? n = some m' → m'.live = false := by
  obtain ⟨m, _, hm, hneeded, ⟨-, rfl, hkeep⟩ | ⟨hlive, hresult, rfl, u, g, g', rm, ns, hoff, hremove, -, hre⟩⟩ :=
    removeDead_ok h
  · refine ⟨.refl, rfl, fun m1 m' hm1 hlive hresult hno => ?_⟩
    cases hm.symm.trans hm1
    cases hneeded.symm.trans hno
    cases hkeep hlive hresult
  have hoff := hoff.imp_right And.right
  obtain ⟨s, ⟨-, hgroups⟩, rfl, hq⟩ := leads_reconsider (j := ⟨.topDown, [], []⟩) (s := { toRegion := _ }) hre
  have hsweep : Sweep r { r with usage := u, graph := g' } := .remove hm hlive hresult hneeded hoff hremove
  refine ⟨(ReflTransGen.single hsweep).tail (.quiet hq.machine hq.usage hq.graph), hgroups, fun _ m' _ _ _ _ hm' => ?_⟩
  obtain ⟨m1, -, hm1, -⟩ := removeMove_eq_ok hremove
  have hgone := presence_of_removeMove hremove n
  rw [← hq.graph.samePresence n, hm', move?_of_move hm1] at hgone
  simpa using (Prod.mk.inj (Option.some.inj hgone)).2

theorem sweeps_removeDeadSource : Gives r (removeDeadSource n) fun _ r' => Sweeps r r' ∧
    r'.stats.groups = r.stats.groups ∧ ∀ m m', r.graph.move? n = some m → m.live → m.isResult →
      r.graph.resultNeeded n = .ok false → m.dst.reg?.any r.graph.isForced → r'.graph.move? n = some m' →
      m'.live = false := by
  refine .move fun m hm => ?_
  have hsame {m1 : Move} (hm1 : r.graph.move? n = some m1) : m = m1 := Option.some.inj ((move?_of_move hm).symm.trans hm1)
  refine .ite (fun _ => .ask fun needed hneeded => .ite (fun hyes => .pure ?_) fun _ => ?_) fun hkind => .pure ?_
  · refine ⟨.refl, rfl, fun m1 m' _ _ _ hno => ?_⟩
    rw [hneeded, hyes] at hno
    cases hno
  · refine .graph (.bypasser (.ite (fun _ => .bind fun _ _ htry => .pure ?_) fun hunasked => .pure ?_))
    · obtain ⟨x, hx, -⟩ := tryStep_removeDead_ok htry
      obtain ⟨hsweeps, hgroups, hgone⟩ := sweeps_removeDead hx
      exact ⟨hsweeps, hgroups, fun m1 m' hm1 hlive hresult hno _ => hgone m1 m' hm1 hlive hresult hno⟩
    · refine ⟨.refl, rfl, fun m1 m' hm1 _ _ _ hforced => ?_⟩
      cases hsame hm1
      simp [hforced] at hunasked
  · refine ⟨.refl, rfl, fun m1 m' hm1 hlive hresult => ?_⟩
    cases hsame hm1
    simp [hlive, hresult] at hkind

/-- Every producer on the list is looked at once. -/
theorem sweeps_removeDeadSources {sources : List MoveId} {k : Nat} :
    Gives r (sources.foldlM (fun k n => do return if ← removeDeadSource n then k + 1 else k) k : RegionM Nat) fun _ r' =>
      Sweeps r r' ∧ r'.stats.groups = r.stats.groups ∧ ∀ n ∈ sources, ∃ r1 r2 b,
        Sweeps r r1 ∧ removeDeadSource n r1 = .ok b r2 ∧ Sweeps r2 r' := by
  induction sources generalizing r k with
  | nil => exact .pure ⟨.refl, rfl, by simp⟩
  | cons n sources ih =>
    rw [List.foldlM_cons]
    refine .bind (.bind fun b r1 hn => .pure (.mono ih fun _ r' h => ?_))
    obtain ⟨hfirst, hgroups, -⟩ := sweeps_removeDeadSource hn
    obtain ⟨hrest, hgroups', hall⟩ := h
    refine ⟨hfirst.trans hrest, hgroups'.trans hgroups, fun n' hn' => ?_⟩
    rcases List.mem_cons.1 hn' with rfl | hn'
    · exact ⟨_, _, b, .refl, hn, hrest⟩
    · obtain ⟨r2, r3, b', hto, hrun, hfrom⟩ := hall n' hn'
      exact ⟨r2, r3, b', hfirst.trans hto, hrun, hfrom⟩

theorem sweeps_dropDeadResults : Gives r dropDeadResults fun _ r' => Sweeps r r' ∧
    r'.stats.groups = r.stats.groups ∧ ∀ n ∈ r.bypasser.deadCandidates, ∃ r1 r2 b,
      Sweeps r r1 ∧ removeDeadSource n r1 = .ok b r2 ∧ Sweeps r2 r' := by
  refine .bypasser (.bind fun _ _ hset => .bind fun k r1 hfold => ?_)
  cases setBypasser_ok.1 hset
  have hstart : Sweep r { r with bypasser := { r.bypasser with deadCandidates := [] } } :=
    .quiet rfl rfl .refl
  obtain ⟨hsweeps, hgroups, hall⟩ := sweeps_removeDeadSources hfold
  refine .mono (P := fun _ r' => Sweep r1 r' ∧ r'.stats = r1.stats) ?_ fun _ r' h => ?_
  · exact .ite (fun _ => .note fun _ => .pure ⟨.quiet rfl rfl .refl, rfl⟩) fun _ => .pure ⟨.quiet rfl rfl .refl, rfl⟩
  obtain ⟨hend, hstats⟩ := h
  refine ⟨(ReflTransGen.head hstart hsweeps).tail hend, (congrArg Stats.groups hstats).trans hgroups, fun n hn => ?_⟩
  obtain ⟨r2, r3, b, hto, hrun, hfrom⟩ := hall n hn
  exact ⟨r2, r3, b, .head hstart hto, hrun, hfrom.tail hend⟩

theorem rejectUnplaced_ok : Gives r rejectUnplaced fun _ r' =>
    r' = r ∧ ∀ n m, r.graph.move? n = some m → m.live → m.isPlaced := by
  refine .graph (.ite (fun _ => .note fun _ => .raise) fun hleft => .pure ⟨rfl, fun n m hm hlive => ?_⟩)
  have := (List.countP_eq_zero.1 (Nat.eq_zero_of_not_pos hleft)) n (mem_moveIds.2 ⟨m, hm, hlive⟩)
  simpa [hm] using this

theorem endCycleOf_lt {c : Cycle} (h : endCycleOf g = .ok c) : c < 2147483648 := by
  simp only [endCycleOf, bind_eq_ok, Cycle.add] at h
  obtain ⟨_, -, total, -, h⟩ := h
  generalize Cycle.ofLatency total + 10 = d at h
  obtain ⟨⟨-, hlt⟩, rfl⟩ := Cycle.check_eq_ok_iff.1 h
  lia

end RegionM

/-- What happens to the block of a region: turns until all moves are in place, then the sweep. -/
structure Schedules (options : Options) (r placed r' : Region) : Prop where
  turns : Turns options.direction r.graph ⟨r.begun options, []⟩ ⟨placed, []⟩
  all {n : MoveId} {m : Move} : placed.graph.move? n = some m → m.live → m.isPlaced
  sweeps : Sweeps placed r'
  each {n : MoveId} : n ∈ placed.bypasser.deadCandidates → ∃ r₁ r₂ b,
    Sweeps placed r₁ ∧ RegionM.removeDeadSource n r₁ = .ok b r₂ ∧ Sweeps r₂ r'

namespace RegionM

theorem orderly_begun (hu : Upheld r.machine r.graph r.graph) : Orderly r.graph ⟨r.begun options, []⟩ := by
  refine ⟨hu, fun b hb => (nomatch hb), ?_, fun h => (nomatch h), fun h => (nomatch h)⟩
  rintro _ ⟨⟩ c hc
  cases hc

theorem placeAll_ok {v : Unit} (h : placeAll options r = .ok v r') : ∃ endCycle k r1 r2,
    endCycle < 2147483648 ∧ placeGroups options endCycle (r.graph.moves.size + 1) r = .ok () r1 ∧
      rejectUnplaced r1 = .ok () r1 ∧ dropDeadResults r1 = .ok k r2 ∧ Sweep r2 r' ∧
      r'.stats.groups = r2.stats.groups := by
  simp only [placeAll, run_bind_ok, graph_ok] at h
  obtain ⟨_, _, ⟨rfl, rfl⟩, h⟩ := h
  cases hdir : options.direction with
  | topDown =>
    simp only [hdir, run_bind_ok, count_ok] at h
    obtain ⟨c, _, hc, ⟨⟩, r1, hgroups, ⟨⟩, _, hreject, k, r2, hdrop, _, _, rfl, h⟩ := h
    obtain ⟨rfl, rfl⟩ := run_pure_ok.1 hc
    cases (rejectUnplaced_ok hreject).1
    exact ⟨0, k, r1, r2, by decide, hgroups, hreject, hdrop, run_modify_ok.1 h ▸ ⟨.quiet rfl rfl .refl, rfl⟩⟩
  | bottomUp =>
    simp only [hdir, run_bind_ok, count_ok, lift_ok] at h
    obtain ⟨c, _, ⟨hc, rfl⟩, ⟨⟩, r1, hgroups, ⟨⟩, _, hreject, k, r2, hdrop, _, _, rfl, h⟩ := h
    cases (rejectUnplaced_ok hreject).1
    exact ⟨c, k, r1, r2, endCycleOf_lt hc, hgroups, hreject, hdrop, run_modify_ok.1 h ▸ ⟨.quiet rfl rfl .refl, rfl⟩⟩

theorem scheduleWithin_ok : Gives r (scheduleWithin options) fun x r' =>
    ∃ r1 r2 notes notes', prepare options r = .ok () r1 ∧ placeAll options { r1 with notes } = .ok () r2 ∧
      Schedule.ofGraph r2.graph r2.stats = .ok x ∧ r' = { r2 with notes := notes' } := by
  refine .bind fun _ r1 hprepare => .get (.note fun notes => .bind fun _ r2 hplace => .get ?_)
  exact .lift fun x hx => .note fun notes' => .pure ⟨r1, r2, notes, notes', hprepare, hplace, hx, rfl⟩

theorem schedules_of_scheduleWithin {x : Schedule} (hu : Upheld r.machine r.graph r.graph)
    (h : scheduleWithin options r = .ok x r') : ∃ placed, Schedules options r placed r' := by
  obtain ⟨r1, r3, notes, notes', hprepare, hplace, -, rfl⟩ := scheduleWithin_ok h
  obtain ⟨endCycle, k, r4, r5, hend, hgroups, hreject, hdrop, hlast, -⟩ := placeAll_ok hplace
  have hturns : Turns options.direction r.graph ⟨r.begun options, []⟩ ⟨{ r1 with notes }, []⟩ :=
    (turns_prepare hprepare).1.tail (.tell notes r1.stats)
  have ho := (orderly_begun hu).turns hturns
  have hall := hturns.trans (turns_placeGroups ho hend hgroups)
  obtain ⟨hsweeps, -, heach⟩ := sweeps_dropDeadResults hdrop
  have hend : Sweeps r5 { r3 with notes := notes' } := (ReflTransGen.single hlast).tail (.quiet rfl rfl .refl)
  refine ⟨r4, hall, (rejectUnplaced_ok hreject).2 _ _, hsweeps.trans hend, fun hn => ?_⟩
  obtain ⟨r6, r7, b, hto, hrun, hfrom⟩ := heach _ hn
  exact ⟨r6, r7, b, hto, hrun, hfrom.trans hend⟩

end RegionM

theorem Graph.scheduleWithin_of_schedule {renamer : Option Renamer} {x : Schedule}
    (h : (g.schedule machine renamer options).1 = .ok x) :
    ∃ r, RegionM.scheduleWithin options { machine, graph := g, renamer } = .ok x r ∧
      r.graph = (g.schedule machine renamer options).2.graph := by
  revert h
  simp only [Graph.schedule, RegionM.schedule, EStateM.run]
  cases hrun : RegionM.scheduleWithin options { machine, graph := g, renamer } with
  | error e r => simp
  | ok y r =>
    rintro ⟨⟩
    exact ⟨r, rfl, rfl⟩

/-- A schedule of a graph comes from turns and a sweep. -/
theorem Graph.schedules_of_schedule {renamer : Option Renamer} {x : Schedule}
    (hu : Upheld machine g g) (h : (g.schedule machine renamer options).1 = .ok x) :
    ∃ placed r, Schedules options { machine, graph := g, renamer } placed r ∧
      r.graph = (g.schedule machine renamer options).2.graph := by
  obtain ⟨r, hrun, hgraph⟩ := scheduleWithin_of_schedule h
  obtain ⟨placed, hs⟩ := RegionM.schedules_of_scheduleWithin hu hrun
  exact ⟨placed, r, hs, hgraph⟩

end Transport
