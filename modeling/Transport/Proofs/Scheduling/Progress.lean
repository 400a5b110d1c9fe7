import Transport.Proofs.Bypass.ForcedFile
import Transport.Proofs.Resource.Agreement
import Transport.Proofs.Run.Start
import Transport.Proofs.Selection.HandOut

/-!
# Every round makes progress

A round places the next group of the selector. When it is over, fewer moves of the graph wait for a
place, so the rounds come to an end, and there are at most as many groups as there were moves. The
tries to place an operation come to an end as well: each begins later than the one before, but for one
that gives up bypassing. No loop ends because it has been given too few turns.
-/

namespace Transport

open Transport.Graph
open Relation (ReflTransGen)

variable {j : Job} {g0 g g' : Graph} {n : MoveId} {way : Direction}

/-! ## Waiting moves -/

/-- How many moves of the graph have no place. -/
def Graph.waiting (g : Graph) : Nat := g.moveIds.countP fun n => (g.move? n).any (!·.isPlaced)

section

variable {s s' : Moment}

/-- What is in the graph, or can still come back, was so before. -/
theorem Effect.had (he : Effect j g0 s s')
    (hn : s'.graph.Has n ∨ n ∈ s'.opened.filterMap Frame.gone?) :
    s.graph.Has n ∨ n ∈ s.opened.filterMap Frame.gone? := by
  cases he with
  | still graph opened => rwa [graph.has_iff, opened] at hn
  | divert _ _ before _ diverts after opened =>
    rw [after.has_iff, diverts.samePresence.has_iff, before.has_iff, opened] at hn
    exact hn
  | undivert opened back undo restore =>
    rw [(back.samePresence_of_undo undo restore).has_iff] at hn
    rw [opened]
    exact hn
  | drop _ move live result _ remove opened =>
    rw [has_of_removeMove remove, opened] at hn
    rcases hn with hn | hn
    · exact .inl hn.1
    · rcases List.mem_cons.1 hn with rfl | hn
      · rw [move_of_removeMove remove]
        exact .inl ⟨_, move, live⟩
      · exact .inr hn
  | @restore rm opened back restore =>
    rw [opened]
    by_cases heq : n = rm.move
    · exact .inr (heq ▸ List.mem_cons_self)
    · rw [back.has_of_restore restore heq] at hn
      exact hn.imp_right (List.mem_cons_of_mem _)
  | rename _ _ _ _ relocates _ opened => rwa [relocates.samePresence.has_iff, opened] at hn
  | commit graph opened =>
    rw [graph, opened] at hn
    exact hn.imp_right (nomatch ·)

theorem Steady.had (hs : Steady j g0 s) (ha : Acts j s s')
    (hn : s'.graph.Has n ∨ n ∈ s'.opened.filterMap Frame.gone?) :
    s.graph.Has n ∨ n ∈ s.opened.filterMap Frame.gone? := by
  induction ha with
  | refl => exact hn
  | tail hacts hact ih => exact ih (((hs.acts hacts).effect hact).had hn)

end

theorem Graph.waits_iff : g.Waits n ↔ g.Has n ∧ g.cycleOf n = none := by
  constructor
  · rintro ⟨m, hm, hlive, hoff⟩
    exact ⟨⟨m, hm, hlive⟩, by simp [Graph.cycleOf, hm, Move.cycle?, hoff]⟩
  · rintro ⟨⟨m, hm, hlive⟩, hoff⟩
    exact ⟨m, hm, hlive, by simpa [Graph.cycleOf, hm, Move.cycle?] using hoff⟩

theorem Graph.mem_waiting : n ∈ g.moveIds.filter (fun n => (g.move? n).any (!·.isPlaced)) ↔ g.Waits n := by
  rw [List.mem_filter, mem_moveIds]
  constructor
  · rintro ⟨⟨m, hm, hlive⟩, hoff⟩
    exact ⟨m, hm, hlive, by simpa [hm, Move.isPlaced] using hoff⟩
  · rintro ⟨m, hm, hlive, hoff⟩
    exact ⟨⟨m, hm, hlive⟩, by simp [hm, Move.isPlaced, hoff]⟩

theorem Graph.waiting_le_size : g.waiting ≤ g.moves.size := by
  have hall : g.moveIds.length ≤ (Id.below g.moves.size : List MoveId).length := List.length_filter_le _ _
  refine Nat.le_trans List.countP_le_length ?_
  simpa [Id.below] using hall

theorem Graph.nodup_waiting : (g.moveIds.filter (fun n => (g.move? n).any (!·.isPlaced))).Nodup :=
  (Id.nodup_below.filter _).filter _

section

variable (h : ∀ n, g'.Waits n → g.Waits n)
include h

theorem Graph.waiting_le : g'.waiting ≤ g.waiting := by
  rw [waiting, waiting, List.countP_eq_length_filter, List.countP_eq_length_filter]
  exact (nodup_waiting.subperm fun n hn => mem_waiting.2 (h n (mem_waiting.1 hn))).length_le

/-- Fewer moves wait if none is new among them and one of them got a place. -/
theorem Graph.waiting_lt (hn : g.Waits n) (hn' : ¬ g'.Waits n) : g'.waiting < g.waiting := by
  rw [waiting, waiting, List.countP_eq_length_filter, List.countP_eq_length_filter]
  have hnodup := List.nodup_cons.2 ⟨mt mem_waiting.1 hn', nodup_waiting⟩
  refine (hnodup.subperm fun x hx => ?_).length_le
  rcases List.mem_cons.1 hx with rfl | hx
  · exact mem_waiting.2 hn
  · exact mem_waiting.2 (h x (mem_waiting.1 hx))

end

/-! ## Turns -/

section

variable {s s' : Round}

/-- No turn makes a move wait that did not wait before. -/
theorem Turn.waits (ht : Turn way g0 s s') (ho : Orderly g0 s) (hn : s'.graph.Waits n) : s.graph.Waits n := by
  cases ht with
  | tell => exact hn
  | offer _ offer =>
    have hsame := (Selector.alike_of_offer offer).samePresence
    rw [waits_iff, hsame.has_iff, hsame.cycleOf] at hn
    exact waits_iff.2 hn
  | hand => exact hn
  | @unit u us j s' left along fits pending acts settled =>
    have hs : Steady j g0 { toRegion := s.toRegion } := ⟨ho.upheld, by simp, .nil⟩
    obtain ⟨hhas, hoff⟩ := waits_iff.1 hn
    have hout : n ∉ j.moves := fun hmem => settled.placed n hmem hoff
    refine waits_iff.2 ⟨?_, (hs.cycleOf fits.operands acts hout).symm.trans hoff⟩
    exact (hs.had acts (.inl hhas)).resolve_right (nomatch ·)

/-- Of the moves `ns`, only those of the units that are left wait. -/
def Round.Left (ns : List MoveId) (s : Round) : Prop := ∀ n ∈ ns, s.graph.Waits n → ∃ u ∈ s.units, n ∈ u

theorem Turn.left {ns : List MoveId} (ht : Turn way g0 s s') (ho : Orderly g0 s) (hl : s.Left ns) : s'.Left ns := by
  intro n hn hwaits
  have hstarts := ht.waits ho hwaits
  obtain ⟨v, hv, hnv⟩ := hl n hn hstarts
  cases ht with
  | tell => exact ⟨v, hv, hnv⟩
  | offer => exact ⟨v, hv, hnv⟩
  | hand done => rw [done] at hv; cases hv
  | @unit u us j s' left along fits pending acts settled =>
    rw [left] at hv
    rcases List.mem_cons.1 hv with rfl | hv
    · have hmem : n ∈ j.moves := (Selector.mem_pending pending).2 ⟨hnv, hstarts⟩
      exact absurd (waits_iff.1 hwaits).2 (settled.placed n hmem)
    · exact ⟨v, hv, hnv⟩

theorem Turns.waits (ht : Turns way g0 s s') (ho : Orderly g0 s) (hn : s'.graph.Waits n) : s.graph.Waits n := by
  induction ht with
  | refl => exact hn
  | tail hturns hturn ih => exact ih (hturn.waits (ho.turns hturns) hn)

theorem Turns.left {ns : List MoveId} (ht : Turns way g0 s s') (ho : Orderly g0 s) (hl : s.Left ns) : s'.Left ns := by
  induction ht with
  | refl => exact hl
  | tail hturns hturn ih => exact hturn.left (ho.turns hturns) ih

end

/-! ## Rounds -/

namespace RegionM

variable {options : Options} {endCycle : Cycle} {r r' : Region}

/-- A round places moves that waited, and takes none off its place. -/
theorem placeGroup_progress (ho : Orderly g0 ⟨r, []⟩) (hend : endCycle < 2147483648)
    (h : placeGroup options endCycle r = .ok true r') :
    Orderly g0 ⟨r', []⟩ ∧ r'.graph.waiting < r.graph.waiting ∧ r'.stats.groups = r.stats.groups + 1 := by
  obtain ⟨hturns, -, hround⟩ := turns_placeGroup ho hend h
  obtain ⟨hgroups, group, us, x, x', r1, r2, hne, hbefore, htake, hunits, hstart, hall⟩ := hround rfl
  refine ⟨ho.turns hturns, ?_, hgroups⟩
  obtain ⟨-, -, -, hgroup⟩ := Selector.take_ok htake
  obtain ⟨c, -, hpending⟩ := hgroup.resolve_left hne
  obtain ⟨n, hn⟩ := List.exists_mem_of_ne_nil group hne
  have hwaits : r1.graph.Waits n := ((Selector.mem_pending hpending).1 hn).2
  obtain ⟨hmem, htag⟩ := Group.mem_orderedUnits hunits
  have hleft : Round.Left group ⟨r2, us⟩ := by
    rintro n hn -
    obtain ⟨k, hk⟩ := htag n hn
    have hin : n ∈ group.filter (r1.graph.tagOf · = some k) := List.mem_filter.2 ⟨hn, by simpa using hk⟩
    exact ⟨_, (hmem _).2 ⟨List.ne_nil_of_mem hin, k, rfl⟩, hin⟩
  refine waiting_lt (n := n) (fun _ => Turns.waits hturns ho) (Turns.waits hbefore ho hwaits) fun hn' => ?_
  obtain ⟨u, hu, -⟩ := Turns.left hall (ho.turns (hbefore.trans hstart)) hleft n hn hn'
  cases hu

theorem run_bind_congr {ε σ α β : Type} {x : EStateM ε σ α} {f f' : α → EStateM ε σ β} {s : σ}
    (h : ∀ a s', x s = .ok a s' → f a s' = f' a s') : (x >>= f) s = (x >>= f') s := by
  show EStateM.bind x f s = EStateM.bind x f' s
  unfold EStateM.bind
  cases hx : x s with
  | ok a s' => exact h a s' hx
  | error e s' => rfl

/-- More turns than moves that wait make no difference. -/
theorem placeGroups_eq {fuel fuel' : Nat} (ho : Orderly g0 ⟨r, []⟩) (hend : endCycle < 2147483648)
    (h : r.graph.waiting < fuel) (h' : r.graph.waiting < fuel') :
    placeGroups options endCycle fuel r = placeGroups options endCycle fuel' r := by
  induction fuel generalizing fuel' r with
  | zero => cases h
  | succ fuel ih =>
    cases fuel' with
    | zero => cases h'
    | succ fuel' =>
      rw [placeGroups_succ, placeGroups_succ]
      refine run_bind_congr fun b r1 hb => ?_
      cases b with
      | false => rfl
      | true =>
        obtain ⟨ho1, hlt, -⟩ := placeGroup_progress ho hend hb
        exact ih ho1 (by omega) (by omega)

/-- There are no more groups than moves that wait. -/
theorem groups_le_of_placeGroups {fuel : Nat} {v : Unit} (ho : Orderly g0 ⟨r, []⟩) (hend : endCycle < 2147483648)
    (h : placeGroups options endCycle fuel r = .ok v r') :
    r'.stats.groups + r'.graph.waiting ≤ r.stats.groups + r.graph.waiting := by
  induction fuel generalizing r with
  | zero =>
    obtain ⟨-, rfl⟩ := run_pure_ok.1 h
    exact Nat.le_refl _
  | succ fuel ih =>
    rw [placeGroups_succ, run_bind_ok] at h
    obtain ⟨b, r1, hb, h⟩ := h
    cases b with
    | false =>
      obtain ⟨-, rfl⟩ := run_pure_ok.1 h
      obtain ⟨hturns, hstats, -⟩ := turns_placeGroup ho hend hb
      exact Nat.add_le_add (Nat.le_of_eq (congrArg Stats.groups (hstats rfl))) (waiting_le fun _ => Turns.waits hturns ho)
    | true =>
      obtain ⟨ho1, hlt, hgroups⟩ := placeGroup_progress ho hend hb
      have := ih ho1 h
      omega

/-! ## Tries -/

variable {unit operands results : List MoveId} {start start' first horizon : Cycle} {bypassing bypassing' : Bool}

theorem bypassPlaced_ok {x : Option Nat} (h : bypassPlaced operands bypassing r = .ok x r') :
    x = some 0 ∨ bypassing = true := by
  cases bypassing with
  | false => exact .inl (run_pure_ok.1 h).1.symm
  | true => exact .inr rfl

/-- A try that fails leads to a later one, or to one without bypassing. -/
theorem tryEarly_again : Gives r (tryEarly options unit operands results start bypassing) fun x _ =>
    ∀ start' bypassing', x = .again start' bypassing' →
      start < start' ∧ bypassing' = bypassing ∨ start' = start ∧ bypassing = true ∧ bypassing' = false := by
  refine .bind fun first _ _ => ?_
  rcases first with _ | first
  · refine .bind fun _ _ _ => .pure ?_
    rintro _ _ ⟨⟩
    exact .inl ⟨by lia, rfl⟩
  refine .bind fun bypassed _ hbypass => ?_
  rcases bypassed with _ | bypassed
  · refine .pure ?_
    rintro _ _ ⟨⟩
    exact .inr ⟨rfl, (bypassPlaced_ok hbypass).resolve_left (by simp), rfl⟩
  refine .bind fun _ _ _ => .bind fun placed _ _ => .ite (fun _ => .bind fun _ _ _ => ?_) fun _ => ?_
  · exact .ite (fun _ => .bind fun _ _ _ => .pure (by simp)) fun _ => .pure (by simp)
  refine .bind fun _ _ _ => .bind fun _ _ _ => .ite (fun hpos => .bind fun _ _ _ => .pure ?_) fun _ => ?_
  · rintro _ _ ⟨⟩
    refine .inr ⟨rfl, (bypassPlaced_ok hbypass).resolve_left fun hzero => ?_, rfl⟩
    cases hzero
    cases hpos
  · refine .bind fun _ _ _ => .bind fun _ _ _ => .pure ?_
    rintro _ _ ⟨⟩
    exact .inl ⟨by lia, rfl⟩

/-- How many more tries there can be. -/
def triesLeft (horizon start : Cycle) (bypassing : Bool) : Nat := (horizon - start + 1).toNat + bypassing.toNat

theorem retryEarly_past {fuel : Nat} (h : horizon < start) :
    retryEarly options unit operands results horizon fuel start bypassing = pure false := by
  cases fuel with
  | zero => rfl
  | succ fuel => rw [retryEarly, if_pos h]

/-- More turns than there can be tries make no difference. -/
theorem retryEarly_eq {fuel fuel' : Nat} (h : triesLeft horizon start bypassing < fuel)
    (h' : triesLeft horizon start bypassing < fuel') :
    retryEarly options unit operands results horizon fuel start bypassing r =
      retryEarly options unit operands results horizon fuel' start bypassing r := by
  induction fuel generalizing fuel' start bypassing r with
  | zero => cases h
  | succ fuel ih =>
    cases fuel' with
    | zero => cases h'
    | succ fuel' =>
      simp only [retryEarly]
      split
      · rfl
      rename_i hwithin
      refine run_bind_congr fun retry r1 hretry => ?_
      cases retry with
      | done => rfl
      | again start1 bypassing1 =>
        have hlt : triesLeft horizon start1 bypassing1 < triesLeft horizon start bypassing := by
          unfold triesLeft
          obtain ⟨hlater, rfl⟩ | ⟨rfl, rfl, rfl⟩ := tryEarly_again hretry _ _ rfl
          · lia
          · simp
        exact ih (by omega) (by omega)

end RegionM

/-! ## Whole blocks -/

theorem Schedule.stats_ofGraph {stats : Stats} {x : Schedule} (h : ofGraph g stats = .ok x) : x.stats = stats := by
  unfold ofGraph at h
  simp only at h
  split at h
  · simp only [bind_eq_ok, pure_eq_ok] at h
    obtain ⟨_, -, _, -, rfl⟩ := h
    rfl
  · cases pure_eq_ok.1 h
    rfl

namespace Program

open RegionM

variable {p : Program} {machine : Machine}

theorem groups_le_of_schedule {renamer : Option Renamer} {options : Options} {x : Schedule}
    (hu : Upheld machine g g) (h : (g.schedule machine renamer options).1 = .ok x) :
    x.stats.groups ≤ g.moveIds.length := by
  obtain ⟨r, hrun, -⟩ := Graph.scheduleWithin_of_schedule h
  obtain ⟨r1, r2, notes, -, hprepare, hplace, hx, -⟩ := scheduleWithin_ok hrun
  obtain ⟨endCycle, k, r3, r4, hend, hgroups, -, hdrop, -, hcount⟩ := placeAll_ok hplace
  obtain ⟨hturns, hstats⟩ : Turns options.direction g _ ⟨r1, []⟩ ∧ _ := turns_prepare hprepare
  have hbegun : Orderly g ⟨Region.begun { machine, graph := g, renamer } options, []⟩ :=
    orderly_begun (r := { machine, graph := g, renamer }) hu
  have hready : Orderly g ⟨{ r1 with notes }, []⟩ := hbegun.turns (hturns.tail (.tell notes r1.stats))
  have hrounds := groups_le_of_placeGroups hready hend hgroups
  have hsweep : r4.stats.groups = r3.stats.groups := (sweeps_dropDeadResults hdrop).2.1
  have hwaiting : r1.graph.waiting ≤ g.waiting := waiting_le fun _ => Turns.waits hturns hbegun
  have hall : g.waiting ≤ g.moveIds.length := List.countP_le_length
  have hzero : r1.stats.groups = 0 := congrArg Stats.groups hstats
  rw [Schedule.stats_ofGraph hx]
  simp only at hrounds
  omega

/-- Every round of scheduling a block leaves fewer moves without a place, and there are at most as many
groups as moves. Neither the rounds nor the tries to place an operation end for want of turns. -/
theorem schedule_progresses (h : p.graph machine = .ok g) (options : Options) (renamer : Option Renamer) :
    (∀ r₀ r endCycle, prepare options { machine, graph := g, renamer } = .ok () r₀ → endCycle < 2147483648 →
      ReflTransGen (fun r r' => placeGroup options endCycle r = .ok true r') r₀ r →
      (∀ r', placeGroup options endCycle r = .ok true r' → r'.graph.waiting < r.graph.waiting) ∧
      r.graph.waiting ≤ r.graph.moves.size ∧ ∀ fuel, r.graph.waiting < fuel →
        placeGroups options endCycle fuel r = placeGroups options endCycle (r.graph.waiting + 1) r) ∧
    (∀ x, (g.schedule machine renamer options).1 = .ok x → x.stats.groups ≤ g.moveIds.length) ∧
    ∀ unit operands results horizon bypassing r fuel, (horizon + 3).toNat ≤ fuel →
      retryEarly options unit operands results horizon fuel 0 bypassing r =
        retryEarly options unit operands results horizon (horizon + 3).toNat 0 bypassing r := by
  have hu := upheld_of_graph h
  refine ⟨fun r₀ r endCycle hprepare hend hrounds => ?_, fun x => groups_le_of_schedule hu,
    fun unit operands results horizon bypassing r fuel hfuel => ?_⟩
  · have hready : Orderly g ⟨r, []⟩ := by
      induction hrounds with
      | refl =>
        obtain ⟨hturns, -⟩ : Turns options.direction g _ ⟨r₀, []⟩ ∧ _ := turns_prepare hprepare
        exact (orderly_begun (r := { machine, graph := g, renamer }) hu).turns hturns
      | tail _ hround ih => exact (placeGroup_progress ih hend hround).1
    exact ⟨fun r' hround => (placeGroup_progress hready hend hround).2.1, waiting_le_size,
      fun fuel hfuel => placeGroups_eq hready hend hfuel (Nat.lt_succ_self _)⟩
  · by_cases hpast : horizon < 0
    · rw [retryEarly_past hpast, retryEarly_past hpast]
    · have htries : triesLeft horizon 0 bypassing < (horizon + 3).toNat := by
        have := Bool.toNat_le bypassing
        unfold triesLeft
        lia
      exact retryEarly_eq (Nat.lt_of_lt_of_le htries hfuel) htries

theorem schedule_progresses_chain : ∃ g x, chainProgram.graph copyMachine = .ok g ∧
    (g.schedule copyMachine none {}).1 = .ok x ∧ 0 < x.stats.groups ∧ x.stats.groups ≤ g.moveIds.length := by
  obtain ⟨g, hg, hrun⟩ := exists_ok_of_any
    (p := fun g => (g.schedule copyMachine none {}).1.toOption.any fun x => 0 < x.stats.groups)
    (show (chainProgram.graph copyMachine).toOption.any _ by decide +kernel)
  obtain ⟨x, hx, hpos⟩ := exists_ok_of_any hrun
  exact ⟨g, x, hg, hx, of_decide_eq_true hpos, (schedule_progresses hg {} none).2.1 x hx⟩

end Program

end Transport
