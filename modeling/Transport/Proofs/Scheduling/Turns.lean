import Transport.Proofs.Scheduling.BottomUp
import Transport.Proofs.Scheduling.Units
import Transport.Scheduling.Block

/-!
# Scheduling a block is a series of turns

Between two units the scheduler takes a turn: it offers a move to the selector, is handed the next
group, or places the next unit of the group at hand. `Turn` lists them. A `Round` is a region together
with the units of the group at hand that are still to be placed.
-/

namespace Transport

open Transport.Graph
open Relation (ReflTransGen)

/-- In order of identifiers. -/
abbrev InOrder (ns : List MoveId) : Prop := ns.Pairwise fun n n' => n.val < n'.val

structure Round extends Region where
  units : List (List MoveId) := []

/-- One turn of scheduling a block. -/
inductive Turn (way : Direction) (g₀ : Graph) : Round → Round → Prop
  | tell {s : Round} (notes : List Note) (stats : Stats) : Turn way g₀ s { s with notes, stats }
  | offer {s : Round} {x x' : Selector} {n : MoveId} {b : Bool} {g : Graph} {notes : List Note}
      (selector : s.selector = some x) (offer : x.offer s.graph n s.notes = .ok (b, x', g) notes) :
      Turn way g₀ s { s with graph := g, selector := some x', notes }
  | hand {s : Round} {x x' : Selector} {group : Group} {us : List (List MoveId)} (done : s.units = [])
      (selector : s.selector = some x) (take : x.take s.graph = .ok (group, x'))
      (ordered : group.orderedUnits s.graph way = .ok us) :
      Turn way g₀ s { s with selector := some x', units := us }
  | unit {s : Round} {u : List MoveId} {us : List (List MoveId)} {j : Job} {s' : Moment}
      (left : s.units = u :: us) (along : j.way = way) (fits : j.Fits g₀)
      (pending : Group.pending u s.graph = .ok j.moves) (acts : Acts j { toRegion := s.toRegion } s')
      (settled : s'.Settled j) : Turn way g₀ s { toRegion := s'.toRegion, units := us }

/-- Any number of turns. -/
abbrev Turns (way : Direction) (g₀ : Graph) : Round → Round → Prop := ReflTransGen (Turn way g₀)

variable {way : Direction} {g0 g g' : Graph} {s s' : Round} {r r' : Region} {j : Job} {x x' : Selector}
  {n : MoveId} {ns : List MoveId} {notes notes' : List Note}

/-! ## Groups are in order -/

theorem inOrder_sortMoves (ns : List MoveId) : InOrder (sortMoves ns) := by
  refine (Std.ExtTreeSet.ordered_toList (t := Std.ExtTreeSet.ofList ns compare)).imp fun h => ?_
  exact Nat.compare_eq_lt.1 h

/-- The groups on the ready list are in order. -/
def Selector.Sorted (x : Selector) : Prop := ∀ c ∈ x.ready.toList, InOrder c.group

namespace Selector

variable {group : Group}

theorem Sorted.offer {b : Bool} (h : x.Sorted) (ho : x.offer g n notes = .ok (b, x', g') notes') :
    x'.Sorted := by
  rcases offer_cases ho with ⟨-, rfl, -⟩ | ⟨-, -, group, priority, hacc, rfl⟩
  · exact h
  · intro c hc
    rcases List.mem_cons.1 ((Heap.toList_push_perm _ _ _).mem_iff.1 hc) with rfl | hc
    · obtain ⟨notes, notes', all, hall, hpending⟩ := hacc.found
      simp only [groupOf, run_bind_ok, run_pure_ok] at hall
      obtain ⟨closed, _, -, rfl, -⟩ := hall
      exact (inOrder_sortMoves closed).sublist (sublist_of_filterM_eq_ok hpending)
    · exact h c hc

/-- What is taken from the ready list is the pending part of a group on it. -/
theorem firstPending_ok {fuel : Nat} {ready ready' : Heap Candidate}
    (h : firstPending g fuel ready = .ok (group, ready')) :
    (∀ c ∈ ready'.toList, c ∈ ready.toList) ∧
      (group = [] ∨ ∃ c ∈ ready.toList, Group.pending c.group g = .ok group) := by
  induction fuel generalizing ready with
  | zero =>
    cases pure_eq_ok.1 h
    exact ⟨fun _ => id, .inl rfl⟩
  | succ fuel ih =>
    simp only [firstPending] at h
    cases hpop : ready.pop? Candidate.le with
    | none =>
      simp only [hpop, pure_eq_ok] at h
      cases h
      exact ⟨fun _ => id, .inl rfl⟩
    | some top =>
      obtain ⟨c, rest⟩ := top
      simp only [hpop, bind_eq_ok] at h
      obtain ⟨pending, hpending, h⟩ := h
      have hperm := Heap.toList_pop?_perm _ hpop
      have hrest {c' : Candidate} (hc : c' ∈ rest.toList) : c' ∈ ready.toList :=
        hperm.mem_iff.1 (List.mem_cons_of_mem _ hc)
      cases pending with
      | nil =>
        obtain ⟨hsub, hgroup⟩ := ih h
        refine ⟨fun c' hc => hrest (hsub c' hc), hgroup.imp_right ?_⟩
        rintro ⟨c', hc, hp⟩
        exact ⟨c', hrest hc, hp⟩
      | cons m ms =>
        cases pure_eq_ok.1 h
        exact ⟨fun _ => hrest, .inr ⟨c, hperm.mem_iff.1 List.mem_cons_self, hpending⟩⟩

theorem take_ok (h : x.take g = .ok (group, x')) :
    ∃ ready, x' = { x with ready } ∧ (∀ c ∈ ready.toList, c ∈ x.ready.toList) ∧
      (group = [] ∨ ∃ c ∈ x.ready.toList, Group.pending c.group g = .ok group) := by
  simp only [take, bind_eq_ok] at h
  obtain ⟨⟨group', ready⟩, hfirst, h⟩ := h
  cases pure_eq_ok.1 h
  exact ⟨ready, rfl, firstPending_ok hfirst⟩

theorem Sorted.take (h : x.Sorted) (ht : x.take g = .ok (group, x')) : x'.Sorted ∧ InOrder group := by
  obtain ⟨ready, rfl, hsub, hgroup⟩ := take_ok ht
  refine ⟨fun c hc => h c (hsub c hc), ?_⟩
  rcases hgroup with rfl | ⟨c, hc, hpending⟩
  · exact .nil
  · exact (h c hc).sublist (sublist_of_filterM_eq_ok hpending)

end Selector

/-- What every offer keeps is true of the selector after any acts. -/
theorem selector_of_acts {I : Selector → Prop} {s s' : Moment} (h : Acts j s s')
    (offer : ∀ {x x' : Selector} {g g' : Graph} {n : MoveId} {b : Bool} {notes notes' : List Note},
      I x → x.offer g n notes = .ok (b, x', g') notes' → I x')
    (hs : ∀ x, s.selector = some x → I x) : ∀ x, s'.selector = some x → I x := by
  induction h with
  | refl => exact hs
  | tail _ hact ih =>
    cases hact with
    | offer hsel ho =>
      rintro _ ⟨⟩
      exact offer (ih _ hsel) ho
    | _ => exact ih

/-! ## What every turn keeps -/

/-- What a turn relies on. -/
structure Orderly (g₀ : Graph) (s : Round) : Prop where
  upheld : Upheld s.machine g₀ s.graph
  log : ∀ b ∈ s.bypasser.log, s.graph.cycleOf b.dest ≠ none
  ready {x : Selector} : s.selector = some x → x.Sorted
  sorted {u : List MoveId} : u ∈ s.units → InOrder u
  /-- The moves of a unit are placed together. -/
  together {u : List MoveId} : u ∈ s.units → ∃ k, ∀ n ∈ u, g₀.tagOf n = some k

theorem Upheld.tagOf {machine : Machine} (h : Upheld machine g0 g) (n : MoveId) :
    g.tagOf n = g0.tagOf n := by
  have htag (g : Graph) : g.tagOf n = ((g.move? n).map Move.fixed).map fun f =>
      f.op.elim (.lone n) .operation := by
    rw [Graph.tagOf, Option.map_map]
    congr 1
    funext m
    simp only [Function.comp, Move.unitTag, Move.fixed]
    cases m.dstOp.or m.srcOp <;> rfl
  rw [htag, htag, h.framed.moves]

/-- The pending moves of a unit await being placed. -/
theorem awaits_of_pending {u : List MoveId} (hu : InOrder u) (h : Group.pending u g = .ok ns) :
    g.Awaits ns := by
  have hmem {n : MoveId} (hn : n ∈ ns) : ∃ m, g.move? n = some m ∧ m.live ∧ m.isPlaced = false := by
    have := ((mem_of_filterM_eq_ok h).1 hn).2
    simp only [isPending, bind_eq_ok, pure_eq_ok, Bool.and_eq_true, Bool.not_eq_true'] at this
    obtain ⟨m, hm, hlive, hoff⟩ := this
    exact ⟨m, move?_of_move hm, hlive, hoff⟩
  refine ⟨fun n hn => ?_, fun n hn => ?_, hu.sublist (sublist_of_filterM_eq_ok h)⟩
  · obtain ⟨m, hm, hlive, -⟩ := hmem hn
    exact ⟨m, hm, hlive⟩
  · obtain ⟨m, hm, -, hoff⟩ := hmem hn
    simpa [Graph.cycleOf, hm, Move.cycle?, Move.isPlaced] using hoff

namespace Orderly

/-- Nothing but notes, counters, the selector and the kept distances changes. -/
theorem alike (h : Orderly g0 s) (hg : s.graph.Alike g) (hmachine : s'.machine = s.machine)
    (hgraph : s'.graph = g) (hbypasser : s'.bypasser = s.bypasser) (hunits : s'.units = s.units)
    (hready : ∀ x, s'.selector = some x → x.Sorted) : Orderly g0 s' := by
  subst hgraph
  refine ⟨hmachine ▸ h.upheld.alike hg, fun b hb => ?_, hready _, fun hu => h.sorted (hunits ▸ hu),
    fun hu => h.together (hunits ▸ hu)⟩
  rw [hg.samePresence.cycleOf]
  exact h.log b (hbypasser ▸ hb)

theorem turn (h : Orderly g0 s) (ht : Turn way g0 s s') : Orderly g0 s' := by
  cases ht with
  | tell => exact ⟨h.upheld, h.log, h.ready, h.sorted, h.together⟩
  | offer selector offer =>
    refine h.alike (Selector.alike_of_offer offer) rfl rfl rfl rfl ?_
    rintro _ ⟨⟩
    exact (h.ready selector).offer offer
  | @hand x x' group us done selector take ordered =>
    obtain ⟨hready, hgroup⟩ := (h.ready selector).take take
    have hmem := (Group.mem_orderedUnits ordered).1
    refine ⟨h.upheld, h.log, ?_, fun hu => ?_, fun hu => ?_⟩
    · rintro _ ⟨⟩
      exact hready
    · obtain ⟨-, k, rfl⟩ := (hmem _).1 hu
      exact hgroup.sublist List.filter_sublist
    · obtain ⟨-, k, rfl⟩ := (hmem _).1 hu
      refine ⟨k, fun n hn => ?_⟩
      rw [← h.upheld.tagOf]
      simpa using (List.mem_filter.1 hn).2
  | @unit u us j s' left along fits pending acts settled =>
    have hu : u ∈ s.units := left ▸ List.mem_cons_self
    have hrest {v : List MoveId} (hv : v ∈ us) : v ∈ s.units := left ▸ List.mem_cons_of_mem _ hv
    have hstart := Underway.start h.upheld (awaits_of_pending (h.sorted hu) pending)
    refine ⟨(hstart.steady.acts acts).upheld, fun b hb => ?_, ?_, fun hv => h.sorted (hrest hv),
      fun hv => h.together (hrest hv)⟩
    · by_cases hmoves : b.dest ∈ j.moves
      · exact settled.placed _ hmoves
      · have hcycle := hstart.steady.cycleOf fits.operands acts hmoves
        have hlog : b ∈ s.bypasser.log :=
          (log_of_acts acts hb).resolve_right fun hop => hmoves (fits.operands _ hop)
        exact fun hnone => h.log b hlog (hcycle.symm.trans hnone)
    · exact selector_of_acts acts (fun hx ho => Selector.Sorted.offer hx ho) (fun x hx => h.ready hx) _

theorem turns (h : Orderly g0 s) (ht : Turns way g0 s s') : Orderly g0 s' := by
  induction ht with
  | refl => exact h
  | tail _ hturn ih => exact ih.turn hturn

end Orderly

/-! ## Runs are turns -/

variable {options : Options} {endCycle : Cycle} {u : List MoveId} {us : List (List MoveId)}

theorem inOperation_of_unitTag {m : Move} : m.inOperation ↔ ∃ o, m.unitTag n = .operation o := by
  simp only [Move.inOperation, Move.isOperand, Move.isResult, Move.unitTag]
  cases m.dstOp <;> cases m.srcOp <;> simp

/-- If one move of a unit belongs to an operation, all of them do. -/
theorem Orderly.inOperation (ho : Orderly g0 ⟨r, u :: us⟩) (hpending : Group.pending u r.graph = .ok ns)
    (h : Group.isOperation ns r.graph = .ok true) :
    ∀ n ∈ ns, ∃ m, r.graph.move? n = some m ∧ m.inOperation := by
  have hsub {n : MoveId} (hn : n ∈ ns) : n ∈ u := ((mem_of_filterM_eq_ok hpending).1 hn).1
  obtain ⟨k, hk⟩ := ho.together List.mem_cons_self
  have hmove {n : MoveId} (hn : n ∈ ns) : ∃ m, r.graph.move? n = some m ∧ m.unitTag n = k := by
    have := hk n (hsub hn)
    rw [← ho.upheld.tagOf] at this
    simpa [Graph.tagOf] using this
  obtain ⟨n, hn, hop⟩ := exists_of_anyM_eq_true h
  simp only [bind_eq_ok, pure_eq_ok] at hop
  obtain ⟨m, hm, hop⟩ := hop
  obtain ⟨m', hm', htag⟩ := hmove hn
  rw [move?_of_move hm] at hm'
  cases hm'
  obtain ⟨o, ho⟩ := (inOperation_of_unitTag (n := n)).1 hop
  intro n' hn'
  obtain ⟨m'', hm'', htag'⟩ := hmove hn'
  exact ⟨m'', hm'', (inOperation_of_unitTag (n := n')).2 ⟨o, htag'.trans (htag.symm.trans ho)⟩⟩

namespace RegionM

theorem leads_placeLone {rest : List MoveId} (hfit : j.Fits g0) (hlone : j.operands = [])
    (hway : j.way = options.direction) (hend : endCycle < 2147483648) {s : Moment} (hs : Steady j g0 s)
    (hopened : s.opened = []) (hloose : s.loose = []) (done : List MoveId) (hmoves : j.moves = done ++ rest)
    (hdone : ∀ n ∈ done, s.graph.cycleOf n ≠ none) (hoff : ∀ n ∈ rest, s.graph.cycleOf n = none) :
    Brings j s (rest.forM (placeLone options endCycle)) fun _ s' => s'.Settled j := by
  induction rest generalizing s done with
  | nil =>
    rw [List.append_nil] at hmoves
    exact .pure ⟨hopened, hloose, .inl hlone, hmoves ▸ hdone⟩
  | cons n rest ih =>
    have hmem : n ∈ j.moves := hmoves ▸ List.mem_append_right _ List.mem_cons_self
    have hsorted := List.pairwise_append.1 (hmoves ▸ hfit.sorted)
    have hlater : ∀ m ∈ rest, n.val < m.val := (List.pairwise_cons.1 hsorted.2.1).1
    -- What is placed of the unit came before.
    have hbefore : ∀ x ∈ j.moves, s.graph.cycleOf x ≠ none → x.val < n.val := by
      intro x hx hp
      rcases List.mem_append.1 (hmoves ▸ hx) with hx | hx
      · exact hsorted.2.2 x hx n List.mem_cons_self
      · exact absurd (hoff x hx) hp
    have hsingle : n ∉ j.operands := by simp [hlone]
    have horder : j.InOrder s.graph n := hfit.inOrder_result hs.upheld hmem hsingle fun x hx _ => hbefore x hx
    have hmay : s.MayRename j n :=
      ⟨hmem, hsingle, hoff n List.mem_cons_self, fun _ => hopened, hloose, fun _ => horder⟩
    have hplace : Brings j s (placeLone options endCycle n) fun _ s' => s.SameBooks s' ∧
        ∃ c, ∀ y, s'.graph.cycleOf y = if y = n then some c else s.graph.cycleOf y := by
      refine .bind (hway ▸ leads_renameIfUseful hs hmay) fun _ s1 hacts hsame => ?_
      have horder1 : j.InOrder s1.graph n := hfit.inOrder_result (hs.acts hacts).upheld hmem hsingle
        fun x hx _ hp => hbefore x hx (hsame.cycle x ▸ hp)
      have hdone (x : Option Cycle) (s2 : Moment) (_ : Acts j s1 s2) (hput : s1.Puts s2 n x) : Brings j s2
          (if x.isNone then throw (.error (.unschedulable n)) else pure ()) fun _ s' => s.SameBooks s' ∧
            ∃ c, ∀ y, s'.graph.cycleOf y = if y = n then some c else s.graph.cycleOf y := by
        cases x with
        | none => exact .raise
        | some c =>
          refine .pure ⟨hsame.books.trans hput.books, c, fun y => ?_⟩
          rw [hput.cycle_some, hsame.cycle]
      cases hdir : options.direction with
      | topDown => exact .bind (leads_placeEarly (hway.trans hdir) hmem horder1) hdone
      | bottomUp => exact .bind (leads_placeLate (hway.trans hdir) hmem hend) hdone
    refine .bind hplace ?_
    rintro _ s2 hacts ⟨hbooks, c, hcycle⟩
    refine ih (hs.acts hacts) (hbooks.opened.trans hopened) (hbooks.loose.trans hloose) (done ++ [n])
      (by simp [hmoves]) ?_ ?_
    · intro y hy
      rw [hcycle]
      split
      · simp
      · rename_i hne
        exact hdone y ((List.mem_append.1 hy).resolve_right (by simpa using hne))
    · intro y hy
      have hne : y ≠ n := by
        rintro rfl
        exact Nat.lt_irrefl _ (hlater y hy)
      rw [hcycle, if_neg hne]
      exact hoff y (List.mem_cons_of_mem _ hy)

/-- Placing the pending moves of a unit is a series of acts. -/
theorem leads_placeUnit (ho : Orderly g0 ⟨r, u :: us⟩) (hend : endCycle < 2147483648) :
    Gives r (placeUnit options endCycle u) fun _ r' => ∃ j : Job, j.way = options.direction ∧ j.Fits g0 ∧
      Group.pending u r.graph = .ok j.moves ∧ Leads j { toRegion := r } r' fun s' => s'.Settled j := by
  refine .ask fun pending hpending => ?_
  have hw := awaits_of_pending (ho.sorted List.mem_cons_self) hpending
  have hlone (hno : ∀ n ∈ pending, ∀ m, r.graph.move? n = some m → m.inOperation = false) :
      Job.Fits ⟨options.direction, pending, []⟩ g0 := by
    refine ⟨by simp, fun {n} hn => ?_, hw.sorted⟩
    obtain ⟨m, hm, -⟩ := hw.has n hn
    obtain ⟨m0, hm0, -⟩ := ho.upheld.framed.symm.move? hm
    refine ⟨m0, hm0, ?_⟩
    have := hno n hn m hm
    rw [← ho.upheld.isOperand hm hm0]
    simp only [Move.inOperation, Bool.or_eq_false_iff] at this
    simp [this.2]
  refine .ite (fun hempty => .pure ?_) fun _ => .ask fun isOp hisOp => ?_
  · have hnil : pending = [] := List.isEmpty_iff.1 hempty
    subst hnil
    exact ⟨⟨options.direction, [], []⟩, rfl, hlone (by simp), hpending, .here ⟨rfl, rfl, .inl rfl, by simp⟩⟩
  cases isOp with
  | false =>
    intro _ r' h
    have hfit := hlone fun n hn m hm => pure_eq_ok.1 (of_move_bind hm (anyM_eq_false.1 hisOp n hn))
    exact ⟨⟨options.direction, pending, []⟩, rfl, hfit, hpending,
      leads_placeLone hfit rfl rfl hend (Underway.start ho.upheld hw).steady rfl rfl [] rfl
        (by simp) hw.off h⟩
  | true =>
    have hop : ∀ n ∈ pending, ∃ m, r.graph.move? n = some m ∧ m.inOperation :=
      ho.inOperation hpending hisOp
    cases hdir : options.direction with
    | topDown =>
      intro _ r' h
      obtain ⟨j, hway, rfl, hfit, hleads⟩ := leads_placeOperationEarly ho.upheld hw ho.log h
      exact ⟨j, hway, hfit, hpending, hleads⟩
    | bottomUp =>
      intro _ r' h
      obtain ⟨j, hway, rfl, hfit, hleads⟩ := leads_placeOperationLate ho.upheld hw hop hend ho.log h
      exact ⟨j, hway, hfit, hpending, hleads⟩

end RegionM

/-! ## The selector -/

namespace Selector

/-- A series of offers is a series of turns; the notes do not matter. -/
theorem turns_offers (hsel : s.selector = some x) (h : Offers ns x s.graph x' g') (notes' : List Note) :
    Turns way g0 s { s with graph := g', selector := some x', notes := notes' } := by
  generalize hg : s.graph = g at h
  induction h generalizing s with
  | nil =>
    subst hg
    rw [← hsel]
    exact .single (.tell notes' s.stats)
  | @cons _ _ _ _ _ _ _ _ _ notes _ offer _ ih =>
    subst hg
    have htell : Turn way g0 s { s with notes } := .tell notes s.stats
    exact ((ReflTransGen.single htell).tail (.offer hsel offer)).trans (ih rfl rfl)

end Selector

namespace RegionM

variable {group : Group} {v : Unit}

/-- Which moves of a unit are placed is told to the selector by offers. -/
theorem turns_reportUnit : Gives s.toRegion (reportUnit u) fun _ r' =>
    Turns way g0 s { toRegion := r', units := s.units } ∧ r'.stats = s.stats := by
  induction u generalizing s with
  | nil => exact .pure ⟨.refl, rfl⟩
  | cons n u ih =>
    have hrest {r1 : Region} (hturns : Turns way g0 s { toRegion := r1, units := s.units }) (hstats : r1.stats = s.stats) :
        Gives r1 (reportUnit u) fun _ r' => Turns way g0 s { toRegion := r', units := s.units } ∧ r'.stats = s.stats :=
      .mono (ih (s := ⟨r1, s.units⟩)) fun _ _ h => ⟨hturns.trans h.1, h.2.trans hstats⟩
    refine .bind (.ask fun b _ => .ite (fun _ => .get ?_) fun _ => .pure (hrest .refl rfl))
    cases hsel : s.selector with
    | none => exact .pure (hrest .refl rfl)
    | some x =>
      refine .tell fun y notes hnotify => .update (hrest ?_ rfl)
      obtain ⟨ns, hoffers⟩ := Selector.offers_notify hnotify
      exact Selector.turns_offers hsel hoffers notes

theorem turns_placeUnits (ho : Orderly g0 ⟨r, us⟩) (hend : endCycle < 2147483648)
    (h : us.forM (placeUnitAndReport options endCycle) r = .ok v r') :
    Turns options.direction g0 ⟨r, us⟩ ⟨r', []⟩ ∧ r'.stats.groups = r.stats.groups := by
  induction us generalizing r with
  | nil =>
    cases run_forM_nil.1 h
    exact ⟨.refl, rfl⟩
  | cons u us ih =>
    obtain ⟨⟨⟩, r2, hu, hrest⟩ := run_forM_cons.1 h
    simp only [placeUnitAndReport, run_bind_ok] at hu
    obtain ⟨⟨⟩, r1, hplace, hreport⟩ := hu
    obtain ⟨j, hway, hfit, hpending, s', ⟨hacts, hgroups⟩, rfl, hsettled⟩ := leads_placeUnit ho hend hplace
    have hturn : Turn options.direction g0 ⟨r, u :: us⟩ ⟨s'.toRegion, us⟩ :=
      .unit rfl hway hfit hpending hacts hsettled
    obtain ⟨hoffers, hstats⟩ := turns_reportUnit (s := ⟨s'.toRegion, us⟩) hreport
    have hturns : Turns options.direction g0 ⟨r, u :: us⟩ ⟨r2, us⟩ := (ReflTransGen.single hturn).trans hoffers
    obtain ⟨hall, hgroups'⟩ := ih (ho.turns hturns) hrest
    exact ⟨hturns.trans hall, hgroups'.trans ((congrArg Stats.groups hstats).trans hgroups)⟩

/-- The next group is taken from the ready list, if need be after a last sweep. -/
theorem nextGroup_ok (way : Direction) (g0 : Graph) : Gives r nextGroup fun group r' =>
    (r.selector = none ∧ group = [] ∧ r' = r) ∨ ∃ r1 x x', Turns way g0 ⟨r, []⟩ ⟨r1, []⟩ ∧
      r1.selector = some x ∧ x.take r1.graph = .ok (group, x') ∧ r' = { r1 with selector := some x' } ∧
      r1.stats = r.stats := by
  refine .get ?_
  cases hsel : r.selector with
  | none => exact .pure (.inl ⟨rfl, rfl, rfl⟩)
  | some x =>
    refine .tell fun y notes hnext => .bind (.update (.pure (.inr ?_)))
    obtain ⟨-, hg, htake⟩ | ⟨x1, x2, htake, hoffers, htake2⟩ := Selector.next_cases hnext
    · exact ⟨{ r with notes }, x, y.2.1, .single (.tell notes r.stats), hsel, htake, by rw [hg], rfl⟩
    · have hhand : Turn way g0 ⟨r, []⟩ ⟨{ r with selector := some x1 }, []⟩ :=
        .hand rfl hsel htake (by cases way <;> rfl)
      exact ⟨{ r with graph := y.2.2, selector := some x2, notes }, x2, y.2.1, (ReflTransGen.single hhand).trans
        (Selector.turns_offers (s := ⟨{ r with selector := some x1 }, []⟩) rfl hoffers notes), rfl, htake2, rfl, rfl⟩

/-- Place the next group, and tell whether there was one. -/
def placeGroup (options : Options) (endCycle : Cycle) : RegionM Bool := do
  let group ← nextGroup
  if group.isEmpty then return false
  count fun s => { s with groups := s.groups + 1 }
  let units ← ask fun g => group.orderedUnits g options.direction
  units.forM (placeUnitAndReport options endCycle)
  return true

theorem placeGroups_succ (fuel : Nat) : placeGroups options endCycle (fuel + 1) = (do
    if ← placeGroup options endCycle then placeGroups options endCycle fuel) := by
  simp only [placeGroups, placeGroup, bind_assoc]
  congr 1
  funext group
  split
  · rfl
  · simp only [bind_assoc, pure_bind, if_true]

/-- One round: a group is handed out and placed, if there is one. -/
theorem turns_placeGroup (ho : Orderly g0 ⟨r, []⟩) (hend : endCycle < 2147483648) :
    Gives r (placeGroup options endCycle) fun b r' => Turns options.direction g0 ⟨r, []⟩ ⟨r', []⟩ ∧
      (b = false → r'.stats = r.stats) ∧ (b = true → r'.stats.groups = r.stats.groups + 1 ∧
        ∃ (group : Group) (us : List Group) (x x' : Selector) (r1 r2 : Region), group ≠ [] ∧
        Turns options.direction g0 ⟨r, []⟩ ⟨r1, []⟩ ∧ x.take r1.graph = .ok (group, x') ∧
        group.orderedUnits r1.graph options.direction = .ok us ∧ Turns options.direction g0 ⟨r1, []⟩ ⟨r2, us⟩ ∧
        Turns options.direction g0 ⟨r2, us⟩ ⟨r', []⟩) := by
  refine .bind fun group _ hnext => .ite (fun hempty => .pure ?_) fun hne => .bind fun _ _ hcount => ?_
  · cases List.isEmpty_iff.1 hempty
    rcases nextGroup_ok options.direction g0 hnext with ⟨-, -, rfl⟩ | ⟨r1, x, x', hturns, hsel, htake, rfl, hstats⟩
    · exact ⟨.refl, fun _ => rfl, by simp⟩
    · exact ⟨hturns.tail (.hand rfl hsel htake (by cases options.direction <;> rfl)), fun _ => hstats, by simp⟩
  · cases count_ok.1 hcount
    have hne : group ≠ [] := fun hnil => hne (List.isEmpty_iff.2 hnil)
    obtain ⟨r1, x, x', hturns, hsel, htake, rfl, hstats⟩ :=
      (nextGroup_ok options.direction g0 hnext).resolve_left fun hno => hne hno.2.1
    refine .ask fun us hunits => .bind fun _ r' hplace => .pure ?_
    have hhand : Turn options.direction g0 ⟨r1, []⟩ ⟨{ r1 with selector := some x' }, us⟩ :=
      .hand rfl hsel htake hunits
    have hstart := (ReflTransGen.single hhand).tail (.tell r1.notes { r1.stats with groups := r1.stats.groups + 1 })
    obtain ⟨hall, hgroups⟩ := turns_placeUnits (ho.turns (hturns.trans hstart)) hend hplace
    exact ⟨(hturns.trans hstart).trans hall, by simp, fun _ => ⟨hgroups.trans (congrArg (Stats.groups · + 1) hstats),
      group, us, x, x', r1, _, hne, hturns, htake, hunits, hstart, hall⟩⟩

/-- Placing groups until there is none is a series of turns. -/
theorem turns_placeGroups {fuel : Nat} (ho : Orderly g0 ⟨r, []⟩) (hend : endCycle < 2147483648) :
    Gives r (placeGroups options endCycle fuel) fun _ r' => Turns options.direction g0 ⟨r, []⟩ ⟨r', []⟩ := by
  induction fuel generalizing r with
  | zero => exact .pure .refl
  | succ fuel ih =>
    rw [placeGroups_succ]
    refine .bind fun b r1 hround => ?_
    have hturns := (turns_placeGroup ho hend hround).1
    exact .ite (fun _ => .mono (ih (ho.turns hturns)) fun _ _ hrest => hturns.trans hrest) fun _ => .pure hturns

end RegionM

end Transport
