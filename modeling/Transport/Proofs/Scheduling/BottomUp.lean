import Transport.Proofs.Scheduling.TopDown
import Transport.Scheduling.BottomUp

/-!
# Placing an operation bottom-up is a series of acts

First the operands are bypassed, and what that leaves open stays so until the operation is placed.
The tries of the operation then only place moves and take them off again.
-/

namespace Transport

open Transport.Graph

variable {j : Job} {g0 g : Graph} {s s' : Moment} {r r' : Region} {n x : MoveId} {ns : List MoveId}

/-! ## Bypasses -/

/-- What is open belongs to the bypasses in the log, and nothing has moved since. -/
structure Moment.Diverted (j : Job) (s s' : Moment) : Prop where
  opens : Opens j.operands s'.bypasser.deadCandidates s'.bypasser.log s'.opened
  loose : s'.loose = []
  cycle (y : MoveId) : s'.graph.cycleOf y = s.graph.cycleOf y

namespace RegionM

variable {a a' : Attempt ChangeRecord} {b : Bool}

theorem leads_bypassSourceBelow? : Brings j s (bypassSourceBelow? n) fun x s' => s = s' ∧
    ∀ source reg, x = some (source, reg) → s.graph.soleSource n = some source ∧
      (∃ m, s.graph.move? n = some m ∧ m.isOperand ∧ m.placement = none) ∧
      (∃ m, s.graph.move? source = some m ∧ m.placement = none ∧ s.graph.isBypassable m) ∧
      s.graph.mergesAcrossLoop source n = .ok false := by
  refine .move fun m hm => .ite (fun hkind => ?_) fun _ => .pure ⟨rfl, by simp⟩
  cases m.src.reg? with
  | none => exact .pure ⟨rfl, by simp⟩
  | some reg =>
    refine .graph ?_
    cases hsole : s.graph.soleSource n with
    | none => exact .pure ⟨rfl, by simp⟩
    | some source =>
      refine .move fun ms hms => .ite (fun hpending => ?_) fun _ => .pure ⟨rfl, by simp⟩
      refine .ask fun across hacross => .ite (fun _ => .pure ⟨rfl, by simp⟩) fun hwithin => ?_
      refine .graph (.ite (fun hok => .pure ⟨rfl, ?_⟩) fun _ => .pure ⟨rfl, by simp⟩)
      rintro _ _ ⟨⟩
      simp only [Bool.and_eq_true, Bool.not_eq_true', Move.isPlaced, Option.isSome_eq_false_iff,
        Option.isNone_iff_eq_none] at hkind hpending hok hwithin
      refine ⟨rfl, ⟨m, move?_of_move hm, hkind.2, hkind.1.2⟩, ⟨ms, move?_of_move hms, hpending.2, hok.1⟩, ?_⟩
      rw [hacross]
      simpa using hwithin

/-- A producer without readers is taken out, or nothing happens. -/
theorem leads_removeDead (hway : j.way = .bottomUp) (hoff : s.graph.cycleOf n = none) :
    Brings j s (removeDead n) fun x s' => (x = none ∧ s' = s) ∨ ∃ rm, x = some (rm, none) ∧ rm.move = n ∧
      s'.opened = .removed rm :: s.opened ∧ s'.bypasser = s.bypasser ∧ s'.loose = s.loose ∧
      ∀ y, s'.graph.cycleOf y = s.graph.cycleOf y := by
  intro x r' h
  obtain ⟨m, _, hm, hneeded, ⟨rfl, rfl, -⟩ | ⟨hlive, hresult, rfl, u, g, g', rm, ns, hplaced, hremove, rfl, hre⟩⟩ :=
    removeDead_ok h
  · exact .here (.inl ⟨rfl, rfl⟩)
  have hplace : m.placement = none := by
    simpa [Graph.cycleOf, hm, Move.cycle?] using hoff
  simp only [Move.isPlaced, hplace, Option.isSome_none, Bool.false_eq_true, false_and, or_false, true_and] at hplaced
  obtain ⟨rfl, rfl⟩ := hplaced
  have hdrop : Act j s { s with graph := g', opened := .removed rm :: s.opened } :=
    .drop hway hm hlive hresult hneeded hremove
  have hcycle (y : MoveId) : g'.cycleOf y = s.graph.cycleOf y := cycleOf_of_presence
    (presence_of_removeMove hremove y)
  have hfirst : Leads j s { s.toRegion with graph := g' } (· = { s with graph := g', opened := .removed rm :: s.opened }) :=
    ⟨_, ⟨.single hdrop, rfl⟩, rfl, rfl⟩
  refine hfirst.bind ?_
  rintro s1 - - rfl
  refine (leads_reconsider hre).mono fun s2 _ hq =>
    .inr ⟨rm, ?_, move_of_removeMove hremove, hq.opened, hq.bypasser, hq.loose, fun y => ?_⟩
  · simp [Move.cycle?, hplace]
  · exact (hq.cycleOf y).trans (hcycle y)

theorem tryStep_removeDead_ok : Gives r (a.tryStep reversal (.single (.removeDead n))) fun y r' =>
    ∃ x, removeDead n r = .ok x r' ∧
      y = (x.isSome, (x.map fun p => .mk [] (.deadRemoved p.1 p.2) []).toList ++ a) := by
  refine gives_tryStep (.bind fun x _ hx => .pure ⟨x, hx, ?_⟩)
  cases x <;> rfl

section

variable (hway : j.way = .bottomUp) (hs : Steady j g0 s)
include hway hs

/-- The producer of a bypassed value stays, or is taken out for nobody reads it any more. -/
theorem leads_dropSource {reg : Reg} (hoff : s.graph.cycleOf n = none) :
    Brings j s (dropSource n reg a) fun x s' => (x = (false, a) ∧ s = s') ∨ ∃ rm,
      x = (true, .mk [] (.deadRemoved rm none) [] :: a) ∧ rm.move = n ∧ s'.opened = .removed rm :: s.opened ∧
      s'.bypasser = s.bypasser ∧ s'.loose = s.loose ∧ ∀ y, s'.graph.cycleOf y = s.graph.cycleOf y := by
  refine .bypasser (.graph (.ite (fun _ => ?_) fun _ => .pure (.inl ⟨rfl, rfl⟩)))
  refine .move fun m hm => .ite (fun _ => ?_) fun _ => .pure (.inl ⟨rfl, rfl⟩)
  refine .ask fun needed _ => .ite (fun _ => .pure (.inl ⟨rfl, rfl⟩)) fun _ => ?_
  intro _ r' h
  obtain ⟨x, hx, rfl⟩ := tryStep_removeDead_ok h
  refine (leads_removeDead hway hoff hx).mono fun s' _ hpost => ?_
  obtain ⟨rfl, rfl⟩ | ⟨rm, rfl, hmove, hrest⟩ := hpost
  · exact .inl ⟨rfl, rfl⟩
  · exact .inr ⟨rm, rfl, hmove, hrest⟩

theorem leads_bypassOperandBelow (hd : s.Diverted j s) (hon : s.bypasser.isEnabled) (hn : n ∈ j.operands) :
    Brings j s (bypassOperandBelow n) fun b s' => s.Diverted j s' ∧ (b = false → s'.opened = s.opened) := by
  refine .bind leads_bypassSourceBelow? ?_
  rintro x _ - ⟨rfl, hfound⟩
  rcases x with _ | ⟨source, reg⟩
  · exact .pure ⟨hd, fun _ => rfl⟩
  obtain ⟨hsole, hconsumer, ⟨ms, hms, hplace, hbypassable⟩, hwithin⟩ := hfound source reg rfl
  have hoff : s.graph.cycleOf source = none := by simp [Graph.cycleOf, hms, Move.cycle?, hplace]
  intro b r' h
  simp only [run_bind_ok] at h
  obtain ⟨⟨b1, a1⟩, r1, hmerge, h⟩ := h
  obtain ⟨⟨⟩, rfl⟩ | ⟨g1, edges, g2, red, hmergeEdges, hredirect, rfl, ⟨⟩⟩ := tryStep_merge_ok hmerge
  · obtain ⟨rfl, rfl⟩ := run_pure_ok.1 h
    exact .here ⟨hd, fun _ => rfl⟩
  have hbypasses : s.graph.Bypasses source n edges red g2 :=
    ⟨hsole, ⟨ms, hms, hbypassable⟩, hconsumer, g1, hmergeEdges, hredirect⟩
  have hreaches : j.Reaches s.graph source n := by
    rw [Job.Reaches, hway]
    exact ⟨hoff, hwithin⟩
  obtain ⟨reg', ms', md', g1', hdiverts⟩ := hs.upheld.diverted hbypasses
  have hact : Act j s { s with
      graph := g2, opened := .merged source n edges red :: s.opened, checked := false } :=
    .merge hon hn hreaches hbypasses
  have hs2 := hs.acts (.single hact)
  simp only [if_true, run_bind_ok, bypasser_ok, setBypasser_ok, run_pure_ok] at h
  obtain ⟨⟨b2, a2⟩, r2, hdrop, _, _, ⟨rfl, rfl⟩, _, _, rfl, rfl, rfl⟩ := h
  have hmerged : Leads j s { s.toRegion with graph := g2 } (· = { s with
      graph := g2, opened := .merged source n edges red :: s.opened, checked := false }) :=
    ⟨_, ⟨.single hact, rfl⟩, rfl, rfl⟩
  refine hmerged.bind ?_
  rintro s2 - - rfl
  have hcycle (y : MoveId) : g2.cycleOf y = s.graph.cycleOf y := hdiverts.samePresence.cycleOf y
  refine (leads_dropSource hway hs2 ((hcycle source).trans hoff) hdrop).bind ?_
  rintro s3 - rfl (⟨⟨⟩, rfl⟩ | ⟨rm, ⟨⟩, hmove, hopened, hbypasser, hloose, hcycle3⟩)
  · refine ⟨_, ⟨.single (.keep hn), rfl⟩, rfl, ⟨?_, hd.loose, hcycle⟩, by simp⟩
    exact .cons hn (.pending (Bypasser.source_mem_keep rfl) rfl) (hd.opens.mono fun _ => Bypasser.mem_keep)
  · refine ⟨_, ⟨.single (.keep hn), rfl⟩, rfl, ⟨?_, hloose.trans hd.loose, fun y => (hcycle3 y).trans (hcycle y)⟩, by simp⟩
    have hopens : Opens j.operands s3.bypasser.deadCandidates s3.bypasser.log s.opened := by
      rw [hbypasser]
      exact hd.opens
    show Opens j.operands _ _ s3.opened
    rw [hopened]
    exact .cons hn (.dropped hmove rfl) (hopens.mono fun _ => Bypasser.mem_keep)

theorem leads_bypassEachBelow {k : Nat}
    (hd : s.Diverted j s) (hon : s.bypasser.isEnabled) (hns : ∀ n ∈ ns, n ∈ j.operands) :
    Brings j s (ns.foldlM (fun count n => do return if ← bypassOperandBelow n then count + 1 else count) k) fun k' s' =>
      s.Diverted j s' ∧ k ≤ k' ∧ (k' = k → s'.opened = s.opened) := by
  induction ns generalizing s k with
  | nil => exact .pure ⟨hd, Nat.le_refl _, fun _ => rfl⟩
  | cons n ns ih =>
    rw [List.foldlM_cons]
    refine .bind (P := fun k' s' => ∃ b : Bool, (if b then k + 1 else k) = k' ∧ s.Diverted j s' ∧
      (b = false → s'.opened = s.opened)) ?_ ?_
    · exact .bind (leads_bypassOperandBelow hway hs hd hon (hns n List.mem_cons_self)) fun b _ _ hpost => .pure ⟨b, rfl, hpost⟩
    rintro _ s1 hacts ⟨b, rfl, hd1, hopened1⟩
    refine (ih (hs.acts hacts) ⟨hd1.opens, hd1.loose, fun _ => rfl⟩ ((fixed_of_acts hacts).1 ▸ hon)
      fun x hx => hns x (List.mem_cons_of_mem _ hx)).mono ?_
    rintro k' s2 - ⟨hd2, hle, hopened2⟩
    refine ⟨⟨hd2.opens, hd2.loose, fun y => (hd2.cycle y).trans (hd1.cycle y)⟩, ?_, fun hk => ?_⟩
    · split at hle <;> omega
    · cases b with
      | false => exact (hopened2 hk).trans (hopened1 rfl)
      | true =>
        rw [if_pos rfl] at hle
        omega

/-- The operands of the unit are bypassed before they are placed. -/
theorem leads_bypassBelow (hd : s.Diverted j s) (hopened : s.opened = []) :
    Brings j s (bypassBelow j.operands) fun k s' => s.Diverted j s' ∧ (k = 0 → s'.opened = []) := by
  refine .bypasser (.ite (fun hon => ?_) fun _ => .pure ⟨hd, fun _ => hopened⟩)
  refine .skip anyM_isControlFlow_ok fun flow => .ite (fun _ => .pure ⟨hd, fun _ => hopened⟩) fun _ => ?_
  refine (leads_bypassEachBelow hway hs hd hon fun _ => id).mono ?_
  rintro _ s1 - ⟨hd1, -, hopened1⟩
  exact ⟨hd1, fun hk => (hopened1 hk).trans hopened⟩

end

end RegionM

/-! ## Places -/

/-- The move carries a result and feeds no operation. -/
def Graph.Yields (g : Graph) (n : MoveId) : Prop :=
  ∃ m, g.move? n = some m ∧ m.dstOp = none ∧ m.srcOp.isSome

/-- A move that feeds no operation keeps the one that it reads. -/
theorem Upheld.srcOp_eq {machine : Machine} {m0 m : Move} (h : Upheld machine g0 g) (hm0 : g0.move? n = some m0)
    (hdst : m0.dstOp = none) (hm : g.move? n = some m) : m.dstOp = none ∧ m.srcOp = m0.srcOp := by
  have hfixed := of_some (h.framed.move? hm0) hm
  have hd : m.dstOp = none := (congrArg Move.Fixed.dstOp hfixed).trans hdst
  have ho : m.dstOp.or m.srcOp = m0.dstOp.or m0.srcOp := congrArg Move.Fixed.op hfixed
  rw [hd, hdst, Option.none_or, Option.none_or] at ho
  exact ⟨hd, ho⟩

theorem Upheld.isRegister_of_yields {machine : Machine} {m : Move} (h : Upheld machine g0 g)
    (hy : g0.Yields n) (hm : g.move? n = some m) : m.src.isRegister = false := by
  obtain ⟨m0, hm0, hdst, hsrc⟩ := hy
  have ho := (h.srcOp_eq hm0 hdst hm).2
  have hout : m.src.isOutput := by rw [← h.matched.src_output hm, ho, hsrc]
  revert hout
  cases m.src <;> simp [Terminal.isOutput, Terminal.isRegister, Terminal.reg?]

namespace RegionM

theorem leads_placeResultsLate {endCycle start : Cycle} (hway : j.way = .bottomUp)
    (hs : Steady j g0 s) (hstart : start < 2147483648) (hns : ∀ n ∈ ns, n ∈ j.moves ∧ g0.Yields n) :
    Brings j s (placeResultsLate endCycle start ns) fun ok s' =>
      s.Fills s' ns ok ∧ (ok = true → ∀ n ∈ ns, s.graph.cycleOf n = none) := by
  induction ns generalizing s with
  | nil => exact .pure ⟨⟨.refl, fun _ => rfl, by simp⟩, by simp⟩
  | cons n ns ih =>
    obtain ⟨hmem, hyields⟩ := hns n List.mem_cons_self
    refine .skip (renameIfUseful_ok fun m => hs.upheld.isRegister_of_yields hyields) fun _ => ?_
    refine .bind (leads_placeLate hway hmem hstart) fun x s1 hacts hput => ?_
    cases x with
    | none => exact .pure ⟨hput.fills, by simp⟩
    | some c =>
      refine (ih (hs.acts hacts) fun x hx => hns x (List.mem_cons_of_mem _ hx)).mono fun _ s' _ hpost =>
        ⟨hpost.1.cons hput, fun hok x hx => ?_⟩
      by_cases hxn : x = n
      · exact hxn ▸ hput.off rfl
      · have hoff := hpost.2 hok x ((List.mem_cons.1 hx).resolve_left hxn)
        rwa [hput.cycle, if_neg hxn] at hoff

theorem leads_placeOperandsUpTo {upper : Cycle} {last : Option Cycle}
    (hway : j.way = .bottomUp) (hupper : upper < 2147483648) (hns : ∀ n ∈ ns, n ∈ j.moves) :
    Brings j s (placeOperandsUpTo upper ns last) fun x s' => s.Fills s' ns x.1 := by
  induction ns generalizing s last with
  | nil => exact .pure ⟨.refl, fun _ => rfl, by simp⟩
  | cons n ns ih =>
    refine .bind (leads_placeLate hway (hns n List.mem_cons_self) hupper) fun x s1 hacts hput => ?_
    cases x with
    | none => exact .pure hput.fills
    | some c => exact (ih fun x hx => hns x (List.mem_cons_of_mem _ hx)).mono fun _ _ _ hfill => hfill.cons hput

end RegionM

theorem Moment.Fills.mono {ok : Bool} {ns' : List MoveId} (h : s.Fills s' ns ok) (hsub : ∀ n ∈ ns, n ∈ ns')
    (hall : ok = true → ∀ n ∈ ns', n ∈ ns) : s.Fills s' ns' ok :=
  ⟨h.books, fun hy => h.other (mt (hsub _) hy), fun hok n hn => h.all hok n (hall hok n hn)⟩

namespace RegionM

variable {operands others results unit : List MoveId} {trigger : Option MoveId} {upper start endCycle : Cycle}
  {options : Options} {k : Nat}

section

variable (hway : j.way = .bottomUp)
include hway

/-- The operands and the trigger are placed, or the try has failed. -/
theorem leads_placeInputsUpTo (hupper : upper < 2147483648)
    (hmem : ∀ n, n ∈ operands ↔ n ∈ others ∨ trigger = some n) (hns : ∀ n ∈ operands, n ∈ j.moves) :
    Brings j s (placeInputsUpTo others trigger upper) fun ok s' => s.Fills s' operands ok := by
  have hothers : ∀ n ∈ others, n ∈ operands := fun n hn => (hmem n).2 (.inl hn)
  refine .bind (leads_placeOperandsUpTo hway hupper fun n hn => hns n (hothers n hn)) ?_
  rintro ⟨ok1, last⟩ s1 - hfill
  cases ok1 with
  | false => exact .pure (hfill.mono hothers (by simp))
  | true =>
    refine .ite (fun _ => ?_) fun h => absurd rfl h
    cases trigger with
    | none => exact .pure (hfill.mono hothers fun _ n hn => by simpa using (hmem n).1 hn)
    | some t =>
      have ht : t ∈ operands := (hmem t).2 (.inr rfl)
      refine .bind (leads_placeLate hway (hns t ht) hupper) fun x s2 _ hput => ?_
      have hboth : s.Fills s2 (t :: others) x.isSome := by
        refine ⟨hfill.books.trans hput.books, fun {y} hy => ?_, fun hok y hy => ?_⟩
        · rw [hput.cycle, if_neg (by rintro rfl; exact hy List.mem_cons_self)]
          exact hfill.other fun hmem => hy (List.mem_cons_of_mem _ hmem)
        · rw [hput.cycle]
          split
          · obtain ⟨c, rfl⟩ := Option.isSome_iff_exists.1 hok
            simp
          · rename_i hyt
            exact hfill.all rfl y ((List.mem_cons.1 hy).resolve_left hyt)
      have hsub : ∀ n ∈ t :: others, n ∈ operands := fun n hn =>
        (List.mem_cons.1 hn).elim (fun h => h ▸ ht) (hothers n)
      have hall : ∀ n ∈ operands, n ∈ t :: others := fun n hn =>
        ((hmem n).1 hn).elim (List.mem_cons_of_mem _) fun h => Option.some.inj h ▸ List.mem_cons_self
      cases x with
      | none => exact .pure (hboth.mono hsub (by simp))
      | some c =>
        refine .ite (fun _ => .pure (hboth.mono hsub fun _ => hall)) fun _ => ?_
        refine .bind (leads_unassignAll (by simpa using hns t ht)) ?_
        rintro _ s3 - ⟨hbooks, -, -, hcycle⟩
        refine .pure ⟨hboth.books.trans hbooks, fun {y} hy => ?_, by simp⟩
        rw [(hcycle y).resolve_right fun h => hy (List.mem_singleton.1 h.1 ▸ ht)]
        exact hboth.other (mt (hsub y) hy)

theorem leads_lowerTrigger (hk : (k : Int) ≤ 2147483648)
    (hmem : ∀ n, n ∈ operands ↔ n ∈ others ∨ trigger = some n) (hns : ∀ n ∈ operands, n ∈ j.moves) :
    Brings j s (lowerTrigger operands others trigger k) fun ok s' => s.Fills s' operands ok := by
  induction k generalizing s with
  | zero => exact .pure ⟨.refl, fun _ => rfl, by simp⟩
  | succ k ih =>
    refine .bind (leads_placeInputsUpTo hway (by push_cast at hk ⊢; lia) hmem hns) fun ok1 s1 _ hfill => ?_
    refine .ite (fun hok => .pure (hok ▸ hfill)) fun _ => .bind (leads_unassignAll hns) ?_
    rintro _ s2 - ⟨hbooks, -, -, hcycle⟩
    refine (ih (by push_cast at hk; lia)).mono fun _ s3 _ hfill' => ?_
    refine ⟨(hfill.books.trans hbooks).trans hfill'.books, fun {y} hy => ?_, hfill'.all⟩
    rw [hfill'.other hy, (hcycle y).resolve_right fun h => hy h.1, hfill.other hy]

theorem leads_placeInputsLate (hstart : start < 2147483648) (hns : ∀ n ∈ operands, n ∈ j.moves) :
    Brings j s (placeInputsLate operands start) fun ok s' => s.Fills s' operands ok := by
  refine .look (.findM? fun _ => .of_move) fun trigger hfind => ?_
  have hmem : ∀ n, n ∈ operands ↔ n ∈ operands.filter (fun n => some n ≠ trigger) ∨ trigger = some n := by
    intro n
    have ht : trigger = some n → n ∈ operands := fun ht => mem_of_findM?_eq_some (ht ▸ hfind)
    by_cases hn : trigger = some n
    · simp [hn, ht hn]
    · simp [hn, Ne.symm hn]
  have hlower {upper : Cycle} (hle : upper ≤ start) :
      Brings j s (lowerTrigger operands (operands.filter fun n => some n ≠ trigger) trigger (upper + 1).toNat)
        fun ok s' => s.Fills s' operands ok :=
    leads_lowerTrigger hway (by lia) hmem hns
  cases trigger with
  | none => exact fun _ _ h => hlower (Int.le_refl _) h
  | some t =>
    refine .ask fun l _ => ?_
    cases l with
    | none => exact fun _ _ h => hlower (Int.le_refl _) h
    | some b => exact fun _ _ h => hlower (Int.min_le_right _ _) h

/-- Every try of the operation leaves the books as they are. The last one places it all, so before it no
result was in a cycle. -/
theorem leads_retryLate (hs : Steady j g0 s) (hk : (k : Int) ≤ 2147483648)
    (hns : ∀ n ∈ operands, n ∈ j.moves) (hres : ∀ n ∈ results, n ∈ j.moves ∧ g0.Yields n ∧ n ∉ operands)
    (hloose : ∀ n ∈ s.loose, n ∈ results) :
    Brings j s (retryLate options endCycle unit operands results k) fun ok s' => s.FewerLoose s' ∧
      (ok = true → s'.loose = [] ∧ ∀ n, n ∈ operands ∨ n ∈ results → s'.graph.cycleOf n ≠ none) := by
  induction k generalizing s with
  | zero => exact .pure ⟨Moment.SameBooks.refl.fewerLoose, by simp⟩
  | succ k ih =>
    have hkstart : (k : Int) < 2147483648 := by
      push_cast at hk
      lia
    -- What is done after a failed try.
    have hagain {s1 : Moment} (hs1 : Steady j g0 s1) (hbooks : s.FewerLoose s1) : Brings j s1 (do
          unassignAll results
          count fun s => { s with operationRetries := s.operationRetries + 1 }
          retryLate options endCycle unit operands results k) fun ok s' => s.FewerLoose s' ∧
        (ok = true → s'.loose = [] ∧ ∀ n, n ∈ operands ∨ n ∈ results → s'.graph.cycleOf n ≠ none) := by
      refine .bind (leads_unassignAll fun n hn => (hres n hn).1) fun _ s2 hacts2 hoff => ?_
      refine .bind leads_count fun _ s3 hacts3 hq => ?_
      have hbooks3 : s.FewerLoose s3 := hbooks.trans (hoff.1.trans hq.sameBooks).fewerLoose
      refine (ih ((hs1.acts hacts2).acts hacts3) (by lia) fun n hn => hloose n (hbooks3.loose n hn)).mono ?_
      exact fun _ s4 _ hpost => ⟨hbooks3.trans hpost.1, hpost.2⟩
    have hs0 := hs.acts (.single .tidy)
    have hbooks0 : s.FewerLoose { s with loose := s.loose.filter fun n => (s.graph.cycleOf n).isSome } :=
      ⟨rfl, rfl, rfl, fun n hn => (List.mem_filter.1 hn).1, rfl⟩
    refine .after .tidy rfl (.bind (leads_placeResultsLate hway hs0 hkstart fun n hn => ⟨(hres n hn).1, (hres n hn).2.1⟩) ?_)
    rintro ok1 s1 hacts1 ⟨hfill1, hoff1⟩
    have hs1 := hs0.acts hacts1
    have hbooks1 := hbooks0.trans hfill1.books.fewerLoose
    refine .ite (fun hok1 => ?_) fun _ => hagain hs1 hbooks1
    refine .bind (leads_placeInputsLate hway hkstart hns) fun ok2 s2 hacts2 hfill2 => ?_
    have hbooks2 := hbooks1.trans hfill2.books.fewerLoose
    refine .ite (fun hok2 => ?_) fun _ => hagain (hs1.acts hacts2) hbooks2
    have hempty : s.loose.filter (fun n => (s.graph.cycleOf n).isSome) = [] := by
      refine List.filter_eq_nil_iff.2 fun n hn => ?_
      have hoff : s.graph.cycleOf n = none := hoff1 hok1 n (hloose n hn)
      simp [hoff]
    have hnone : s2.loose = [] := hfill2.books.loose.trans (hfill1.books.loose.trans hempty)
    have hplaced : ∀ n, n ∈ operands ∨ n ∈ results → s2.graph.cycleOf n ≠ none := by
      intro n hn
      by_cases hop : n ∈ operands
      · exact hfill2.all hok2 n hop
      · rw [hfill2.other hop]
        exact hfill1.all hok1 n (hn.resolve_left hop)
    refine .ite (fun _ => .bind leads_note fun _ s3 _ hq => .pure ?_) fun _ => .pure ⟨hbooks2, fun _ => ⟨hnone, hplaced⟩⟩
    refine ⟨hbooks2.trans hq.sameBooks.fewerLoose, fun _ => ⟨hq.loose.trans hnone, fun n hn => ?_⟩⟩
    rw [hq.cycleOf]
    exact hplaced n hn

end

/-! ## The whole operation -/

theorem leads_rejectForcedLate : Brings j s (rejectForcedLate j.operands k) fun _ s' => s' = { s with checked := true } := by
  refine .look forcedOperand?_ok fun x hfree => ?_
  cases x with
  | none => exact .after (.check (hfree rfl)) rfl (.pure rfl)
  | some n => exact Gives.bind fun _ _ _ => .ite (fun _ => .bind fun _ _ _ => .raise) fun _ => .raise

/-- Placing an operation bottom-up comes to acts, after which all of it is placed. -/
theorem leads_placeOperationLate {u : Unit} (hu : Upheld r.machine g0 r.graph) (hw : r.graph.Awaits unit)
    (hop : ∀ n ∈ unit, ∃ m, r.graph.move? n = some m ∧ m.inOperation) (hend : endCycle < 2147483648)
    (hlog : ∀ b ∈ r.bypasser.log, r.graph.cycleOf b.dest ≠ none)
    (h : placeOperationLate options endCycle unit r = .ok u r') :
    ∃ j : Job, j.way = .bottomUp ∧ j.moves = unit ∧ j.Fits g0 ∧
      Leads j { toRegion := r } r' fun s' => s'.Settled j := by
  obtain ⟨⟨operands, results⟩, _, hsplit, h⟩ := run_bind_ok.1 h
  obtain ⟨hfit, hres⟩ := fits_of_operandsAndResults hu hw hsplit .bottomUp
  obtain ⟨rfl, -, -, -⟩ := operandsAndResults_ok hsplit
  have hclear := cleared_of_awaits hfit hw hlog
  refine ⟨⟨.bottomUp, unit, operands⟩, rfl, rfl, hfit, ?_⟩
  have hyields : ∀ n ∈ results, n ∈ unit ∧ g0.Yields n ∧ n ∉ operands := by
    intro n hn
    obtain ⟨hmem, hno⟩ := (hres n).1 hn
    obtain ⟨m, hm, hin⟩ := hop n hmem
    obtain ⟨m0, hm0, hiff⟩ := hfit.known hmem
    have hdst0 : m0.dstOp = none := by
      have : m0.isOperand = false := by simpa using mt hiff.2 hno
      simpa [Move.isOperand] using this
    obtain ⟨hdst, hsrc⟩ := hu.srcOp_eq hm0 hdst0 hm
    refine ⟨hmem, ⟨m0, hm0, hdst0, ?_⟩, hno⟩
    rw [← hsrc]
    simpa [Move.inOperation, Move.isOperand, Move.isResult, hdst] using hin
  have hall : ∀ n ∈ unit, n ∈ operands ∨ n ∈ results := fun n hn =>
    (Classical.em (n ∈ operands)).imp_right fun hop => (hres n).2 ⟨hn, hop⟩
  refine (?_ : Brings ⟨.bottomUp, unit, operands⟩ { toRegion := r } _ fun _ s' => s'.Settled _) h
  refine .bind leads_count fun _ s1 hacts1 hq => ?_
  have hs1 := (Underway.start hu hw).acts hfit hacts1
  have hclear1 := hq.cleared hclear
  refine .bind (leads_bypassBelow rfl hs1.steady ⟨?_, hclear1.loose, fun _ => rfl⟩ hclear1.opened) ?_
  · rw [hclear1.opened]
    exact .closed hclear1.log
  rintro bypassed s2 hacts2 ⟨hd, hopened⟩
  have hs2 := hs1.acts hfit hacts2
  refine .bind leads_rejectForcedLate ?_
  rintro _ s3 hacts3 rfl
  have hs3 := hs2.acts hfit hacts3
  refine .bind (leads_retryLate rfl hs3.steady (by lia) hfit.operands hyields (by simp [hd.loose])) ?_
  rintro ok s4 hacts4 ⟨hbooks, hplaced⟩
  have hs4 := hs3.acts hfit hacts4
  have hopens : Opens operands s4.bypasser.deadCandidates s4.bypasser.log s4.opened := by
    rw [hbooks.bypasser, hbooks.opened]
    exact hd.opens
  have hloose : s4.loose = [] := List.eq_nil_iff_forall_not_mem.2 fun n hn => by
    have hmem : n ∈ s2.loose := hbooks.loose n hn
    rw [hd.loose] at hmem
    cases hmem
  refine .ite (fun hok => .bind leads_count fun _ s5 _ hq5 => ?_) fun _ => .ite (fun _ => ?_) fun _ => .raise
  · refine (hq5.finished ⟨hopens, hloose, .inr hbooks.checked, fun n hn => ?_⟩).brings
    exact (hplaced hok).2 n (hall n hn)
  refine .bind (leads_unbypass hfit hs4 hopens (by simp [hloose])) fun _ s5 hacts5 hpost => ?_
  have hs5 := hs4.acts hfit hacts5
  refine .bind leads_count fun _ s6 hacts6 hq6 => .bind leads_rejectForcedLate ?_
  have hs6 := hs5.acts hfit hacts6
  rintro _ s7 hacts7 rfl
  have hs7 := hs6.acts hfit hacts7
  -- What has come back into a cycle belongs to the unit, for else it would have had none.
  have hloose6 : ∀ n ∈ s6.loose, n ∈ results := by
    intro n hn
    obtain ⟨hgone, hcycle⟩ := hpost.loose n (hq6.loose ▸ hn)
    have hno : n ∉ operands := fun hop => hcycle (hpost.off n hop)
    refine (hres n).2 ⟨(hs4.gone n hgone).resolve_right ?_, hno⟩
    rw [← hpost.cycle hno]
    exact hcycle
  refine .bind (leads_retryLate rfl hs7.steady (by lia) hfit.operands hyields hloose6) ?_
  rintro ok8 s8 - ⟨hbooks8, hplaced8⟩
  refine .ite (fun hok => ?_) fun _ => .raise
  have hopened8 : s8.opened = [] := hbooks8.opened.trans (hq6.opened.trans hpost.opened)
  refine (show s8.Finished _ from ⟨?_, (hplaced8 hok).1, .inr hbooks8.checked,
    fun n hn => (hplaced8 hok).2 n (hall n hn)⟩).brings
  rw [hopened8, hbooks8.bypasser]
  exact .closed fun b hb => (hpost.log b (hq6.bypasser ▸ hb)).1

end RegionM

end Transport
