import Transport.Proofs.Bypass.Undo
import Transport.Scheduling.TopDown

/-!
# Placing an operation top-down is a series of acts

The tries of an operation go through three phases. It is `Cleared` when nothing of it is placed or
open, `Loaded` when its operands are placed, and `Finished` when all of it is. A try that fails clears
the operation again.
-/

namespace Transport

open Transport.Graph
open Relation (ReflTransGen)

variable {j : Job} {g0 g : Graph} {s s' : Moment} {r r' : Region} {n x : MoveId} {ns done : List MoveId}
  {ok : Bool} {c : Cycle} {g' : Graph} {machine : Machine} {s1 : Moment} {m m0 : Move} {p : Option Placement}

/-! ## Stages -/

theorem Upheld.stage (h : Upheld machine g0 g) (hm : g.move? x = some m)
    (hm0 : g0.move? x = some m0) : m.stage = m0.stage := by
  have hfixed := of_some (h.framed.move? hm0) hm
  have hd : m.dstOp = m0.dstOp := congrArg Move.Fixed.dstOp hfixed
  have ht : m.isTrigger = m0.isTrigger := congrArg Move.Fixed.trigger hfixed
  rw [Move.stage, Move.stage, Move.isOperand, Move.isOperand, hd, ht]

/-- The stage of a move in a graph. -/
def Graph.stage (g : Graph) (n : MoveId) : Nat := ((g.move? n).map Move.stage).getD 0

theorem Upheld.stage_eq (h : Upheld machine g0 g) (hm : g.move? x = some m) : m.stage = g0.stage x := by
  obtain ⟨m0, hm0, -⟩ := h.framed.symm.move? hm
  simp [Graph.stage, hm0, h.stage hm hm0]

theorem Job.Fits.stage_of_operand (h : j.Fits g0) (hn : n ∈ j.operands) : g0.stage n < 2 := by
  obtain ⟨m0, hm0, hop⟩ := h.known (h.operands n hn)
  simp only [Graph.stage, hm0, Option.map_some, Option.getD_some, Move.stage, hop.1 hn, if_true]
  split <;> decide

theorem Job.Fits.stage_of_result (h : j.Fits g0) (hn : n ∈ j.moves) (hres : n ∉ j.operands) :
    g0.stage n = 2 := by
  obtain ⟨m0, hm0, hop⟩ := h.known hn
  have hno : m0.isOperand = false := by simpa using mt hop.2 hres
  simp [Graph.stage, hm0, Move.stage, hno]

/-- An operand may be placed after operands of no later stage. -/
theorem Job.Fits.inOrder_operand (h : j.Fits g0) (hu : Upheld s.machine g0 s.graph) (hn : n ∈ j.operands)
    (hdone : ∀ x ∈ j.moves, s.graph.cycleOf x ≠ none → g0.stage x ≤ g0.stage n) : j.InOrder s.graph n := by
  intro x mx m hx hmx hplaced hm
  have hle : mx.stage ≤ m.stage := by
    rw [hu.stage_eq hmx, hu.stage_eq hm]
    refine hdone x hx ?_
    simpa [Graph.cycleOf, hmx, Move.cycle?, Move.isPlaced, Option.isSome_iff_ne_none] using hplaced
  refine ⟨hle, fun _ htwo => ?_⟩
  have := h.stage_of_operand hn
  rw [← hu.stage_eq hm] at this
  omega

/-- A result may be placed after the operands and the results before it. -/
theorem Job.Fits.inOrder_result (h : j.Fits g0) (hu : Upheld s.machine g0 s.graph) (hn : n ∈ j.moves)
    (hres : n ∉ j.operands)
    (hdone : ∀ x ∈ j.moves, x ∉ j.operands → s.graph.cycleOf x ≠ none → x.val < n.val) :
    j.InOrder s.graph n := by
  intro x mx m hx hmx hplaced hm
  have hstage : m.stage = 2 := (hu.stage_eq hm).trans (h.stage_of_result hn hres)
  by_cases hop : x ∈ j.operands
  · have := h.stage_of_operand hop
    rw [← hu.stage_eq hmx] at this
    exact ⟨by omega, fun heq => by omega⟩
  · have hx2 : mx.stage = 2 := (hu.stage_eq hmx).trans (h.stage_of_result hx hop)
    refine ⟨by omega, fun _ _ => hdone x hx hop ?_⟩
    simpa [Graph.cycleOf, hmx, Move.cycle?, Move.isPlaced, Option.isSome_iff_ne_none] using hplaced

/-! ## Operands -/

/-- Some of `ns` have been placed, all of them if it went well. -/
structure Moment.Fills (s s' : Moment) (ns : List MoveId) (ok : Bool) : Prop where
  books : s.SameBooks s'
  other {y : MoveId} : y ∉ ns → s'.graph.cycleOf y = s.graph.cycleOf y
  all : ok = true → ∀ n ∈ ns, s'.graph.cycleOf n ≠ none

theorem Moment.Fills.cons {s2 : Moment} (hput : s.Puts s1 n (some c))
    (hfill : s1.Fills s2 ns ok) : s.Fills s2 (n :: ns) ok := by
  refine ⟨hput.books.trans hfill.books, fun {y} hy => ?_, fun hok y hy => ?_⟩
  · rw [hfill.other fun hmem => hy (List.mem_cons_of_mem _ hmem), hput.cycle_some, if_neg]
    rintro rfl
    exact hy List.mem_cons_self
  · by_cases hyns : y ∈ ns
    · exact hfill.all hok y hyns
    · rw [hfill.other hyns, hput.cycle_some]
      simp [(List.mem_cons.1 hy).resolve_right hyns]

theorem Moment.Puts.fills (h : s.Puts s' n Option.none) : s.Fills s' ns false :=
  ⟨h.books, fun _ => by rw [h.cycle]; simp, by simp⟩

theorem Moment.SamePlaces.fills (h : s.SamePlaces s1) (hfill : s1.Fills s' ns ok) : s.Fills s' ns ok :=
  ⟨h.books.trans hfill.books, fun hy => (hfill.other hy).trans (h.cycle _), hfill.all⟩

namespace RegionM

variable {start : Cycle} {cs cs' : OperandCycles}

theorem leads_placeOperandsFrom (hfit : j.Fits g0)
    (hway : j.way = .topDown) (hs : Steady j g0 s) (hns : ∀ n ∈ ns, n ∈ j.operands)
    (hdone : ∀ x ∈ j.moves, s.graph.cycleOf x ≠ none → ∀ n ∈ ns, g0.stage x ≤ g0.stage n)
    (hord : ns.Pairwise fun n n' => g0.stage n ≤ g0.stage n') :
    Brings j s (placeOperandsFrom start ns cs) fun x s' => s.Fills s' ns x.1 := by
  induction ns generalizing s cs with
  | nil => exact .pure ⟨.refl, fun _ => rfl, by simp⟩
  | cons n ns ih =>
    obtain ⟨hfirst, hord⟩ := List.pairwise_cons.1 hord
    have hmem := hns n List.mem_cons_self
    have horder := hfit.inOrder_operand hs.upheld hmem fun x hx hp => hdone x hx hp n List.mem_cons_self
    refine .move fun m hm => .bind (leads_placeEarly hway (hfit.operands n hmem) horder) fun x s1 hacts hput => ?_
    cases x with
    | none => exact .pure hput.fills
    | some c =>
      refine (ih (hs.acts hacts) (fun x hx => hns x (List.mem_cons_of_mem _ hx)) ?_ hord).mono ?_
      · intro x hx hp n' hn'
        rw [hput.cycle_some] at hp
        by_cases hxn : x = n
        · rw [hxn]
          exact hfirst n' hn'
        · exact hdone x hx (by simpa [hxn] using hp) n' (List.mem_cons_of_mem _ hn')
      · exact fun _ _ _ hfill => hfill.cons hput

/-- If all operands are placed, the earliest of their cycles is known. -/
theorem first_of_placeOperandsFrom
    (h : placeOperandsFrom start ns cs r = .ok (true, cs') r') (hnone : cs'.first = none) :
    cs.first = none ∧ ns = [] := by
  induction ns generalizing cs r with
  | nil =>
    cases (run_pure_ok.1 h).1
    exact ⟨hnone, rfl⟩
  | cons n ns ih =>
    simp only [placeOperandsFrom, run_bind_ok] at h
    obtain ⟨m, _, -, x, r1, hx, h⟩ := h
    cases x with
    | none => cases (run_pure_ok.1 h).1
    | some c => cases (ih h).1

/-- Operands are tried in order of their stages. -/
theorem operandOrder_ok {operands : List MoveId} : Gives r (operandOrder operands) fun order r' =>
    r = r' ∧ (∀ n, n ∈ order ↔ n ∈ operands) ∧ ∃ os ts, order = os ++ ts ∧
      (∀ n ∈ os, ∃ m, r.graph.move? n = some m ∧ m.isTrigger = false) ∧
      ∀ n ∈ ts, ∃ m, r.graph.move? n = some m ∧ m.isTrigger = true := by
  refine .look (.filterM (p := fun n => do return !(← r.graph.move n).isTrigger) fun n =>
    .bind (.move fun m hm => .pure (.pure ⟨rfl, by simp [hm]⟩))) fun others hos => ?_
  refine .look (.filterM fun _ => .of_move) fun triggers hts => ?_
  refine .mono (P := fun order r' => r = r' ∧ ∃ os, os.Perm others ∧ order = os ++ triggers) ?_ ?_
  · split
    · exact .pure ⟨rfl, _, .refl _, rfl⟩
    · exact .pure ⟨rfl, _, .refl _, rfl⟩
    · refine .look (.mapM (p := fun n => do return (← r.graph.earliest n, n)) fun n =>
        .ask fun e he => .pure ⟨rfl, by simp [he]⟩) fun keyed hk => .pure ⟨rfl, _, ?_, rfl⟩
      have hmap : keyed.map Prod.snd = others := map_of_mapM_eq_ok (fun n y hy => by
        obtain ⟨e, -, heq⟩ := bind_eq_ok.1 hy
        cases pure_eq_ok.1 heq
        rfl) hk
      exact hmap ▸ (sortBy_perm _ keyed).map Prod.snd
  have hmem_os {n : MoveId} : n ∈ others ↔ n ∈ operands ∧ ∃ m, r.graph.move n = .ok m ∧ m.isTrigger = false := by
    rw [mem_of_filterM_eq_ok hos]
    simp only [bind_eq_ok, pure_eq_ok, Bool.not_eq_true']
  have hmem_ts {n : MoveId} : n ∈ triggers ↔ n ∈ operands ∧ ∃ m, r.graph.move n = .ok m ∧ m.isTrigger = true := by
    rw [mem_of_filterM_eq_ok hts]
    simp only [bind_eq_ok, pure_eq_ok]
  rintro _ _ ⟨rfl, os, hperm, rfl⟩
  refine ⟨rfl, fun n => ?_, os, triggers, rfl, fun n hn => ?_, fun n hn => ?_⟩
  · rw [List.mem_append, hperm.mem_iff, hmem_os, hmem_ts, ← and_or_left]
    refine ⟨And.left, fun hn => ⟨hn, ?_⟩⟩
    obtain ⟨b, hb⟩ := ok_of_filterM_eq_ok hts hn
    obtain ⟨m, hm, -⟩ := bind_eq_ok.1 hb
    cases ht : m.isTrigger
    · exact .inl ⟨m, hm, ht⟩
    · exact .inr ⟨m, hm, ht⟩
  · obtain ⟨-, m, hm, ht⟩ := hmem_os.1 (hperm.mem_iff.1 hn)
    exact ⟨m, move?_of_move hm, ht⟩
  · obtain ⟨-, m, hm, ht⟩ := hmem_ts.1 hn
    exact ⟨m, move?_of_move hm, ht⟩

end RegionM

/-- Nothing of the unit is placed. -/
def Moment.Idle (j : Job) (s : Moment) : Prop := ∀ n ∈ j.moves, s.graph.cycleOf n = none

/-- The operands of the unit are placed, and nothing else of it. -/
structure Moment.Placed (j : Job) (s : Moment) : Prop where
  operands : ∀ n ∈ j.operands, s.graph.cycleOf n ≠ none
  results : ∀ n ∈ j.moves, n ∉ j.operands → s.graph.cycleOf n = none

namespace RegionM

section

variable (hfit : j.Fits g0) (hway : j.way = .topDown) (hs : Underway j g0 s)
include hfit hway hs

/-- Top-down, moves that are taken off are in no cycle. -/
theorem leads_unassignAll_early (hns : ∀ n ∈ ns, n ∈ j.moves) : Brings j s (unassignAll ns) fun _ s' =>
    s.SameBooks s' ∧ (∀ n ∈ ns, s'.graph.cycleOf n = none) ∧ ∀ y, y ∉ ns → s'.graph.cycleOf y = s.graph.cycleOf y := by
  refine (leads_unassignAll hns).mono ?_
  rintro _ s1 hacts ⟨hbooks, -, hoff, hcycle⟩
  refine ⟨hbooks, fun n hn => ?_, fun y hy => (hcycle y).resolve_right fun h => hy h.1⟩
  exact ((hs.acts hfit hacts).has (hns n hn) (.inr hway)).cycleOf (hoff n hn)

theorem leads_placeOperandRounds {order : List MoveId} {rounds : Nat} {start : Cycle} (hidle : s.Idle j)
    (hmem : ∀ n, n ∈ order ↔ n ∈ j.operands) (hord : order.Pairwise fun n n' => g0.stage n ≤ g0.stage n')
    (hsome : order ≠ []) : Brings j s (placeOperandRounds j.operands order rounds start) fun x s' =>
      s.SameBooks s' ∧ ((x = none ∧ s'.Idle j) ∨ (x ≠ none ∧ s'.Placed j)) := by
  induction rounds generalizing s start with
  | zero => exact .pure ⟨.refl, .inl ⟨rfl, hidle⟩⟩
  | succ rounds ih =>
    have hplace (cs : OperandCycles) :
        Brings j s (placeOperandsFrom start order cs) fun x s' => s.Fills s' order x.1 :=
      leads_placeOperandsFrom hfit hway hs.steady (fun n hn => (hmem n).1 hn)
        (fun x hx hp => absurd (hidle x hx) hp) hord
    have hfirst : Brings j s (placeOperandsFrom start order { last := start }) fun x s' =>
        s.Fills s' order x.1 ∧ (x.1 = true → x.2.first ≠ none) := by
      rintro ⟨ok, cs⟩ r' h
      refine (hplace _ h).mono fun s' _ hfill => ⟨hfill, ?_⟩
      rintro rfl hnone
      exact hsome (first_of_placeOperandsFrom h hnone).2
    refine .bind hfirst fun x s1 hacts hpost => ?_
    obtain ⟨ok, cs⟩ := x
    obtain ⟨hfill, hknown⟩ := hpost
    have hs1 := hs.acts hfit hacts
    have hresults {n : MoveId} (hn : n ∈ j.moves) (hop : n ∉ j.operands) : s1.graph.cycleOf n = none := by
      rw [hfill.other (mt (hmem n).1 hop)]
      exact hidle n hn
    refine .ite (fun hok => .pure ?_) fun _ => ?_
    · exact ⟨hfill.books, .inr ⟨hknown hok, fun n hn => hfill.all hok n ((hmem n).2 hn), fun n => hresults⟩⟩
    refine .bind (leads_unassignAll_early hfit hway hs1 hfit.operands) fun _ s2 hacts' hpost => .lift fun start' _ => ?_
    obtain ⟨hbooks, hnone, hsame⟩ := hpost
    refine (ih (hs1.acts hfit hacts') fun n hn => ?_).mono fun _ s3 _ hpost => ?_
    · by_cases hop : n ∈ j.operands
      · exact hnone n hop
      · rw [hsame n hop]
        exact hresults hn hop
    · exact ⟨(hfill.books.trans hbooks).trans hpost.1, hpost.2⟩

/-- The operands are all placed, or none of them is. -/
theorem leads_placeOperands {start : Cycle} (hidle : s.Idle j) : Brings j s (placeOperands j.operands start) fun x s' =>
    s.SameBooks s' ∧ ((x = none ∧ s'.Idle j) ∨ (x ≠ none ∧ s'.Placed j)) := by
  refine .ite (fun hempty => .pure ?_) fun hsome => .look operandOrder_ok fun order horder => ?_
  · rw [List.isEmpty_iff] at hempty
    exact ⟨.refl, .inr ⟨by simp, by simp [hempty], fun n hn _ => hidle n hn⟩⟩
  · obtain ⟨hmem, os, ts, rfl, hos, hts⟩ := horder
    refine leads_placeOperandRounds hfit hway hs hidle hmem ?_ fun hnil => ?_
    swap
    · refine hsome (List.isEmpty_iff.2 (List.eq_nil_iff_forall_not_mem.2 fun n hn => ?_))
      rw [← hmem, hnil] at hn
      cases hn
    have hstage {n : MoveId} {b : Bool} (hn : n ∈ os ++ ts)
        (hm : ∃ m, s.graph.move? n = some m ∧ m.isTrigger = b) : g0.stage n = if b then 1 else 0 := by
      obtain ⟨m, hm, rfl⟩ := hm
      obtain ⟨m0, hm0, hop⟩ := hfit.known (hfit.operands n ((hmem n).1 hn))
      have hoperand : m.isOperand := (hs.steady.upheld.isOperand hm hm0).trans (hop.1 ((hmem n).1 hn))
      rw [← hs.steady.upheld.stage_eq hm, Move.stage, if_pos hoperand]
    have hzero {n : MoveId} (hn : n ∈ os) : g0.stage n = 0 := hstage (List.mem_append_left _ hn) (hos n hn)
    have hone {n : MoveId} (hn : n ∈ ts) : g0.stage n = 1 := hstage (List.mem_append_right _ hn) (hts n hn)
    refine List.pairwise_append.2 ⟨?_, ?_, fun n hn n' hn' => ?_⟩
    · exact List.Pairwise.imp_of_mem (fun hn hn' _ => Nat.le_of_eq ((hzero hn).trans (hzero hn').symm))
        (List.pairwise_of_forall fun _ _ => trivial)
    · exact List.Pairwise.imp_of_mem (fun hn hn' _ => Nat.le_of_eq ((hone hn).trans (hone hn').symm))
        (List.pairwise_of_forall fun _ _ => trivial)
    · rw [hzero hn]
      exact Nat.zero_le _

end

end RegionM

/-! ## Bypasses -/

theorem Graph.Places.entering (h : g.Places n p g') (x : MoveId) : g'.entering x = g.entering x := by
  have hentries (es : List EdgeId) : g'.entries es = g.entries es := by
    simp only [Graph.entries, h.link?]
  have hins := h.map_eq (f := Move.ins) (fun _ _ => rfl) x
  unfold Graph.entering
  cases hm' : g'.move? x <;> cases hm : g.move? x <;> simp_all

theorem Graph.Places.soleSource (h : g.Places n p g') (x : MoveId) : g'.soleSource x = g.soleSource x := by
  rw [Graph.soleSource, h.entering x]
  rfl

/-- The operands are placed, as far as they are bypassed with what is open. -/
structure Moment.Loaded (j : Job) (s : Moment) : Prop where
  opens : Opens j.operands s.bypasser.deadCandidates s.bypasser.log s.opened
  loose : s.loose = []
  placed : s.Placed j

/-- A bypass has failed, and has to be taken back with the others. -/
structure Moment.Broken (j : Job) (s : Moment) : Prop where
  opens : Opens j.operands s.bypasser.deadCandidates s.bypasser.log s.opened
  loose : ∀ n ∈ s.loose, n ∈ j.operands
  results : ∀ n ∈ j.moves, n ∉ j.operands → s.graph.cycleOf n = none

theorem Moment.Loaded.congr (h : s.Loaded j) (hsame : s.SamePlaces s') : s'.Loaded j := by
  refine ⟨?_, hsame.books.loose.trans h.loose, fun n hn => ?_, fun n hn hop => ?_⟩
  · rw [hsame.books.bypasser, hsame.books.opened]
    exact h.opens
  · rw [hsame.cycle]
    exact h.placed.operands n hn
  · rw [hsame.cycle]
    exact h.placed.results n hn hop

namespace RegionM

variable {a a' : Attempt ChangeRecord} {b : Bool}

theorem cycleOf_of_cycle (hm : g.move n = .ok m) (hc : m.cycle = .ok c) : g.cycleOf n = some c := by
  cases hp : m.placement with
  | none => simp [Move.cycle, hp] at hc
  | some p =>
    have hpc : p.cycle = c := by simpa [Move.cycle, hp] using hc
    simp [Graph.cycleOf, move?_of_move hm, Move.cycle?, hp, hpc]

theorem withinLookBack_ok {reg : Reg} {produced : Cycle} :
    Gives r (withinLookBack reg produced c) fun _ r' => r = r' :=
  .graph (.ite (fun _ => .pure rfl) fun _ => .bypasser (.lift fun _ _ => .pure rfl))

theorem bypassSource?_ok : Gives r (bypassSource? n) fun x r' => r = r' ∧ ∀ source c, x = some (source, c) →
    ∃ m reg ms produced, r.graph.move n = .ok m ∧ m.src.reg? = some reg ∧ m.cycle = .ok c ∧
      r.graph.soleSource n = some source ∧ r.graph.move source = .ok ms ∧ ms.cycle? = some produced ∧
      withinLookBack reg produced c r = .ok true r ∧ Graph.guardsAgree ms m && r.graph.isBypassable ms := by
  refine .move fun m hm => ?_
  cases hreg : m.src.reg? with
  | none => exact .pure ⟨rfl, by simp⟩
  | some reg =>
    refine .lift fun c hc => .graph ?_
    cases hsole : r.graph.soleSource n with
    | none => exact .pure ⟨rfl, by simp⟩
    | some source =>
      refine .move fun ms hms => ?_
      cases hproduced : ms.cycle? with
      | none => exact .pure ⟨rfl, by simp⟩
      | some produced =>
        refine .bind fun near r1 hnear => ?_
        cases withinLookBack_ok hnear
        refine .ite (fun hyes => .graph (.ite (fun hok => .pure ⟨rfl, ?_⟩) fun _ => .pure ⟨rfl, by simp⟩))
          fun _ => .pure ⟨rfl, by simp⟩
        rintro _ _ ⟨⟩
        exact ⟨m, reg, ms, produced, hm, hreg, hc, rfl, hms, hproduced, hyes ▸ hnear, hok⟩

/-- Either a move is placed, or nothing happens. -/
theorem tryStep_assign_ok : Gives r (a.tryStep reversal (.single (.assign n c))) fun x r' =>
    (x = (false, a) ∧ r' = r) ∨ (x = (true, .mk [] (.assigned n) [] :: a) ∧ assign n c r = .ok () r') := by
  refine gives_tryStep (.get (.lift fun can _ => .ite (fun _ => ?_) fun _ => .pure (.inl ⟨rfl, rfl⟩)))
  exact .bind fun _ _ hassign => .pure (.inr ⟨rfl, hassign⟩)

/-- A redirected operand is placed in a cycle that its predecessors allow, not later than before. -/
theorem replaceBefore_ok {old : Cycle} : Gives r (replaceBefore n old a) fun x r' =>
    (x = (false, a) ∧ r' = r) ∨ ∃ c, x = (true, .mk [] (.assigned n) [] :: a) ∧
      assign n c r = .ok () r' ∧ c ≤ old ∧ ∃ e, r.graph.earliest n = .ok e ∧ e ≤ c := by
  refine .look guardedEarliest_ok fun bound hb => .look earliestFit_ok fun fit hbound => ?_
  obtain ⟨e, he, hle⟩ := hb
  cases fit with
  | none => exact .pure (.inl ⟨rfl, rfl⟩)
  | some c =>
    refine .ite (fun hc => .mono tryStep_assign_ok fun x r' hx => ?_) fun _ => .pure (.inl ⟨rfl, rfl⟩)
    have := (hbound c rfl).1
    exact hx.imp_right fun h => ⟨c, h.1, h.2, hc, e, he, by lia⟩

theorem tryStep_unassign_ok (hc : r.graph.cycleOf n = some c) :
    Gives r (a.tryStep reversal (.single (.unassign n))) fun x r' =>
      x = (true, .mk [] (.unassigned n c) [] :: a) ∧ unassign n r = .ok () r' := by
  refine gives_tryStep (.move fun m hm => ?_)
  have hmc : m.cycle? = some c := by simpa [Graph.cycleOf, move?_of_move hm] using hc
  rw [hmc]
  exact .bind fun _ _ hun => .pure ⟨rfl, hun⟩

end RegionM

/-- The operand `n` is taken off its cycle and made to read what `source`, which is placed, reads. -/
structure Region.Reroutes (r : Region) (n source : MoveId) (old : Cycle) (edges : EdgeRecord) (red : Redirection)
    (u : Usage) (g g' : Graph) : Prop where
  was : r.graph.cycleOf n = some old
  produced : ∃ c, r.graph.cycleOf source = some c
  unassign : r.usage.unassign r.graph n = .ok (u, g)
  bypasses : g.Bypasses source n edges red g'

/-- Top-down, the producer of a placed operand is outside the unit: of the unit only operands are placed,
and these write no register. -/
theorem Job.Fits.reaches (hfit : j.Fits g0) (hway : j.way = .topDown)
    (hu : Upheld machine g0 g) (hresults : ∀ n ∈ j.moves, n ∉ j.operands → g.cycleOf n = none)
    {source dest : MoveId} {edges : EdgeRecord} {red : Redirection}
    (hb : g.Bypasses source dest edges red g') (hc : g.cycleOf source = some c) : j.Reaches g source dest := by
  obtain ⟨r, ms, md, g1, hd⟩ := hu.diverted hb
  rw [Job.Reaches, hway]
  refine ⟨fun hmem => ?_, c, hc⟩
  have hop : source ∈ j.operands := by
    by_contra hop
    rw [hresults source hmem hop] at hc
    cases hc
  obtain ⟨m0, hm0, hiff⟩ := hfit.known hmem
  have hoperand : ms.isOperand := (hu.isOperand hd.producer hm0).trans (hiff.1 hop)
  have hin := hu.matched.dst_input hd.producer
  rw [hd.writes] at hin
  rw [Move.isOperand, hin] at hoperand
  cases hoperand

namespace RegionM

/-- The four ways a placed operand fares. -/
inductive BypassEnds (r : Region) (n : MoveId) : OperandBypass → Region → Prop
  | skipped : BypassEnds r n .skipped r
  /-- The bypass is not allowed: back to the old cycle. -/
  | refused {old : Cycle} {u u' : Usage} {g g' : Graph} (was : r.graph.cycleOf n = some old)
      (unassign : r.usage.unassign r.graph n = .ok (u, g)) (assign : u.assign r.machine g old n = .ok (u', g')) :
      BypassEnds r n .skipped { r with usage := u', graph := g' }
  /-- The operand fits nowhere: the bypass is taken back, and the operand goes back for now. -/
  | failed {source : MoveId} {old : Cycle} {edges : EdgeRecord} {red : Redirection} {u : Usage} {g g' : Graph}
      {r1 r' : Region} (h : r.Reroutes n source old edges red u g g')
      (undo : reversal.undo (mergeSteps edges red) { r with usage := u, graph := g' } = .ok () r1)
      (assign : assign n old r1 = .ok () r') : BypassEnds r n .failed r'
  | bypassed {source : MoveId} {old c : Cycle} {edges : EdgeRecord} {red : Redirection} {u u' : Usage}
      {g g' g'' : Graph} (h : r.Reroutes n source old edges red u g g') (le : c ≤ old)
      (earliest : ∃ e, g'.earliest n = .ok e ∧ e ≤ c) (assign : u.assign r.machine g' c n = .ok (u', g'')) :
      BypassEnds r n .bypassed { r with
        usage := u', graph := g'', bypasser := r.bypasser.keep { dest := n, source, sourceRemoved := false, steps :=
          [.mk [] (.assigned n) [], mergeSteps edges red, .mk [] (.unassigned n old) []] } }

theorem bypassOperand_ends (hoperand : ∀ m, r.graph.move? n = some m → m.isOperand) :
    Gives r (bypassOperand n) (BypassEnds r n) := by
  refine .look bypassSource?_ok fun y hfound => ?_
  rcases y with _ | ⟨source, old⟩
  · exact .pure .skipped
  intro x r' h
  obtain ⟨m, -, ms, c', hm, -, hc, hsole, hms, hproduced, -, hok⟩ := hfound source old rfl
  have hold := cycleOf_of_cycle hm hc
  replace hms := move?_of_move hms
  simp only [run_bind_ok] at h
  obtain ⟨⟨_, _⟩, r2, hoff, h⟩ := h
  obtain ⟨⟨⟩, hoff'⟩ := tryStep_unassign_ok hold hoff
  obtain ⟨u1, g1, hunassign, rfl⟩ := unassign_ok hoff'
  obtain ⟨md, hmd, -, hp1⟩ := places_of_unassign hunassign
  simp only [if_true, run_bind_ok] at h
  obtain ⟨⟨b, a⟩, r3, hmerge, h⟩ := h
  obtain ⟨⟨⟩, rfl⟩ | ⟨g2, edges, g3, red, hmergeEdges, hredirect, rfl, ⟨⟩⟩ := tryStep_merge_ok hmerge
  · simp only [Bool.false_eq_true, if_false, run_bind_ok, Reversal.undoAll, run_pure_ok] at h
    obtain ⟨_, _, ⟨_, _, hback, -, rfl⟩, rfl, rfl⟩ := h
    obtain ⟨u2, g2, hassign, rfl⟩ := assign_ok (undo_unassigned_ok hback)
    exact .refused hold hunassign hassign
  have hreroutes : r.Reroutes n source old edges red u1 g1 g3 := by
    refine ⟨hold, ⟨c', by simp [Graph.cycleOf, hms, hproduced]⟩, hunassign, ?_⟩
    obtain ⟨q, hq⟩ := hp1.move_of_move? hms
    refine ⟨(hp1.soleSource n).trans hsole, ⟨_, hq, ?_⟩, ⟨_, hp1.self hmd, hoperand md hmd, rfl⟩,
      g2, hmergeEdges, hredirect⟩
    rw [← (Bool.and_eq_true_iff.1 hok).2]
    simp only [isBypassable, hp1.framed.isForced]
    rfl
  simp only [if_true, run_bind_ok] at h
  obtain ⟨⟨b, a⟩, r4, hreplace, h⟩ := h
  obtain ⟨⟨⟩, rfl⟩ | ⟨c, ⟨⟩, hassign, hle, hearliest⟩ := replaceBefore_ok hreplace
  · simp only [Bool.false_eq_true, if_false, run_bind_ok, Reversal.undoAll, run_pure_ok] at h
    obtain ⟨_, _, ⟨_, r5, hundo, _, _, hback, -, rfl⟩, rfl, rfl⟩ := h
    exact .failed hreroutes hundo (undo_unassigned_ok hback)
  · simp only [if_true, run_bind_ok, bypasser_ok, setBypasser_ok, run_pure_ok] at h
    obtain ⟨_, _, ⟨rfl, rfl⟩, _, _, rfl, rfl, rfl⟩ := h
    obtain ⟨u4, g4, ha, rfl⟩ := assign_ok hassign
    exact .bypassed hreroutes hle hearliest ha

/-- A placed operand is left alone, bypassed, or put back after a failure. -/
theorem leads_bypassOperand (hfit : j.Fits g0) (hway : j.way = .topDown) (hs : Underway j g0 s) (hl : s.Loaded j)
    (hon : s.bypasser.isEnabled) (hn : n ∈ j.operands) : Brings j s (bypassOperand n) fun x s' =>
      (x = .skipped ∧ s.SamePlaces s') ∨ (x = .bypassed ∧ s'.Loaded j) ∨ (x = .failed ∧ s'.Broken j) := by
  obtain ⟨m0, hm0, hiff⟩ := hfit.known (hfit.operands n hn)
  intro x r' h
  have hends := bypassOperand_ends (fun m hm => (hs.steady.upheld.isOperand hm hm0).trans (hiff.1 hn)) h
  -- What the two ways through a bypass have in common: the operand is off its cycle and reads the result.
  have hacts {source : MoveId} {old : Cycle} {edges : EdgeRecord} {red : Redirection} {u : Usage} {g g' : Graph}
      (hr : s.Reroutes n source old edges red u g g') : Act j s { s with usage := u, graph := g } ∧
      Underway j g0 { s with usage := u, graph := g } ∧ j.Reaches g source n ∧
      ∀ y, g'.cycleOf y = if y = n then none else s.graph.cycleOf y := by
    obtain ⟨md, hmd, -, hp⟩ := places_of_unassign hr.unassign
    have hunplace : Act j s { s with usage := u, graph := g } := .unplace (hfit.operands n hn) hr.unassign
    have hs1 := hs.acts hfit (.single hunplace)
    obtain ⟨reg, ms, md, g1, hd⟩ := hs1.steady.upheld.diverted hr.bypasses
    obtain ⟨c', hc'⟩ := hr.produced
    refine ⟨hunplace, hs1, ?_, fun y => ?_⟩
    · refine hfit.reaches (c := c') hway hs1.steady.upheld (fun x hx hop => ?_) hr.bypasses ?_
      · rw [hp.cycleOf]
        split
        · rfl
        · exact hl.placed.results x hx hop
      · rw [hp.cycleOf, if_neg hd.merges.ne]
        exact hc'
    · rw [hd.samePresence.cycleOf, hp.cycleOf]
      rfl
  cases hends with
  | skipped => exact .here (.inl ⟨rfl, .refl⟩)
  | @refused old _ _ _ _ was unassign assign =>
    obtain ⟨-, -, -, hp1⟩ := places_of_unassign unassign
    obtain ⟨-, bus, -, -, hp2⟩ := places_of_assign assign
    refine .act (.advance hway hl.loose hn was unassign (.inl rfl) assign) (.inl ⟨rfl, ⟨rfl, rfl, rfl, rfl, rfl⟩, fun y => ?_⟩)
    rw [hp2.cycleOf, hp1.cycleOf]
    split
    · rename_i hyn
      rw [hyn, was]
      rfl
    · rfl
  | @failed source old edges red u1 g1 g3 r5 _ hr undo assign =>
    obtain ⟨hunplace, hs1, hreaches, hcycle3⟩ := hacts hr
    obtain ⟨hnonneg, hsmall⟩ := hs.steady.upheld.bounded n old hr.was
    have hmerge : Act j { s with usage := u1, graph := g1 } _ := .merge hon hn hreaches hr.bypasses
    have hs3 := hs1.acts hfit (.single hmerge)
    have hfirst : Leads j s r5 fun s' =>
        ({ s with graph := g3 } : Moment).Pops s' (.merged source n edges red) s.opened := by
      obtain ⟨s5, ⟨hacts, hgroups⟩, hr, hpop⟩ := leads_undo_merge hs3.steady rfl (by simp [hcycle3]) undo
      exact ⟨s5, ⟨(ReflTransGen.single hunplace).trans (.head hmerge hacts), hgroups⟩, hr,
        hpop.machine, hpop.bypasser, hpop.opened, hpop.loose, hpop.cycle⟩
    refine hfirst.bind ?_
    rintro s5 - rfl hpop
    obtain ⟨u6, g6, ha, rfl⟩ := assign_ok assign
    obtain ⟨-, bus, -, -, hp6⟩ := places_of_assign ha
    refine .act (.replace hn hnonneg hsmall ha) (.inr (.inr ⟨rfl, ?_, fun x hx => ?_, fun x hx hop => ?_⟩))
    · rw [hpop.opened]
      exact hpop.bypasser ▸ hl.opens
    · rw [show s5.loose = [] from hpop.loose_eq.trans hl.loose] at hx
      exact List.mem_singleton.1 hx ▸ hn
    · rw [hp6.cycleOf, if_neg (by rintro rfl; exact hop hn), hpop.cycle, hcycle3]
      split
      · rfl
      · exact hl.placed.results x hx hop
  | @bypassed source old c edges red _ _ _ g3 g4 hr le earliest assign =>
    obtain ⟨-, -, hreaches, hcycle3⟩ := hacts hr
    obtain ⟨hnonneg, hsmall⟩ := hs.steady.upheld.bounded n old hr.was
    obtain ⟨-, bus, -, -, hp4⟩ := places_of_assign assign
    have hbypass : Act j s _ :=
      .bypass hon hway hl.loose hn hr.was hr.unassign hreaches hr.bypasses le earliest assign
    have hcycle4 (y : MoveId) : g4.cycleOf y = if y = n then some c else s.graph.cycleOf y := by
      rw [hp4.cycleOf]
      split
      · rfl
      · rename_i hyn
        rw [hcycle3, if_neg hyn]
    refine ⟨_, ⟨.tail (.single hbypass) (.keep hn), rfl⟩, rfl, .inr (.inl ⟨rfl, ?_, hl.loose, fun x hx => ?_, fun x hx hop => ?_⟩)⟩
    · exact .cons hn (.placed (Bypasser.source_mem_keep rfl) hnonneg hsmall rfl)
        (hl.opens.mono fun _ => Bypasser.mem_keep)
    · rw [hcycle4]
      split
      · simp
      · exact hl.placed.operands x hx
    · rw [hcycle4, if_neg (by rintro rfl; exact hop hn)]
      exact hl.placed.results x hx hop

end RegionM

/-- A trigger among the operands. -/
def Job.Triggers (j : Job) (g₀ : Graph) (t : MoveId) : Prop :=
  t ∈ j.operands ∧ ∃ m₀, g₀.move? t = some m₀ ∧ m₀.isTrigger

theorem Upheld.isTrigger (h : Upheld machine g0 g)
    (hm : g.move? x = some m) (hm0 : g0.move? x = some m0) : m.isTrigger = m0.isTrigger := by
  have hfixed := of_some (h.framed.move? hm0) hm
  exact congrArg Move.Fixed.trigger hfixed

namespace RegionM

/-- The operands are bypassed one by one, up to the first failure. -/
theorem leads_bypassOperands {t : Option MoveId} (hfit : j.Fits g0)
    (hway : j.way = .topDown) (hs : Underway j g0 s) (hl : s.Loaded j) (hon : s.bypasser.isEnabled)
    (hns : ∀ n ∈ ns, n ∈ j.operands) (hdone : done = [] → s.opened = []) (ht : ∀ n, t = some n → j.Triggers g0 n) :
    Brings j s (bypassOperands ns done t) fun x s' => (x = none ∧ s'.Broken j) ∨ ∃ done' t', x = some (done', t') ∧
      s'.Loaded j ∧ (done' = [] → s'.opened = []) ∧ ∀ n, t' = some n → j.Triggers g0 n := by
  induction ns generalizing s done t with
  | nil => exact .pure (.inr ⟨done, t, rfl, hl, hdone, ht⟩)
  | cons n ns ih =>
    have hrest : ∀ x ∈ ns, x ∈ j.operands := fun x hx => hns x (List.mem_cons_of_mem _ hx)
    refine .move fun m hm => .ite (fun _ => ih hs hl hon hrest hdone ht) fun _ => ?_
    have hmem := hns n List.mem_cons_self
    have ht' : ∀ x, (if m.isTrigger then some n else t) = some x → j.Triggers g0 x := by
      intro x hx
      split at hx
      · rename_i htrigger
        cases hx
        obtain ⟨m0, hm0, -⟩ := hfit.known (hfit.operands n hmem)
        exact ⟨hmem, m0, hm0, (hs.steady.upheld.isTrigger (move?_of_move hm) hm0).symm.trans htrigger⟩
      · exact ht x hx
    refine .bind (leads_bypassOperand hfit hway hs hl hon hmem) ?_
    rintro _ s1 hacts (⟨rfl, hsame⟩ | ⟨rfl, hl1⟩ | ⟨rfl, hbroken⟩)
    · exact ih (hs.acts hfit hacts) (hl.congr hsame) ((fixed_of_acts hacts).1 ▸ hon) hrest
        (fun hd => hsame.books.opened.trans (hdone hd)) ht'
    · exact ih (hs.acts hfit hacts) hl1 ((fixed_of_acts hacts).1 ▸ hon) hrest (by simp) ht'
    · exact .pure (.inl ⟨rfl, hbroken⟩)

end RegionM

/-- The operand `n` is in another cycle at most. -/
structure Moment.Shifts (s s' : Moment) (n : MoveId) : Prop where
  books : s.SameBooks s'
  self : s'.graph.cycleOf n ≠ none
  other {y : MoveId} : y ≠ n → s'.graph.cycleOf y = s.graph.cycleOf y

theorem Moment.shifts_of_assign {u u' : Usage} (hun : s.usage.unassign s.graph n = .ok (u, g))
    (ha : u.assign s.machine g c n = .ok (u', g')) : s.Shifts { s with usage := u', graph := g' } n := by
  obtain ⟨-, -, -, hoff⟩ := places_of_unassign hun
  obtain ⟨-, bus, -, -, hon⟩ := places_of_assign ha
  refine ⟨⟨rfl, rfl, rfl, rfl, rfl⟩, by simp [hon.cycleOf], fun {y} hy => ?_⟩
  rw [hon.cycleOf, if_neg hy, hoff.cycleOf, if_neg hy]

theorem Moment.Loaded.shifts (h : s.Loaded j) (hs : s.Shifts s' n) (hn : n ∈ j.operands) : s'.Loaded j := by
  refine ⟨?_, hs.books.loose.trans h.loose, fun x hx => ?_, fun x hx hop => ?_⟩
  · rw [hs.books.bypasser, hs.books.opened]
    exact h.opens
  · by_cases hxn : x = n
    · exact hxn ▸ hs.self
    · rw [hs.other hxn]
      exact h.placed.operands x hx
  · rw [hs.other (by rintro rfl; exact hop hn)]
    exact h.placed.results x hx hop

namespace RegionM

variable {group : Group} {t : MoveId}

/-- A move goes to a cycle that its predecessors allow, not later than its own. -/
theorem moveUp_ok : Gives r (moveUp n) fun _ r' => ∃ old c u g u' g', r.graph.cycleOf n = some old ∧
    r.usage.unassign r.graph n = .ok (u, g) ∧ (c = old ∨ c ≤ old ∧ ∃ e, g.earliest n = .ok e ∧ e ≤ c) ∧
    u.assign r.machine g c n = .ok (u', g') ∧ r' = { r with usage := u', graph := g' } := by
  refine .move fun m hm => .lift fun old hold => Gives.unassign fun u1 g1 hunassign => ?_
  refine .look guardedEarliest_ok fun e he => .look earliestFit_ok fun fit hbound _ _ hassign => ?_
  obtain ⟨e', he', hle⟩ := he
  obtain ⟨u2, g2, ha, rfl⟩ := assign_ok hassign
  refine ⟨old, _, u1, g1, u2, g2, cycleOf_of_cycle hm hold, hunassign, ?_, ha, rfl⟩
  cases fit with
  | none => exact .inl rfl
  | some c =>
    have := (hbound c rfl).1
    dsimp only
    split
    · exact .inr ⟨by lia, e', he', by lia⟩
    · exact .inl rfl

theorem leads_moveUp (hway : j.way = .topDown) (hloose : s.loose = []) (hn : n ∈ j.operands) :
    Brings j s (moveUp n) fun _ s' => s.Shifts s' n := by
  intro _ _ h
  obtain ⟨old, c, u, g, u', g', hold, hun, hc, ha, rfl⟩ := moveUp_ok h
  exact .act (.advance hway hloose hn hold hun hc ha) (Moment.shifts_of_assign hun ha)

theorem lastOperandCycle_ok : Gives r (lastOperandCycle t group) fun x r' => r = r' ∧ ∀ last, x = some last →
    ∃ mt n m, r.graph.move? t = some mt ∧ n ∈ group ∧ r.graph.move? n = some m ∧ m.dstOp = mt.dstOp ∧
      m.cycle? = some last := by
  refine .move fun mt hmt => .look (.mapM fun _ _ _ h => (move_ok.1 h).symm) fun ms hmap => ?_
  refine .pure ⟨rfl, fun last hlast => ?_⟩
  obtain ⟨m, hm, hc⟩ := List.mem_filterMap.1 (List.max?_mem hlast)
  obtain ⟨hm, hkind⟩ := List.mem_filter.1 hm
  obtain ⟨n, hn, hmn⟩ := (mem_of_mapM_eq_ok hmap).1 hm
  simp only [Bool.and_eq_true, decide_eq_true_eq] at hkind
  exact ⟨mt, n, m, move?_of_move hmt, (List.mem_filter.1 hn).1, move?_of_move hmn, hkind.2, hc⟩

theorem leads_settleTrigger (hway : j.way = .topDown) (hloose : s.loose = [])
    (hs : Steady j g0 s) (ht : j.Triggers g0 t) :
    Brings j s (settleTrigger t j.operands) fun _ s' => s.SamePlaces s' ∨ s.Shifts s' t := by
  refine .look lastOperandCycle_ok fun x hlast => .move fun m hm => .lift fun old hold => ?_
  cases x with
  | none => exact .pure (.inl .refl)
  | some last =>
    refine .ite (fun hlt => Gives.unassign fun u1 g1 hunassign => ?_) fun _ => .pure (.inl .refl)
    refine .ask fun e _ => .look earliestFit_ok fun fit hbound _ _ hassign => ?_
    obtain ⟨u2, g2, ha, rfl⟩ := assign_ok hassign
    obtain ⟨mt, n, mn, hmt, hn, hmn, hop, hc⟩ := hlast last rfl
    rw [move?_of_move hm] at hmt
    cases hmt
    obtain ⟨hmem, m0, hm0, htrigger⟩ := ht
    have hwas : m.cycle? = some old := by
      simpa [Graph.cycleOf, move?_of_move hm] using cycleOf_of_cycle hm hold
    have hcycle : fit.getD old = old ∨ 0 ≤ fit.getD old ∧ fit.getD old < 2147483648 := by
      cases fit with
      | none => exact .inl rfl
      | some c => exact .inr (hbound c rfl).2
    exact .act (.settle hway hloose hmem (move?_of_move hm)
      ((hs.upheld.isTrigger (move?_of_move hm) hm0).trans htrigger) hwas hn hmn hop hc hlt hunassign hcycle ha)
      (.inr (Moment.shifts_of_assign hunassign ha))

theorem unbypassed_ok {t : Option MoveId} :
    Gives r (unbypassed group done t) fun ns r' => r = r' ∧ ∀ n ∈ ns, n ∈ group ∨ t = some n := by
  refine .look (.filterM fun _ => .of_move) fun rest hfilter => .pure ⟨rfl, fun n hn => ?_⟩
  rcases List.mem_append.1 hn with hn | hn
  · exact .inl ((mem_of_filterM_eq_ok hfilter).1 hn).1
  · exact .inr (by simpa using (List.mem_filter.1 hn).1)

theorem anyM_isControlFlow_ok : Gives r (ns.anyM isControlFlow) fun _ r' => r = r' :=
  .mono (.anyM fun _ => .of_move) fun _ _ => And.left

/-- The operands of the unit are bypassed, and move up then; or nothing happens; or a bypass fails. -/
theorem leads_bypass (hfit : j.Fits g0) (hway : j.way = .topDown) (hs : Underway j g0 s)
    (hl : s.Loaded j) (hopened : s.opened = []) : Brings j s (bypass j.operands) fun x s' =>
      (x = .unchanged ∧ s'.Loaded j ∧ s'.opened = []) ∨ (∃ k, x = .bypassed k ∧ 0 < k ∧ s'.Loaded j) ∨
      (x = .needsFallback ∧ s'.Broken j) := by
  refine .bypasser (.ite (fun hon => ?_) fun _ => .pure (.inl ⟨rfl, hl, hopened⟩))
  refine .skip anyM_isControlFlow_ok fun flow => .ite (fun _ => .pure (.inl ⟨rfl, hl, hopened⟩)) fun _ => ?_
  refine .bind (leads_bypassOperands hfit hway hs hl hon (fun _ => id) (fun _ => hopened) (by simp)) ?_
  rintro _ s2 hacts2 (⟨rfl, hbroken⟩ | ⟨done, t, rfl, hl2, hdone, ht⟩)
  · exact .pure (.inr (.inr ⟨rfl, hbroken⟩))
  refine .ite (fun hempty => .pure (.inl ⟨rfl, hl2, hdone (List.isEmpty_iff.1 hempty)⟩)) fun hsome => ?_
  have hcount : 0 < done.length := List.length_pos_iff.2 (by simpa using hsome)
  have hs2 := hs.acts hfit hacts2
  refine .look unbypassed_ok fun ns hmem => .bind (P := fun _ s' => s'.Loaded j) ?_ fun _ s4 hacts4 hl4 => ?_
  · refine .mono (.forM (I := fun ns s' => (∀ n ∈ ns, n ∈ j.operands) ∧ s'.Loaded j) (fun n ns s' hI => ?_)
      ⟨fun n hn => (hmem n hn).elim id fun hn => (ht n hn).1, hl2⟩) fun _ _ _ h => h.2
    exact (leads_moveUp hway hI.2.loose (hI.1 n List.mem_cons_self)).mono fun _ s'' _ hshift =>
      ⟨fun x hx => hI.1 x (List.mem_cons_of_mem _ hx), hI.2.shifts hshift (hI.1 n List.mem_cons_self)⟩
  cases t with
  | none => exact .pure (.inr (.inl ⟨_, rfl, hcount, hl4⟩))
  | some t =>
    refine .bind (leads_settleTrigger hway hl4.loose (hs2.acts hfit hacts4).steady (ht t rfl)) fun _ s5 _ hpost => ?_
    refine .pure (.inr (.inl ⟨_, rfl, hcount, ?_⟩))
    exact hpost.elim hl4.congr fun hshift => hl4.shifts hshift (ht t rfl).1

end RegionM

/-- Nothing of the unit is placed or open. -/
structure Moment.Cleared (j : Job) (s : Moment) : Prop where
  opened : s.opened = []
  loose : s.loose = []
  log : ∀ b ∈ s.bypasser.log, b.dest ∉ j.operands
  idle : s.Idle j

theorem Moment.Cleared.loaded (h : s.Cleared j) (hbooks : s.SameBooks s') (hp : s'.Placed j) :
    s'.Loaded j ∧ s'.opened = [] := by
  have hopened : s'.opened = [] := hbooks.opened.trans h.opened
  refine ⟨⟨?_, hbooks.loose.trans h.loose, hp⟩, hopened⟩
  rw [hopened, hbooks.bypasser]
  exact .closed h.log

theorem Moment.Cleared.idle_again (h : s.Cleared j) (hbooks : s.SameBooks s') (hi : s'.Idle j) :
    s'.Cleared j :=
  ⟨hbooks.opened.trans h.opened, hbooks.loose.trans h.loose, hbooks.bypasser ▸ h.log, hi⟩

theorem Moment.Unbypassed.cleared (h : s.Unbypassed j s') (hway : j.way = .topDown) (hs : Steady j g0 s)
    (hresults : ∀ n ∈ j.moves, n ∉ j.operands → s.graph.cycleOf n = none) : s'.Cleared j := by
  refine ⟨h.opened, ?_, fun b hb => (h.log b hb).1, fun n hn => ?_⟩
  · refine List.eq_nil_iff_forall_not_mem.2 fun n hn => ?_
    have hgone := (h.loose n hn).1
    rw [hs.gone_eq_nil hway] at hgone
    cases hgone
  by_cases hop : n ∈ j.operands
  · exact h.off n hop
  · rw [h.cycle hop]
    exact hresults n hn hop

theorem Moment.Quiet.cleared (h : s.Quiet s') (hc : s.Cleared j) : s'.Cleared j :=
  hc.idle_again h.sameBooks fun n hn => (h.cycleOf n).trans (hc.idle n hn)

namespace RegionM

theorem leads_bypassPlaced {bypassing : Bool} (hfit : j.Fits g0) (hway : j.way = .topDown)
    (hs : Underway j g0 s) (hl : s.Loaded j) (hopened : s.opened = []) :
    Brings j s (bypassPlaced j.operands bypassing) fun x s' => (x = none ∧ s'.Cleared j) ∨
      ∃ k, x = some k ∧ s'.Loaded j ∧ (k = 0 → s'.opened = []) := by
  refine .ite (fun _ => ?_) fun _ => .pure (.inr ⟨0, rfl, hl, fun _ => hopened⟩)
  refine .bind (leads_bypass hfit hway hs hl hopened) ?_
  rintro _ s1 hacts (⟨rfl, hl1, hopened1⟩ | ⟨k, rfl, hk, hl1⟩ | ⟨rfl, hbroken⟩)
  · exact .pure (.inr ⟨0, rfl, hl1, fun _ => hopened1⟩)
  · exact .pure (.inr ⟨k, rfl, hl1, by omega⟩)
  · have hs1 := hs.acts hfit hacts
    refine .bind (leads_unbypass hfit hs1 hbroken.opens hbroken.loose) fun _ s2 _ hpost => ?_
    refine .bind leads_count fun _ s3 _ hq => .pure (.inl ⟨rfl, hq.cleared ?_⟩)
    exact hpost.cleared hway hs1.steady hbroken.results

end RegionM

/-! ## Results -/

namespace RegionM

theorem forcedOperand?_ok {operands : List MoveId} : Gives r (forcedOperand? operands) fun x r' =>
    r = r' ∧ (x = none → ∀ n ∈ operands, ∀ m,
      r.graph.move? n = some m → m.src.reg?.any r.graph.isForced = false) := by
  refine .mono (.findM? fun n => .graph .of_move) ?_
  rintro _ _ ⟨rfl, hfind⟩
  refine ⟨rfl, ?_⟩
  rintro rfl n hn m hm
  exact pure_eq_ok.1 (of_move_bind hm (findM?_eq_none hfind n hn))

theorem leads_rejectForced : Brings j s (rejectForced j.operands) fun _ s' => s' = { s with checked := true } := by
  refine .look forcedOperand?_ok fun x hfree => ?_
  cases x with
  | none => exact .after (.check (hfree rfl)) rfl (.pure rfl)
  | some n => exact Gives.bind fun _ _ _ => .bind fun _ _ _ => .raise

theorem leads_placeResultsEarly (hfit : j.Fits g0) (hway : j.way = .topDown) (hs : Steady j g0 s)
    (hloose : s.loose = [])
    (hns : ∀ n ∈ ns, n ∈ j.moves ∧ n ∉ j.operands ∧ s.graph.cycleOf n = none)
    (hsorted : ns.Pairwise fun n n' => n.val < n'.val)
    (hdone : ∀ x ∈ j.moves, x ∉ j.operands → s.graph.cycleOf x ≠ none → ∀ n ∈ ns, x.val < n.val) :
    Brings j s (placeResultsEarly ns) fun ok s' => s.Fills s' ns ok := by
  induction ns generalizing s with
  | nil => exact .pure ⟨.refl, fun _ => rfl, by simp⟩
  | cons n ns ih =>
    obtain ⟨hfirst, hsorted⟩ := List.pairwise_cons.1 hsorted
    obtain ⟨hmem, hres, hoff⟩ := hns n List.mem_cons_self
    have horder : j.InOrder s.graph n := hfit.inOrder_result hs.upheld hmem hres fun x hx hop hp =>
      hdone x hx hop hp n List.mem_cons_self
    have hmay : s.MayRename j n := ⟨hmem, hres, hoff, by simp [hway], hloose, fun _ => horder⟩
    refine .bind (hway ▸ leads_renameIfUseful hs hmay) fun _ s1 hacts1 hsame => ?_
    have hs1 := hs.acts hacts1
    have horder1 : j.InOrder s1.graph n := hfit.inOrder_result hs1.upheld hmem hres fun x hx hop hp =>
      hdone x hx hop (hsame.cycle x ▸ hp) n List.mem_cons_self
    refine .bind (leads_placeEarly hway hmem horder1) fun x s2 hacts2 hput => ?_
    have hbooks := hsame.books.trans hput.books
    cases x with
    | none => exact .pure (hsame.fills hput.fills)
    | some c =>
      have hcycle (y : MoveId) : s2.graph.cycleOf y = if y = n then some c else s.graph.cycleOf y := by
        rw [hput.cycle_some, hsame.cycle]
      refine (ih (hs1.acts hacts2) (hbooks.loose.trans hloose) (fun x hxns => ?_) hsorted ?_).mono ?_
      · obtain ⟨hxm, hxr, hxo⟩ := hns x (List.mem_cons_of_mem _ hxns)
        refine ⟨hxm, hxr, ?_⟩
        rw [hcycle, if_neg]
        · exact hxo
        · rintro rfl
          exact absurd (hfirst x hxns) (Nat.lt_irrefl _)
      · intro x hx hop hp n' hn'
        rw [hcycle] at hp
        by_cases hxn : x = n
        · exact hxn ▸ hfirst n' hn'
        · exact hdone x hx hop (by simpa [hxn] using hp) n' (List.mem_cons_of_mem _ hn')
      · exact fun _ _ _ hfill => hsame.fills (hfill.cons hput)

end RegionM

/-! ## The whole operation -/

namespace RegionM

variable {options : Options} {unit results : List MoveId} {start first horizon : Cycle} {bypassing b : Bool}
  {operands : List MoveId}

section

variable (hfit : j.Fits g0) (hway : j.way = .topDown) (hs : Underway j g0 s)
include hfit hway hs

theorem leads_finishEarly {bypassed : Nat} (hl : s.Loaded j) (hchecked : s.checked) (hopened : bypassed = 0 → s.opened = [])
    (hres : ∀ n, n ∈ results ↔ n ∈ j.moves ∧ n ∉ j.operands)
    (hsorted : results.Pairwise fun n n' => n.val < n'.val) :
    Brings j s (finishEarly options unit j.operands results start first bypassing bypassed) fun x s' =>
      (x = .done ∧ s'.Finished j) ∨ (x ≠ .done ∧ s'.Cleared j) := by
  refine .bind (leads_placeResultsEarly hfit hway hs.steady hl.loose (fun n hn => ?_) hsorted fun x hx hop hp => ?_)
    fun ok s1 hacts1 hfill => ?_
  · obtain ⟨hn, hop⟩ := (hres n).1 hn
    exact ⟨hn, hop, hl.placed.results n hn hop⟩
  · exact absurd (hl.placed.results x hx hop) hp
  have hs1 := hs.acts hfit hacts1
  refine .ite (fun hok => ?_) fun _ => ?_
  · have hfin : s1.Finished j := by
      refine ⟨?_, hfill.books.loose.trans hl.loose, .inr (hfill.books.checked.trans hchecked), fun n hn => ?_⟩
      · rw [hfill.books.bypasser, hfill.books.opened]
        exact hl.opens
      · by_cases hop : n ∈ j.operands
        · rw [hfill.other fun hmem => ((hres n).1 hmem).2 hop]
          exact hl.placed.operands n hop
        · exact hfill.all hok n ((hres n).2 ⟨hn, hop⟩)
    refine .bind leads_count fun _ s2 _ hq => .ite (fun _ => ?_) fun _ => .pure (.inl ⟨rfl, hq.finished hfin⟩)
    exact .bind leads_note fun _ s3 _ hq' => .pure (.inl ⟨rfl, hq'.finished (hq.finished hfin)⟩)
  · refine .bind (leads_unassignAll_early hfit hway hs1 fun n hn => ((hres n).1 hn).1) ?_
    rintro _ s2 hacts2 ⟨hbooks2, hnone, hkept⟩
    have hs2 := hs1.acts hfit hacts2
    refine .bind leads_count fun _ s3 hacts3 hq => ?_
    have hs3 := hs2.acts hfit hacts3
    have hbooks : s.SameBooks s3 := (hfill.books.trans hbooks2).trans hq.sameBooks
    have hresults : ∀ n ∈ j.moves, n ∉ j.operands → s3.graph.cycleOf n = none := fun n hn hop => by
      rw [hq.cycleOf]
      exact hnone n ((hres n).2 ⟨hn, hop⟩)
    refine .ite (fun _ => ?_) fun hzero => ?_
    · have hopens : Opens j.operands s.bypasser.deadCandidates s3.bypasser.log s3.opened := by
        rw [hbooks.bypasser, hbooks.opened]
        exact hl.opens
      refine .bind (leads_unbypass hfit hs3 hopens ?_) fun _ s4 _ hpost =>
        .pure (.inr ⟨by simp, hpost.cleared hway hs3.steady hresults⟩)
      simp [hbooks.loose.trans hl.loose]
    · refine .bind (leads_unassignAll_early hfit hway hs3 hfit.operands) ?_
      rintro _ s4 - ⟨hbooks4, hnone4, hkept4⟩
      have hempty : s.opened = [] := hopened (by omega)
      have hlog : ∀ b ∈ s4.bypasser.log, b.dest ∉ j.operands := by
        rw [hbooks4.bypasser, hbooks.bypasser]
        exact (hempty ▸ hl.opens).not_mem
      refine .lift fun c _ => .pure (.inr ⟨by simp, hbooks4.opened.trans (hbooks.opened.trans hempty),
        hbooks4.loose.trans (hbooks.loose.trans hl.loose), hlog, fun n hn => ?_⟩)
      by_cases hop : n ∈ j.operands
      · exact hnone4 n hop
      · rw [hkept4 n hop]
        exact hresults n hn hop

section

variable (hc : s.Cleared j) (hres : ∀ n, n ∈ results ↔ n ∈ j.moves ∧ n ∉ j.operands)
  (hsorted : results.Pairwise fun n n' => n.val < n'.val)
include hc hres hsorted

theorem leads_tryEarly : Brings j s (tryEarly options unit j.operands results start bypassing) fun x s' =>
    (x = .done ∧ s'.Finished j) ∨ (x ≠ .done ∧ s'.Cleared j) := by
  refine .bind (leads_placeOperands hfit hway hs hc.idle) ?_
  rintro y s1 hacts1 ⟨hbooks, hpost⟩
  have hs1 := hs.acts hfit hacts1
  cases y with
  | none =>
    have hidle : s1.Idle j := (hpost.resolve_right (by simp)).2
    exact .bind leads_count fun _ s2 _ hq => .pure (.inr ⟨by simp, hq.cleared (hc.idle_again hbooks hidle)⟩)
  | some first =>
    obtain ⟨hl, hopened⟩ := hc.loaded hbooks (hpost.resolve_left (by simp)).2
    refine .bind (leads_bypassPlaced hfit hway hs1 hl hopened) ?_
    rintro _ s2 hacts2 (⟨rfl, hc2⟩ | ⟨k, rfl, hl2, hopened2⟩)
    · exact .pure (.inr ⟨by simp, hc2⟩)
    · have hs2 := hs1.acts hfit hacts2
      refine .bind leads_rejectForced ?_
      rintro _ s3 hacts3 rfl
      exact leads_finishEarly hfit hway (hs2.acts hfit hacts3) ⟨hl2.opens, hl2.loose, hl2.placed.operands, hl2.placed.results⟩
        rfl hopened2 hres hsorted

theorem leads_retryEarly {fuel : Nat} :
    Brings j s (retryEarly options unit j.operands results horizon fuel start bypassing) fun ok s' =>
      ok = true → s'.Finished j := by
  induction fuel generalizing s start bypassing with
  | zero => exact .pure (by simp)
  | succ fuel ih =>
    refine .ite (fun _ => .pure (by simp)) fun _ => .bind (leads_tryEarly hfit hway hs hc hres hsorted) ?_
    rintro x s1 hacts (⟨rfl, hfin⟩ | ⟨hne, hc1⟩)
    · exact .pure fun _ => hfin
    · cases x with
      | done => exact absurd rfl hne
      | again start' bypassing' => exact ih (hs.acts hfit hacts) hc1

end

end

theorem operandsAndResults_ok : Gives r (operandsAndResults unit) fun x r' =>
    r = r' ∧ x.1.Sublist unit ∧ x.2.Sublist unit ∧
      (∀ n ∈ unit, ∃ m, r.graph.move? n = some m ∧ (n ∈ x.1 ↔ m.isOperand) ∧ (n ∈ x.2 ↔ ¬ m.isOperand)) := by
  refine .look (.filterM fun _ => .of_move) fun os hops => .look (.filterM fun _ => .of_move) fun rs hresults => ?_
  refine .pure ⟨rfl, sublist_of_filterM_eq_ok hops, sublist_of_filterM_eq_ok hresults, fun n hn => ?_⟩
  obtain ⟨b, hb⟩ := ok_of_filterM_eq_ok hops hn
  obtain ⟨m, hm, -⟩ := bind_eq_ok.1 hb
  refine ⟨m, move?_of_move hm, ?_, ?_⟩
  · rw [mem_of_filterM_eq_ok hops]
    simp [hn, hm]
  · rw [mem_of_filterM_eq_ok hresults]
    simp [hn, hm]

/-- A unit that waits to be placed makes a job, with its operands and its results. -/
theorem fits_of_operandsAndResults (hu : Upheld r.machine g0 r.graph)
    (hw : r.graph.Awaits unit) (h : operandsAndResults unit r = .ok (operands, results) r') (way : Direction) :
    Job.Fits ⟨way, unit, operands⟩ g0 ∧ (∀ n, n ∈ results ↔ n ∈ unit ∧ n ∉ operands) := by
  obtain ⟨-, hsubo, hsubr, hkinds⟩ := operandsAndResults_ok h
  refine ⟨⟨fun n hn => hsubo.subset hn, fun {n} hn => ?_, hw.sorted⟩, fun n => ⟨fun hn => ?_, ?_⟩⟩
  · obtain ⟨m, hm, hop, -⟩ := hkinds n hn
    obtain ⟨m0, hm0, -⟩ := hu.framed.symm.move? hm
    exact ⟨m0, hm0, by rw [hop, hu.isOperand hm hm0]⟩
  · obtain ⟨m, -, hop, hr⟩ := hkinds n (hsubr.subset hn)
    exact ⟨hsubr.subset hn, fun ho => hr.1 hn (hop.1 ho)⟩
  · rintro ⟨hn, ho⟩
    obtain ⟨m, -, hop, hr⟩ := hkinds n hn
    exact hr.2 (mt hop.2 ho)

theorem cleared_of_awaits (hfit : j.Fits g0) (hw : r.graph.Awaits j.moves)
    (hlog : ∀ b ∈ r.bypasser.log, r.graph.cycleOf b.dest ≠ none) :
    Moment.Cleared j { toRegion := r } :=
  ⟨rfl, rfl, fun b hb hmem => hlog b hb (hw.off _ (hfit.operands _ hmem)), hw.off⟩

/-- Placing an operation top-down comes to acts, after which all of it is placed. -/
theorem leads_placeOperationEarly {u : Unit} (hu : Upheld r.machine g0 r.graph) (hw : r.graph.Awaits unit)
    (hlog : ∀ b ∈ r.bypasser.log, r.graph.cycleOf b.dest ≠ none)
    (h : placeOperationEarly options unit r = .ok u r') :
    ∃ j : Job, j.way = .topDown ∧ j.moves = unit ∧ j.Fits g0 ∧
      Leads j { toRegion := r } r' fun s' => s'.Settled j := by
  obtain ⟨⟨operands, results⟩, _, hsplit, h⟩ := run_bind_ok.1 h
  obtain ⟨hfit, hres⟩ := fits_of_operandsAndResults hu hw hsplit .topDown
  obtain ⟨rfl, -, hsubr, -⟩ := operandsAndResults_ok hsplit
  refine ⟨⟨.topDown, unit, operands⟩, rfl, rfl, hfit, ?_⟩
  refine (?_ : Brings ⟨.topDown, unit, operands⟩ { toRegion := r } _ fun _ s' => s'.Settled _) h
  refine .bind leads_count fun _ s1 hacts hq => .bypasser (.get (.lift fun horizon _ => ?_))
  refine .bind (leads_retryEarly hfit rfl ((Underway.start hu hw).acts hfit hacts)
    (hq.cleared (cleared_of_awaits hfit hw hlog)) hres (hw.sorted.sublist hsubr)) fun ok s2 _ hfin => ?_
  exact .ite (fun hok => (hfin hok).brings) fun _ => .raise

end RegionM

end Transport
