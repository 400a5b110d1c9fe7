import Transport.Proofs.Scheduling.Runs

/-!
# Taking bypasses back

The bypasser logs its bypasses, the acts keep the open ones as frames: `Opens` says that the two tell
the same story. So taking back the bypasses of a unit closes all that is open, and leaves no operand of
the unit in a cycle.
-/

namespace Transport

open Transport.Graph

variable {j : Job} {g0 g : Graph} {s s' : Moment} {r r' : Region} {n : MoveId}
  {operands dead dead' : List MoveId} {log : List Bypass} {fs : List Frame} {source dest : MoveId}
  {edges : EdgeRecord} {red : Redirection} {e : Bypass} {b : Bypasser}

/-- The unit is made of moves of the graph, in order of their identifiers. -/
structure Job.Fits (j : Job) (g₀ : Graph) : Prop where
  operands : ∀ n ∈ j.operands, n ∈ j.moves
  known {n : MoveId} : n ∈ j.moves → ∃ m, g₀.move? n = some m ∧ (n ∈ j.operands ↔ m.isOperand)
  sorted : j.moves.Pairwise fun n n' => n.val < n'.val

/-- The unit is being placed: what is open can be taken back, and its operands are there. -/
structure Underway (j : Job) (g₀ : Graph) (s : Moment) : Prop where
  steady : Steady j g₀ s
  has {n : MoveId} : n ∈ j.moves → n ∈ j.operands ∨ j.way = .topDown → s.graph.Has n
  gone : ∀ n ∈ s.opened.filterMap Frame.gone?, n ∈ j.moves ∨ s.graph.cycleOf n = none

theorem Underway.acts (h : Underway j g0 s) (hfit : j.Fits g0) (ha : Acts j s s') : Underway j g0 s' := by
  refine ⟨h.steady.acts ha, fun hn hstay => ?_, h.steady.gone hfit.operands ha h.gone⟩
  obtain ⟨m0, hm0, hop⟩ := hfit.known hn
  exact h.steady.has ha hm0 (hstay.imp_left hop.1) (h.has hn hstay)

/-- The moves of a unit that is about to be placed: in the graph, without a place, in order. -/
structure Graph.Awaits (g : Graph) (ns : List MoveId) : Prop where
  has : ∀ n ∈ ns, g.Has n
  off : ∀ n ∈ ns, g.cycleOf n = none
  sorted : ns.Pairwise fun n n' => n.val < n'.val

/-- Nothing is open when a unit is begun. -/
theorem Underway.start (hu : Upheld r.machine g0 r.graph) (hw : r.graph.Awaits j.moves) :
    Underway j g0 { toRegion := r } :=
  ⟨⟨hu, fun hf => (nomatch hf), .nil⟩, fun hn _ => hw.has _ hn, fun _ hn => (nomatch hn)⟩

/-- Top-down, no move is taken out. -/
theorem Steady.gone_eq_nil (h : Steady j g0 s) (hway : j.way = .topDown) :
    s.opened.filterMap Frame.gone? = [] := by
  refine List.filterMap_eq_nil_iff.2 fun f hf => ?_
  cases f with
  | merged => rfl
  | removed rm => exact absurd (hway.symm.trans (h.frames (f := .removed rm) hf).2) (by decide)

/-- Whatever is done for a unit, only its own operands come into the log. -/
theorem log_of_acts (h : Acts j s s') {b : Bypass} (hb : b ∈ s'.bypasser.log) :
    b ∈ s.bypasser.log ∨ b.dest ∈ j.operands := by
  induction h with
  | refl => exact .inl hb
  | tail _ hact ih =>
    cases hact with
    | keep mem =>
      rcases List.mem_cons.1 hb with rfl | hb
      · exact .inr mem
      · exact ih hb
    | forget => exact ih (List.mem_filter.1 hb).1
    | _ => exact ih hb

theorem Graph.Has.cycleOf (h : g.Has n) (hoff : ∀ m, g.move? n = some m → m.live → m.placement = none) :
    g.cycleOf n = none := by
  obtain ⟨m, hm, hlive⟩ := h
  simp [Graph.cycleOf, hm, Move.cycle?, hoff m hm hlive]

theorem Bypasser.source_mem_keep (h : e.sourceRemoved = false) : e.source ∈ (b.keep e).deadCandidates := by
  simp only [keep, h, Bool.false_or]
  split
  · rename_i hmem
    simpa using hmem
  · simp

/-! ## The log and the frames -/

/-- What is open for one bypass. Its producer is among `dead`, unless it has been taken out. -/
inductive Bypass.Open (dead : List MoveId) (b : Bypass) : List Frame → Prop
  | placed {edges : EdgeRecord} {red : Redirection} {c : Cycle} (dies : b.source ∈ dead) (nonneg : 0 ≤ c)
      (small : c < 2147483648) (steps : b.steps = [.mk [] (.assigned b.dest) [],
        RegionM.mergeSteps edges red, .mk [] (.unassigned b.dest c) []]) :
      b.Open dead [.merged b.source b.dest edges red]
  | pending {edges : EdgeRecord} {red : Redirection} (dies : b.source ∈ dead)
      (steps : b.steps = [RegionM.mergeSteps edges red]) : b.Open dead [.merged b.source b.dest edges red]
  | dropped {edges : EdgeRecord} {red : Redirection} {rm : RemovedMove} (gone : rm.move = b.source)
      (steps : b.steps = [.mk [] (.deadRemoved rm none) [], RegionM.mergeSteps edges red]) :
      b.Open dead [.removed rm, .merged b.source b.dest edges red]

/-- What is open for the bypasses into `operands`, newest first. -/
inductive Opens (operands dead : List MoveId) : List Bypass → List Frame → Prop
  | nil : Opens operands dead [] []
  | other {b : Bypass} {log : List Bypass} {fs : List Frame} (other : b.dest ∉ operands)
      (rest : Opens operands dead log fs) : Opens operands dead (b :: log) fs
  | cons {b : Bypass} {log : List Bypass} {fs fs' : List Frame} (mem : b.dest ∈ operands)
      (first : b.Open dead fs) (rest : Opens operands dead log fs') : Opens operands dead (b :: log) (fs ++ fs')

namespace Bypass.Open

variable {b : Bypass}

theorem mono (h : b.Open dead fs) (hsub : ∀ n ∈ dead, n ∈ dead') : b.Open dead' fs := by
  cases h with
  | placed dies nonneg small steps => exact .placed (hsub _ dies) nonneg small steps
  | pending dies steps => exact .pending (hsub _ dies) steps
  | dropped gone steps => exact .dropped gone steps

theorem dest_eq (h : b.Open dead fs) {f : Frame} (hf : f ∈ fs) (hd : f.dest? = some n) : b.dest = n := by
  cases h <;> simp only [List.mem_cons, List.not_mem_nil, or_false] at hf
  · simpa [hf, Frame.dest?] using hd
  · simpa [hf, Frame.dest?] using hd
  · rcases hf with rfl | rfl
    · cases hd
    · simpa [Frame.dest?] using hd

/-- The producer of a bypass is a candidate for removal, or out already. -/
theorem kept (h : b.Open dead fs) (hf : .merged source dest edges red ∈ fs) :
    source ∈ dead ∨ ∃ rm, .removed rm ∈ fs ∧ rm.move = source := by
  cases h with
  | placed dies =>
    cases List.mem_singleton.1 hf
    exact .inl dies
  | pending dies =>
    cases List.mem_singleton.1 hf
    exact .inl dies
  | @dropped _ _ rm gone _ =>
    rcases List.mem_cons.1 hf with hf | hf
    · cases hf
    · cases List.mem_singleton.1 hf
      exact .inr ⟨rm, List.mem_cons_self, gone⟩

end Bypass.Open

namespace Opens

theorem mono (h : Opens operands dead log fs) (hsub : ∀ n ∈ dead, n ∈ dead') :
    Opens operands dead' log fs := by
  induction h with
  | nil => exact .nil
  | other other _ ih => exact .other other ih
  | cons mem first _ ih => exact .cons mem (first.mono hsub) ih

theorem closed (h : ∀ b ∈ log, b.dest ∉ operands) : Opens operands dead log [] := by
  induction log with
  | nil => exact .nil
  | cons b log ih =>
    exact .other (h b List.mem_cons_self) (ih fun b' hb' => h b' (List.mem_cons_of_mem _ hb'))

theorem not_mem (h : Opens operands dead log []) : ∀ b ∈ log, b.dest ∉ operands := by
  generalize hfs : ([] : List Frame) = fs at h
  induction h with
  | nil => simp
  | other other _ ih => exact List.forall_mem_cons.2 ⟨other, ih hfs⟩
  | cons _ first => cases first <;> cases hfs

theorem dest_mem (h : Opens operands dead log fs) {f : Frame} (hf : f ∈ fs) (hd : f.dest? = some n) :
    n ∈ operands := by
  induction h with
  | nil => cases hf
  | other _ _ ih => exact ih hf
  | cons mem first _ ih =>
    rcases List.mem_append.1 hf with hf | hf
    · exact first.dest_eq hf hd ▸ mem
    · exact ih hf

theorem kept (h : Opens operands dead log fs) (hf : .merged source dest edges red ∈ fs) :
    source ∈ dead ∨ ∃ rm, .removed rm ∈ fs ∧ rm.move = source := by
  have hsub {fs1 fs2 : List Frame} (hsub : ∀ f ∈ fs1, f ∈ fs2)
      (h : source ∈ dead ∨ ∃ rm, .removed rm ∈ fs1 ∧ rm.move = source) :
      source ∈ dead ∨ ∃ rm, .removed rm ∈ fs2 ∧ rm.move = source := by
    obtain h | ⟨rm, hrm, hmove⟩ := h
    · exact .inl h
    · exact .inr ⟨rm, hsub _ hrm, hmove⟩
  induction h with
  | nil => cases hf
  | other _ _ ih => exact ih hf
  | cons _ first _ ih =>
    rcases List.mem_append.1 hf with hf | hf
    · exact hsub (fun _ => List.mem_append_left _) (first.kept hf)
    · exact hsub (fun _ => List.mem_append_right _) (ih hf)

end Opens

/-! ## The end of a unit -/

/-- All of the unit is placed. -/
structure Moment.Finished (j : Job) (s : Moment) : Prop where
  opens : Opens j.operands s.bypasser.deadCandidates s.bypasser.log s.opened
  loose : s.loose = []
  checked : j.operands = [] ∨ s.checked
  placed : ∀ n ∈ j.moves, s.graph.cycleOf n ≠ none

theorem Moment.Quiet.finished (h : s.Quiet s') (hf : s.Finished j) : s'.Finished j := by
  refine ⟨?_, h.loose.trans hf.loose, hf.checked.imp_right h.checked.trans, fun n hn => ?_⟩
  · rw [h.bypasser, h.opened]
    exact hf.opens
  · rw [h.cycleOf]
    exact hf.placed n hn

/-- The unit is placed for good. -/
structure Moment.Settled (j : Job) (s : Moment) : Prop where
  opened : s.opened = []
  loose : s.loose = []
  checked : j.operands = [] ∨ s.checked
  placed : ∀ n ∈ j.moves, s.graph.cycleOf n ≠ none

theorem Moment.Finished.brings {u : Unit} (h : s.Finished j) : Brings j s (pure u) fun _ s' => s'.Settled j := by
  refine .after (.commit h.loose h.checked (fun n hn => ?_) fun _ _ _ _ => h.opens.kept) rfl
    (.pure ⟨rfl, h.loose, h.checked, h.placed⟩)
  exact Option.ne_none_iff_exists'.1 (h.placed n hn)

/-! ## One bypass -/

/-- What was open on top is closed, and all else is as it was. -/
structure Moment.Pops (s s' : Moment) (f : Frame) (fs : List Frame) : Prop where
  machine : s'.machine = s.machine
  bypasser : s'.bypasser = s.bypasser
  opened : s'.opened = fs
  loose : s'.loose = f.gone?.toList ++ s.loose
  cycle (y : MoveId) : s'.graph.cycleOf y = s.graph.cycleOf y

namespace RegionM

variable {u : Unit}

theorem leads_undo_merge (hs : Steady j g0 s)
    (hopen : s.opened = .merged source dest edges red :: fs) (hoff : s.graph.cycleOf dest = none) :
    Brings j s (reversal.undo (mergeSteps edges red)) fun _ s' => s.Pops s' (.merged source dest edges red) fs := by
  intro _ _ h
  simp only [mergeSteps, Reversal.undo, Reversal.undoAll, reversal, revertChange, run_bind_ok, ask_ok,
    setGraph_ok, run_pure_ok] at h
  obtain ⟨_, _, ⟨_, _, ⟨_, _, ⟨-, rfl⟩, _, _, ⟨g1, _, ⟨hred, rfl⟩, rfl⟩, -, rfl⟩, -, rfl⟩, _, _,
    ⟨g2, _, ⟨hundo, rfl⟩, rfl⟩, -, rfl⟩ := h
  obtain ⟨⟨r, hback⟩, -⟩ := hs.frames (hopen ▸ List.mem_cons_self)
  exact .act (.unmerge hopen hoff hred hundo)
    ⟨rfl, rfl, rfl, rfl, (hback.samePresence_of_undo hred hundo).cycleOf⟩

theorem leads_undo_removed {rm : RemovedMove} (hs : Steady j g0 s) (hopen : s.opened = .removed rm :: fs) :
    Brings j s (reversal.undo (.mk [] (.deadRemoved rm none) [])) fun _ s' => s.Pops s' (.removed rm) fs := by
  intro _ _ h
  simp only [Reversal.undo, Reversal.undoAll, reversal, revertChange, run_bind_ok, ask_ok, setGraph_ok,
    run_pure_ok] at h
  obtain ⟨_, _, ⟨-, rfl⟩, _, _, ⟨g1, _, ⟨hrestore, rfl⟩, _, _, rfl, -, rfl⟩, -, rfl⟩ := h
  obtain ⟨hback, -⟩ := hs.frames (f := .removed rm) (hopen ▸ List.mem_cons_self)
  exact .act (.restore hopen hrestore) ⟨rfl, rfl, rfl, rfl, fun y =>
    cycleOf_of_presence (hback.presence_of_restore hrestore y)⟩

theorem undo_assigned_ok (hoff : r.graph.cycleOf n = none) :
    Gives r (reversal.undo (.mk [] (.assigned n) [])) fun _ r' => r = r' := by
  intro u r' h
  simp only [Reversal.undo, Reversal.undoAll, reversal, revertChange, run_bind_ok, ask_ok, isPlaced,
    bind_eq_ok, pure_eq_ok, run_pure_ok] at h
  obtain ⟨_, _, ⟨-, rfl⟩, _, _, ⟨_, _, ⟨⟨m, hm, rfl⟩, rfl⟩, h⟩, -, rfl⟩ := h
  have hnone : m.isPlaced = false := by
    simpa [Graph.cycleOf, move?_of_move hm, Move.cycle?, Move.isPlaced] using hoff
  simp only [hnone, Bool.false_eq_true, if_false] at h
  exact (run_pure_ok.1 h).2

theorem undo_unassigned_ok {c : Cycle}
    (h : reversal.undo (.mk [] (.unassigned n c) []) r = .ok u r') : assign n c r = .ok () r' := by
  simp only [Reversal.undo, Reversal.undoAll, reversal, revertChange, run_bind_ok, run_pure_ok] at h
  obtain ⟨_, _, ⟨-, rfl⟩, ⟨⟩, _, h, -, rfl⟩ := h
  exact h

end RegionM

theorem Moment.Pops.loose_eq (h : s.Pops s' (.merged source dest edges red) fs) : s'.loose = s.loose := h.loose

/-- A bypass into `n`, for which `fs` was open, is taken back. -/
structure Moment.Reverts (s s' : Moment) (n : MoveId) (fs fs' : List Frame) : Prop where
  machine : s'.machine = s.machine
  bypasser : s'.bypasser = s.bypasser
  opened : s'.opened = fs'
  loose : ∀ x ∈ s'.loose, x = n ∨ x ∈ fs.filterMap Frame.gone? ∨ x ∈ s.loose
  cycle {y : MoveId} : y ≠ n → s'.graph.cycleOf y = s.graph.cycleOf y

namespace RegionM

theorem leads_undoAll {b : Bypass} {fs' : List Frame} (hs : Steady j g0 s)
    (hb : b.Open dead fs) (hmem : b.dest ∈ j.operands) (hopen : s.opened = fs ++ fs')
    (hoff : s.graph.cycleOf b.dest = none) :
    Brings j s (reversal.undoAll b.steps) fun _ s' => s.Reverts s' b.dest fs fs' := by
  cases hb with
  | @placed edges red c dies nonneg small steps =>
    rw [steps]
    refine .skip (undo_assigned_ok hoff) fun _ => .bind (leads_undo_merge hs hopen hoff) fun _ s1 _ hpop => ?_
    refine .bind (fun _ _ h => ?_) fun _ _ _ hrev => .pure hrev
    obtain ⟨usage, graph, ha, rfl⟩ := assign_ok (undo_unassigned_ok h)
    obtain ⟨m, bus, -, -, hp⟩ := places_of_assign ha
    refine .act (.replace hmem nonneg small ha) ⟨hpop.machine, hpop.bypasser, hpop.opened, fun x hx => ?_,
      fun {y} hy => ?_⟩
    · exact (List.mem_cons.1 hx).imp_right fun hx => .inr (hpop.loose_eq ▸ hx)
    · rw [hp.cycleOf, if_neg hy]
      exact hpop.cycle y
  | pending dies steps =>
    rw [steps]
    refine .bind (leads_undo_merge hs hopen hoff) fun _ _ _ hpop => .pure ?_
    exact ⟨hpop.machine, hpop.bypasser, hpop.opened, fun _ hx => .inr (.inr (hpop.loose_eq ▸ hx)), fun _ => hpop.cycle _⟩
  | @dropped edges red rm gone steps =>
    rw [steps]
    refine .bind (leads_undo_removed hs hopen) fun _ s1 hacts hpop => ?_
    have hoff1 : s1.graph.cycleOf b.dest = none := (hpop.cycle _).trans hoff
    refine .bind (leads_undo_merge (hs.acts hacts) hpop.opened hoff1) fun _ s2 _ hpop' => .pure ?_
    refine ⟨hpop'.machine.trans hpop.machine, hpop'.bypasser.trans hpop.bypasser, hpop'.opened,
      fun x hx => .inr ?_, fun _ => (hpop'.cycle _).trans (hpop.cycle _)⟩
    have hx : x ∈ rm.move :: s.loose := by
      rw [hpop'.loose_eq, hpop.loose] at hx
      exact hx
    exact (List.mem_cons.1 hx).imp_left fun hx => List.mem_singleton.2 hx

/-! ## All bypasses of a unit -/

/-- All bypasses into the operands are taken back, newest first. -/
theorem leads_undoLog (hs : Steady j g0 s) (hopens : Opens j.operands dead log s.opened)
    (hoff : ∀ f ∈ s.opened, ∀ n, f.dest? = some n → s.graph.cycleOf n = none) :
    Brings j s ((log.filter fun b => j.operands.contains b.dest).forM fun b => reversal.undoAll b.steps) fun _ s' =>
      s'.machine = s.machine ∧ s'.bypasser = s.bypasser ∧ s'.opened = [] ∧
      (∀ x ∈ s'.loose, x ∈ j.operands ∨ x ∈ s.opened.filterMap Frame.gone? ∨ x ∈ s.loose) ∧
      ∀ y, y ∉ j.operands → s'.graph.cycleOf y = s.graph.cycleOf y := by
  generalize hfs : s.opened = fs at hopens
  induction hopens generalizing s with
  | nil => exact .pure ⟨rfl, rfl, hfs, fun _ hx => .inr (.inr hx), fun _ _ => rfl⟩
  | other other _ ih =>
    rw [List.filter_cons_of_neg (by simpa using other)]
    exact ih hs hoff hfs
  | @cons b log fs fs' mem first rest ih =>
    rw [List.filter_cons_of_pos (by simpa using mem)]
    have hmerged : ∃ f ∈ fs, f.dest? = some b.dest := by
      cases first <;> simp [Frame.dest?]
    obtain ⟨f, hf, hdest⟩ := hmerged
    have hoffb : s.graph.cycleOf b.dest = none := hoff f (hfs ▸ List.mem_append_left _ hf) _ hdest
    refine .bind (leads_undoAll hs first mem hfs hoffb) fun _ s1 hacts hrev => ?_
    have hoff1 : ∀ f' ∈ s1.opened, ∀ n, f'.dest? = some n → s1.graph.cycleOf n = none := by
      intro f' hf' n hn
      rw [hrev.opened] at hf'
      have hne : n ≠ b.dest := by
        rintro rfl
        have hapart := hs.apart
        rw [hfs] at hapart
        exact (List.pairwise_append.1 hapart).2.2 f hf f' hf' _ hdest hn
      rw [hrev.cycle hne]
      exact hoff f' (hfs ▸ List.mem_append_right _ hf') n hn
    refine (ih (hs.acts hacts) hoff1 hrev.opened).mono ?_
    rintro _ s2 - ⟨hmachine, hbypasser, hopened, hloose, hcycle⟩
    refine ⟨hmachine.trans hrev.machine, hbypasser.trans hrev.bypasser, hopened, fun x hx => ?_, fun y hy => ?_⟩
    · rw [List.filterMap_append, List.mem_append]
      rcases hloose x hx with hx | hx | hx
      · exact .inl hx
      · exact .inr (.inl (.inr hx))
      · rcases hrev.loose x hx with rfl | hx | hx
        · exact .inl mem
        · exact .inr (.inl (.inl hx))
        · exact .inr (.inr hx)
    · refine (hcycle y hy).trans (hrev.cycle ?_)
      rintro rfl
      exact hy mem

end RegionM

/-- Nothing of the unit is open any more, and no operand is in a cycle. A move that was taken out may
have come back into one. -/
structure Moment.Unbypassed (j : Job) (s s' : Moment) : Prop where
  machine : s'.machine = s.machine
  dead : s'.bypasser.deadCandidates = s.bypasser.deadCandidates
  log : ∀ b ∈ s'.bypasser.log, b.dest ∉ j.operands ∧ b ∈ s.bypasser.log
  enabled : s'.bypasser.isEnabled = s.bypasser.isEnabled
  opened : s'.opened = []
  loose : ∀ n ∈ s'.loose, n ∈ s.opened.filterMap Frame.gone? ∧ s'.graph.cycleOf n ≠ none
  off : ∀ n ∈ j.operands, s'.graph.cycleOf n = none
  cycle {y : MoveId} : y ∉ j.operands → s'.graph.cycleOf y = s.graph.cycleOf y

namespace RegionM

theorem leads_unbypass (hfit : j.Fits g0) (hs : Underway j g0 s)
    (hopens : Opens j.operands dead s.bypasser.log s.opened) (hloose : ∀ n ∈ s.loose, n ∈ j.operands) :
    Brings j s (unbypass j.operands) fun _ s' => s.Unbypassed j s' := by
  -- The operands are taken off first, so no bypassed one is in a cycle.
  refine .bind (leads_unassignAll hfit.operands) ?_
  rintro _ s1 hacts1 ⟨hbooks1, -, hoff1, hcycle1⟩
  have hs1 := hs.acts hfit hacts1
  have hforget : Act j s1 _ := .forget
  have hs2 := hs1.acts hfit (.single hforget)
  have hoff : ∀ f ∈ s1.opened, ∀ n, f.dest? = some n → s1.graph.cycleOf n = none := by
    intro f hf n hn
    have hmem : n ∈ j.operands := hopens.dest_mem (hbooks1.opened ▸ hf) hn
    exact (hs1.has (hfit.operands n hmem) (.inl hmem)).cycleOf (hoff1 n hmem)
  refine .bypasser ?_
  rw [List.partition_eq_filter_filter]
  refine .bind (P := fun _ s' => s' = { s1 with bypasser := { s1.bypasser with
      log := s1.bypasser.log.filter fun b => !j.operands.contains b.dest } }) (fun _ _ h => ?_) ?_
  · cases setBypasser_ok.1 h
    exact .act hforget rfl
  rintro _ _ - rfl
  have hopens1 : Opens j.operands dead s1.bypasser.log s1.opened := by
    rw [hbooks1.bypasser, hbooks1.opened]
    exact hopens
  refine .bind (leads_undoLog hs2.steady hopens1 hoff) ?_
  rintro _ s3 hacts3 ⟨hmachine3, hbypasser3, hopened3, hloose3, hcycle3⟩
  have hs3 := hs2.acts hfit hacts3
  intro _ _ h
  refine (leads_unassignAll hfit.operands h).bind ?_
  rintro s4 hacts4 rfl ⟨hbooks4, -, hoff4, hcycle4⟩
  have hs4 := hs3.acts hfit hacts4
  have hnone : ∀ n ∈ j.operands, s4.graph.cycleOf n = none := fun n hn =>
    (hs4.has (hfit.operands n hn) (.inl hn)).cycleOf (hoff4 n hn)
  have hloose4 : ∀ n ∈ s4.loose, s4.graph.cycleOf n ≠ none → n ∈ s.opened.filterMap Frame.gone? := by
    intro n hn hplaced
    rw [hbooks4.loose] at hn
    rcases hloose3 n hn with hn | hn | hn
    · exact absurd (hnone n hn) hplaced
    · exact hbooks1.opened ▸ hn
    · exact absurd (hnone n (hloose n (hbooks1.loose ▸ hn))) hplaced
  have hlog4 : s4.bypasser = { s.bypasser with
      log := s.bypasser.log.filter fun b => !j.operands.contains b.dest } := by
    rw [hbooks4.bypasser, hbypasser3, ← hbooks1.bypasser]
  refine ⟨_, ⟨.single .tidy, rfl⟩, rfl, ?_, ?_, ?_, ?_, ?_, fun n hn => ?_, hnone, fun {y} hy => ?_⟩
  · exact hbooks4.machine.trans (hmachine3.trans hbooks1.machine)
  · exact (congrArg Bypasser.deadCandidates hlog4 :)
  · intro b hb
    rw [show s4.bypasser.log = _ from congrArg Bypasser.log hlog4] at hb
    simpa [and_comm] using List.mem_filter.1 hb
  · exact (congrArg Bypasser.isEnabled hlog4 :)
  · exact hbooks4.opened.trans hopened3
  · obtain ⟨hn, hplaced⟩ := List.mem_filter.1 hn
    have hplaced : s4.graph.cycleOf n ≠ none := Option.isSome_iff_ne_none.1 hplaced
    exact ⟨hloose4 n hn hplaced, hplaced⟩
  · have h1 : s1.graph.cycleOf y = s.graph.cycleOf y := (hcycle1 y).resolve_right fun h => hy h.1
    have h4 : s4.graph.cycleOf y = s3.graph.cycleOf y := (hcycle4 y).resolve_right fun h => hy h.1
    exact h4.trans ((hcycle3 y hy).trans h1)

end RegionM

end Transport
