import Transport.Proofs.Scheduling.Presence

/-!
# Runs are acts

What a function of the scheduler does to a region is a series of acts. Each lemma takes a run that
ended well apart, and says besides which moves are placed afterwards.
-/

namespace Transport

open Transport.Graph

variable {j : Job} {g0 g : Graph} {s s' s'' : Moment} {r r' : Region} {n x : MoveId} {ns : List MoveId}

/-- Acts lead from the moment `s` to the region `r`, and `P` is true then. Groups are not counted here. -/
def Leads (j : Job) (s : Moment) (r : Region) (P : Moment → Prop) : Prop :=
  ∃ s', (Acts j s s' ∧ s'.stats.groups = s.stats.groups) ∧ s'.toRegion = r ∧ P s'

namespace Leads

variable {P Q : Moment → Prop}

theorem here (h : P s) : Leads j s s.toRegion P := ⟨s, ⟨.refl, rfl⟩, rfl, h⟩

theorem act (h : Act j s s') (hp : P s') (hgroups : s'.stats.groups = s.stats.groups := by rfl) :
    Leads j s s'.toRegion P := ⟨s', ⟨.single h, hgroups⟩, rfl, hp⟩

theorem bind (h : Leads j s r P) (h' : ∀ s', Acts j s s' → s'.toRegion = r → P s' → Leads j s' r' Q) :
    Leads j s r' Q := by
  obtain ⟨s1, ⟨hacts, hgroups⟩, hr, hp⟩ := h
  obtain ⟨s2, ⟨hacts', hgroups'⟩, hr', hq⟩ := h' s1 hacts hr hp
  exact ⟨s2, ⟨hacts.trans hacts', hgroups'.trans hgroups⟩, hr', hq⟩

theorem mono (h : Leads j s r P) (h' : ∀ s', Acts j s s' → P s' → Q s') : Leads j s r Q := by
  obtain ⟨s1, hacts, hr, hp⟩ := h
  exact ⟨s1, hacts, hr, h' s1 hacts.1 hp⟩

end Leads

/-- A run of `x` from the moment `s` that ends well comes to acts, and `P` is true then. -/
def Brings (j : Job) (s : Moment) {α : Type} (x : RegionM α) (P : α → Moment → Prop) : Prop :=
  Gives s.toRegion x fun a r => Leads j s r (P a)

namespace Brings

variable {α β : Type} {x y : RegionM α} {f : α → RegionM β} {P P' : α → Moment → Prop} {Q : β → Moment → Prop}

theorem pure {a : α} (h : P a s) : Brings j s (Pure.pure a) P := Gives.pure (.here h)

theorem raise {e : Halt} : Brings j s (throw e) P := Gives.raise

theorem bind (hx : Brings j s x P) (hf : ∀ a s', Acts j s s' → P a s' → Brings j s' (f a) Q) :
    Brings j s (x >>= f) Q := by
  refine Gives.bind fun a r1 ha b r hb => (hx ha).bind ?_
  rintro s1 hacts rfl hp
  exact hf a s1 hacts hp hb

theorem mono (hx : Brings j s x P) (h : ∀ a s', Acts j s s' → P a s' → P' a s') : Brings j s x P' :=
  fun _ _ hr => (hx hr).mono (h _)

theorem ite {p : Prop} [Decidable p] (hx : p → Brings j s x P) (hy : ¬ p → Brings j s y P) :
    Brings j s (if p then x else y) P := Gives.ite hx hy

/-- An act that the region does not show may come first. -/
theorem after {s1 : Moment} (hact : Act j s s1) (hr : s1.toRegion = s.toRegion) (hx : Brings j s1 x P) :
    Brings j s x P := by
  intro a r h
  refine (Leads.act (P := (· = s1)) hact rfl (by rw [hr])).bind ?_
  rintro _ - - rfl
  exact hx (hr ▸ h)

/-- What only looks at the region stays in the moment. -/
theorem look {R : α → Prop} (hx : Gives s.toRegion x fun a r => s.toRegion = r ∧ R a)
    (hf : ∀ a, R a → Brings j s (f a) Q) : Brings j s (x >>= f) Q := Gives.look hx hf

theorem skip (hx : Gives s.toRegion x fun _ r => s.toRegion = r) (hf : ∀ a, Brings j s (f a) Q) :
    Brings j s (x >>= f) Q := Gives.skip hx hf

theorem lift {c : Checked α} (hf : ∀ a, c = .ok a → Brings j s (f a) Q) :
    Brings j s (RegionM.ofChecked c >>= f) Q := Gives.lift hf

theorem ask {query : Graph → Checked α} (hf : ∀ a, query s.graph = .ok a → Brings j s (f a) Q) :
    Brings j s (RegionM.ask query >>= f) Q := Gives.ask hf

theorem move {f : Move → RegionM β} (hf : ∀ m, s.graph.move n = .ok m → Brings j s (f m) Q) :
    Brings j s (RegionM.move n >>= f) Q := Gives.ask hf

theorem get {f : Region → RegionM β} (hf : Brings j s (f s.toRegion) Q) : Brings j s (MonadState.get >>= f) Q := hf

theorem graph {f : Graph → RegionM β} (hf : Brings j s (f s.graph) Q) : Brings j s (RegionM.graph >>= f) Q := hf

theorem bypasser {f : Bypasser → RegionM β} (hf : Brings j s (f s.bypasser) Q) :
    Brings j s (RegionM.bypasser >>= f) Q := hf

theorem forM {f : MoveId → RegionM Unit} {I : List MoveId → Moment → Prop}
    (step : ∀ x xs s, I (x :: xs) s → Brings j s (f x) fun _ => I xs) (hI : I ns s) :
    Brings j s (ns.forM f) fun _ => I [] := by
  induction ns generalizing s with
  | nil => exact .pure hI
  | cons x xs ih => exact .bind (step x xs s hI) fun _ _ _ => ih

end Brings

/-! ## What a moment knows -/

/-- Nothing but notes, counters, the selector and the kept distances has changed. -/
structure Moment.Quiet (s s' : Moment) : Prop where
  machine : s'.machine = s.machine
  usage : s'.usage = s.usage
  bypasser : s'.bypasser = s.bypasser
  renamer : s'.renamer = s.renamer
  opened : s'.opened = s.opened
  loose : s'.loose = s.loose
  checked : s'.checked = s.checked
  graph : s.graph.Alike s'.graph

namespace Moment.Quiet

theorem refl : s.Quiet s := ⟨rfl, rfl, rfl, rfl, rfl, rfl, rfl, .refl⟩

theorem trans (h : s.Quiet s') (h' : s'.Quiet s'') : s.Quiet s'' :=
  ⟨h'.machine.trans h.machine, h'.usage.trans h.usage, h'.bypasser.trans h.bypasser,
    h'.renamer.trans h.renamer, h'.opened.trans h.opened, h'.loose.trans h.loose,
    h'.checked.trans h.checked, h.graph.trans h'.graph⟩

theorem cycleOf (h : s.Quiet s') (n : MoveId) : s'.graph.cycleOf n = s.graph.cycleOf n := by
  obtain ⟨d, hd⟩ := h.graph
  rw [hd]
  rfl

end Moment.Quiet

namespace RegionM

theorem leads_note {note : Note} : Brings j s (RegionM.note note) fun _ => s.Quiet := by
  intro _ _ h
  obtain ⟨notes, -, rfl⟩ := lift_logged_ok.1 (show (liftM (Logged.note note) : RegionM Unit) _ = _ from h)
  exact .act (.tell notes s.stats) ⟨rfl, rfl, rfl, rfl, rfl, rfl, rfl, .refl⟩

theorem leads_count {f : Stats → Stats} (hf : (f s.stats).groups = s.stats.groups := by rfl) :
    Brings j s (count f) fun _ => s.Quiet := by
  intro _ _ h
  cases count_ok.1 h
  exact .act (.tell s.notes (f s.stats)) ⟨rfl, rfl, rfl, rfl, rfl, rfl, rfl, .refl⟩ hf

theorem leads_reconsider : Brings j s (reconsider ns) fun _ => s.Quiet := by
  refine .forM (I := fun _ => s.Quiet) (fun n _ s1 hq => .get ?_) .refl
  cases hsel : s1.selector with
  | none => exact .pure hq
  | some x =>
    refine Gives.tell fun y notes h => .update ?_
    obtain ⟨_, _, hoffer, ⟨⟩⟩ := run_bind_ok.1 h
    refine .act (.offer hsel hoffer) (hq.trans ⟨rfl, rfl, rfl, rfl, rfl, rfl, rfl, ?_⟩)
    exact Selector.alike_of_offer hoffer

/-! ## Places -/

end RegionM

/-- The moves are the same but for their places. -/
def Graph.SameButPlaces (g g' : Graph) : Prop := ∀ x m', g'.move? x = some m' →
  ∃ m, g.move? x = some m ∧ m' = { m with placement := m'.placement }

theorem Graph.SameButPlaces.refl : g.SameButPlaces g := fun _ m hm => ⟨m, hm, rfl⟩

theorem Graph.SameButPlaces.trans {g' g'' : Graph} (h : g.SameButPlaces g') (h' : g'.SameButPlaces g'') :
    g.SameButPlaces g'' := by
  intro x m'' hm''
  obtain ⟨m', hm', heq'⟩ := h' x m'' hm''
  obtain ⟨m, hm, heq⟩ := h x m' hm'
  refine ⟨m, hm, ?_⟩
  rw [heq] at heq'
  exact heq'

/-- The books on the unit are the same. -/
structure Moment.SameBooks (s s' : Moment) : Prop where
  machine : s'.machine = s.machine
  bypasser : s'.bypasser = s.bypasser
  opened : s'.opened = s.opened
  loose : s'.loose = s.loose
  checked : s'.checked = s.checked

theorem Moment.SameBooks.refl : s.SameBooks s := ⟨rfl, rfl, rfl, rfl, rfl⟩

theorem Moment.SameBooks.trans (h : s.SameBooks s') (h' : s'.SameBooks s'') : s.SameBooks s'' :=
  ⟨h'.machine.trans h.machine, h'.bypasser.trans h.bypasser, h'.opened.trans h.opened,
    h'.loose.trans h.loose, h'.checked.trans h.checked⟩

/-- The books are the same, but for moves that need no watch any more. -/
structure Moment.FewerLoose (s s' : Moment) : Prop where
  machine : s'.machine = s.machine
  bypasser : s'.bypasser = s.bypasser
  opened : s'.opened = s.opened
  loose : ∀ n ∈ s'.loose, n ∈ s.loose
  checked : s'.checked = s.checked

theorem Moment.FewerLoose.trans (h : s.FewerLoose s') (h' : s'.FewerLoose s'') : s.FewerLoose s'' :=
  ⟨h'.machine.trans h.machine, h'.bypasser.trans h.bypasser, h'.opened.trans h.opened,
    fun n hn => h.loose n (h'.loose n hn), h'.checked.trans h.checked⟩

theorem Moment.SameBooks.fewerLoose (h : s.SameBooks s') : s.FewerLoose s' :=
  ⟨h.machine, h.bypasser, h.opened, fun _ hn => h.loose ▸ hn, h.checked⟩

theorem Moment.Quiet.sameBooks (h : s.Quiet s') : s.SameBooks s' :=
  ⟨h.machine, h.bypasser, h.opened, h.loose, h.checked⟩

namespace RegionM

variable {c : Cycle} {u : Unit}

theorem assign_ok (h : assign n c r = .ok u r') :
    ∃ usage graph, r.usage.assign r.machine r.graph c n = .ok (usage, graph) ∧
      r' = { r with usage, graph } := by
  simp only [assign, run_bind_ok, run_get_ok, lift_ok, run_set_ok] at h
  obtain ⟨_, _, ⟨rfl, rfl⟩, ⟨usage, graph⟩, _, ⟨ha, rfl⟩, rfl⟩ := h
  exact ⟨usage, graph, ha, rfl⟩

theorem unassign_ok (h : unassign n r = .ok u r') :
    ∃ usage graph, r.usage.unassign r.graph n = .ok (usage, graph) ∧ r' = { r with usage, graph } := by
  simp only [unassign, run_bind_ok, run_get_ok, lift_ok, run_set_ok] at h
  obtain ⟨_, _, ⟨rfl, rfl⟩, ⟨usage, graph⟩, _, ⟨ha, rfl⟩, rfl⟩ := h
  exact ⟨usage, graph, ha, rfl⟩

end RegionM

namespace Gives

variable {c : Cycle} {β : Type} {f : Unit → RegionM β} {Q : β → Region → Prop}

theorem assign (hf : ∀ usage graph, r.usage.assign r.machine r.graph c n = .ok (usage, graph) →
    Gives { r with usage, graph } (f ()) Q) : Gives r (RegionM.assign n c >>= f) Q := by
  refine .bind fun _ _ h => ?_
  obtain ⟨usage, graph, ha, rfl⟩ := RegionM.assign_ok h
  exact hf usage graph ha

theorem unassign (hf : ∀ usage graph, r.usage.unassign r.graph n = .ok (usage, graph) →
    Gives { r with usage, graph } (f ()) Q) : Gives r (RegionM.unassign n >>= f) Q := by
  refine .bind fun _ _ h => ?_
  obtain ⟨usage, graph, ha, rfl⟩ := RegionM.unassign_ok h
  exact hf usage graph ha

end Gives

namespace RegionM

variable {c : Cycle} {u : Unit}

theorem neighbours_ok : Gives r (neighbours n) fun _ r' => r = r' := .ask fun _ _ => .ask fun _ _ => .pure rfl

theorem rename_ok {dest : Bool} {direction : Direction} : Gives r (rename n dest c direction) fun y r' =>
    (y = none ∧ r' = r) ∨ ∃ rn undo rn' g ns, y = some undo ∧
      r.renamer = some rn ∧ rn.renameAt r.machine r.graph n dest c direction = .ok (some (undo, rn', g)) ∧
      reconsider ns { r with renamer := some rn', graph := g } = .ok () r' := by
  refine .get ?_
  cases hrn : r.renamer with
  | none => exact .pure (.inl ⟨rfl, rfl⟩)
  | some rn =>
    refine .lift fun x hx => ?_
    rcases x with _ | ⟨undo, rn', g⟩
    · exact .pure (.inl ⟨rfl, rfl⟩)
    refine .set (.skip (.mapM_same fun _ => .skip neighbours_ok fun _ => .pure rfl) fun touched => ?_)
    exact .bind fun _ _ hre => .pure (.inr ⟨rn, undo, rn', g, touched.flatten, rfl, rfl, hx, hre⟩)

/-- A producer without readers is taken off its cycle and out of the graph; others are kept. -/
theorem removeDead_ok : Gives r (removeDead n) fun y r' =>
    ∃ m needed, r.graph.move? n = some m ∧ r.graph.resultNeeded n = .ok needed ∧
      (y = none ∧ r' = r ∧ (m.live → m.isResult → needed = true) ∨
        m.live ∧ m.isResult ∧ needed = false ∧ ∃ u g g' rm ns,
          (m.isPlaced = false ∧ u = r.usage ∧ g = r.graph ∨ m.isPlaced ∧ r.usage.unassign r.graph n = .ok (u, g)) ∧
          g.removeMove n = .ok (g', rm) ∧ y = some (rm, m.cycle?) ∧
          reconsider ns { r with usage := u, graph := g' } = .ok () r') := by
  refine .move fun m hm => .ask fun needed hneeded => .ite (fun hkeep => .pure ?_) fun hkind => ?_
  · refine ⟨m, needed, move?_of_move hm, hneeded, .inl ⟨rfl, rfl, fun hlive hresult => ?_⟩⟩
    simpa [hlive, hresult] using hkeep
  simp only [Bool.or_eq_true, Bool.not_eq_true', not_or, Bool.not_eq_false, Bool.not_eq_true] at hkind
  refine .skip neighbours_ok fun _ => .ite (fun hon => .unassign fun u g hoff => ?_) fun hoff => ?_
  · refine .ask fun y hremove => .setGraph (.bind fun _ _ hre => .pure ?_)
    exact ⟨m, needed, move?_of_move hm, hneeded, .inr ⟨hkind.1.1, hkind.1.2, hkind.2, u, g, y.1, y.2, _,
      .inr ⟨hon, hoff⟩, hremove, rfl, hre⟩⟩
  · refine .ask fun y hremove => .setGraph (.bind fun _ _ hre => .pure ?_)
    exact ⟨m, needed, move?_of_move hm, hneeded, .inr ⟨hkind.1.1, hkind.1.2, hkind.2, _, _, y.1, y.2, _,
      .inl ⟨by simpa using hoff, rfl, rfl⟩, hremove, rfl, hre⟩⟩

/-- Moves are taken off their cycles, as far as they are in the graph. -/
theorem leads_unassignAll (hns : ∀ n ∈ ns, n ∈ j.moves) : Brings j s (unassignAll ns) fun _ s' =>
    s.SameBooks s' ∧ s.graph.SameButPlaces s'.graph ∧
      (∀ n ∈ ns, ∀ m, s'.graph.move? n = some m → m.live → m.placement = none) ∧
      ∀ x, s'.graph.cycleOf x = s.graph.cycleOf x ∨ x ∈ ns ∧ s'.graph.cycleOf x = none := by
  induction ns generalizing s with
  | nil => exact .pure ⟨.refl, .refl, by simp, fun _ => .inl rfl⟩
  | cons n ns ih =>
    refine .bind (P := fun _ s1 => s.SameBooks s1 ∧ s.graph.SameButPlaces s1.graph ∧
        (∀ m, s1.graph.move? n = some m → m.live → m.placement = none) ∧
        ∀ x, s1.graph.cycleOf x = s.graph.cycleOf x ∨ x = n ∧ s1.graph.cycleOf x = none) ?_ ?_
    · refine .ask fun b hb => ?_
      simp only [isSettled, bind_eq_ok, pure_eq_ok] at hb
      obtain ⟨m, hm, rfl⟩ := hb
      refine .ite (fun _ _ _ hn => ?_) fun hoff => ?_
      · obtain ⟨usage, graph, ha, rfl⟩ := unassign_ok hn
        obtain ⟨-, -, -, hp⟩ := places_of_unassign ha
        refine .act (.unplace (hns n List.mem_cons_self) ha) ⟨⟨rfl, rfl, rfl, rfl, rfl⟩, fun x m' => hp.origin,
          fun m' hm' _ => ?_, fun x => ?_⟩
        · rw [hp.self (move?_of_move hm)] at hm'
          cases hm'
          rfl
        · rw [hp.cycleOf]
          by_cases hx : x = n <;> simp [hx]
      · refine .pure ⟨.refl, .refl, fun m' hm' hlive => ?_, fun _ => .inl rfl⟩
        rw [move?_of_move hm] at hm'
        cases hm'
        simpa [hlive, Move.isPlaced] using hoff
    rintro _ s1 - ⟨hbooks, hsame, hoff, hkept⟩
    refine (ih fun x hx => hns x (List.mem_cons_of_mem _ hx)).mono ?_
    rintro _ s' - ⟨hbooks', hsame', hoff', hkept'⟩
    refine ⟨hbooks.trans hbooks', hsame.trans hsame', fun x hx m' hm' hlive => ?_, fun x => ?_⟩
    · rcases List.mem_cons.1 hx with rfl | hx
      · obtain ⟨m1, hm1, heq⟩ := hsame' x m' hm'
        have hlive1 : m1.live := by rw [heq] at hlive; exact hlive
        have hnone : s1.graph.cycleOf x = none := by
          simp [Graph.cycleOf, hm1, Move.cycle?, hoff m1 hm1 hlive1]
        have hnone' : s'.graph.cycleOf x = none := by
          rcases hkept' x with hk | ⟨-, hk⟩
          · rw [hk, hnone]
          · exact hk
        simpa [Graph.cycleOf, hm', Move.cycle?] using hnone'
      · exact hoff' x hx m' hm' hlive
    · rcases hkept' x with hk | ⟨hx, hk⟩
      · rcases hkept x with hk0 | ⟨rfl, hk0⟩
        · exact .inl (hk.trans hk0)
        · exact .inr ⟨List.mem_cons_self, hk.trans hk0⟩
      · exact .inr ⟨List.mem_cons_of_mem _ hx, hk⟩

/-! ## Where moves are placed -/

theorem earliestFit_ok {lower : Cycle} : Gives r (earliestFit lower n) fun x r' =>
    r = r' ∧ ∀ c, x = some c → lower ≤ c ∧ 0 ≤ c ∧ c < 2147483648 := by
  refine .get fun x r' h => ?_
  obtain ⟨hfit, rfl⟩ := lift_ok.1 h
  refine ⟨rfl, ?_⟩
  rintro c rfl
  obtain ⟨horizon, hh, hup⟩ := bind_eq_ok.1 hfit
  obtain ⟨⟨-, hfits⟩, rfl⟩ := Cycle.check_eq_ok_iff.1 hh
  have := of_searchUp hup
  simp only [Usage.searchWindow] at this hfits
  lia

theorem latestFit_ok {upper : Cycle} : Gives r (latestFit upper n) fun x r' =>
    r = r' ∧ ∀ c, x = some c → 0 ≤ c ∧ c ≤ upper := by
  refine .get fun x r' h => ?_
  obtain ⟨hfit, rfl⟩ := lift_ok.1 h
  refine ⟨rfl, ?_⟩
  rintro c rfl
  have := of_searchDown hfit
  lia

theorem guardBound_ok : Gives r (guardBound n) fun _ r' => r = r' := by
  refine .move fun m _ => ?_
  cases m.guard with
  | none => exact .pure rfl
  | some guard => exact .ask fun _ _ _ _ h => (lift_ok.1 h).2

theorem guardedEarliest_ok : Gives r (guardedEarliest n) fun c r' => r = r' ∧ ∃ e, r.graph.earliest n = .ok e ∧ e ≤ c :=
  .ask fun e he => .skip guardBound_ok fun _ => .pure ⟨rfl, e, he, Int.le_max_left _ _⟩

theorem isControlFlow_ok : Gives r (isControlFlow n) fun _ r' => r = r' := .move fun _ _ => .pure rfl

end RegionM

/-- The move `n` has got the cycle `x`, if that is one. -/
structure Moment.Puts (s s' : Moment) (n : MoveId) (x : Option Cycle) : Prop where
  books : s.SameBooks s'
  moves : s.graph.SameButPlaces s'.graph
  cycle (y : MoveId) :
    s'.graph.cycleOf y = if y = n then x.or (s.graph.cycleOf y) else s.graph.cycleOf y
  off {c : Cycle} : x = some c → s.graph.cycleOf n = none

theorem Moment.Puts.cycle_some (h : s.Puts s' n (some c)) (y : MoveId) :
    s'.graph.cycleOf y = if y = n then some c else s.graph.cycleOf y := h.cycle y

theorem Moment.Puts.none : s.Puts s n none := ⟨.refl, .refl, fun y => by simp, fun h => (nomatch h)⟩

theorem Moment.puts_of_assign {c : Cycle} {u : Usage} (h : s.usage.assign s.machine s.graph c n = .ok (u, g)) :
    s.Puts { s with usage := u, graph := g } n (some c) := by
  obtain ⟨m, b, hm, hnone, hp⟩ := places_of_assign h
  refine ⟨⟨rfl, rfl, rfl, rfl, rfl⟩, fun x m' => hp.origin, fun y => ?_, fun _ => ?_⟩
  · rw [hp.cycleOf]
    rfl
  · simp [Graph.cycleOf, hm, Move.cycle?, hnone]

namespace RegionM

/-- One move is placed as early as possible, or nothing happens. -/
theorem leads_placeEarly {lower : Cycle} (hway : j.way = .topDown) (hn : n ∈ j.moves) (horder : j.InOrder s.graph n) :
    Brings j s (placeEarly n lower) fun x s' => s.Puts s' n x := by
  refine .look guardedEarliest_ok fun c1 he => .get (.skip isControlFlow_ok fun b => ?_)
  refine .look earliestFit_ok fun y hy => ?_
  cases y with
  | none => exact .pure .none
  | some c =>
    obtain ⟨e, he, hle⟩ := he
    obtain ⟨hlow, h0, hmax⟩ := hy c rfl
    have hec : e ≤ c := by
      split at hlow <;> lia
    exact Gives.assign fun _ _ ha => .pure (.act
      (.place hn ⟨h0, hmax, ⟨e, he, hec⟩, by simp [hway], fun _ => horder⟩ ha) (Moment.puts_of_assign ha))

/-- One move is placed as late as possible, or nothing happens. -/
theorem leads_placeLate {upper : Cycle} (hway : j.way = .bottomUp) (hn : n ∈ j.moves) (hupper : upper < 2147483648) :
    Brings j s (placeLate n upper) fun x s' => s.Puts s' n x := by
  refine .ask fun l hl => .skip guardBound_ok fun floor => .ask fun e he => ?_
  refine .ite (fun _ => .pure .none) fun _ => .look latestFit_ok fun y hy => ?_
  cases y with
  | none => exact .pure .none
  | some c =>
    refine .ite (fun _ => .pure .none) fun hfloor => Gives.assign fun _ _ ha => .pure ?_
    obtain ⟨h0, hup⟩ := hy c rfl
    -- Whether or not a successor bounds the move, the search goes down from the lesser bound.
    rcases l with _ | b
    all_goals
      refine .act (.place hn ⟨h0, by lia, ⟨e, he, by lia⟩, fun _ => ⟨_, hl, ?_⟩, by simp [hway]⟩ ha)
        (Moment.puts_of_assign ha)
      rintro _ ⟨⟩
    lia

end RegionM

/-- The books are the same, and every move is where it was. -/
structure Moment.SamePlaces (s s' : Moment) : Prop where
  books : s.SameBooks s'
  cycle (y : MoveId) : s'.graph.cycleOf y = s.graph.cycleOf y

theorem Moment.SamePlaces.refl : s.SamePlaces s := ⟨.refl, fun _ => rfl⟩

theorem Moment.SamePlaces.trans (h : s.SamePlaces s') (h' : s'.SamePlaces s'') : s.SamePlaces s'' :=
  ⟨h.books.trans h'.books, fun y => (h'.cycle y).trans (h.cycle y)⟩

theorem Moment.Quiet.samePlaces (h : s.Quiet s') : s.SamePlaces s' := ⟨h.sameBooks, h.cycleOf⟩

namespace RegionM

variable {a a' : Attempt ChangeRecord} {endCycle : Cycle} {u : Unit}

/-! ## Attempts -/

/-- A change on its own either applies or leaves the attempt as it is. -/
theorem tryStep_single_ok {change : Change} : Gives r (a.tryStep reversal (.single change)) fun y r' =>
    ∃ x, applyChange change r = .ok x r' ∧ y = (x.isSome, (x.map fun record => .mk [] record []).toList ++ a) := by
  refine .bind (.bind (.pure (.bind fun x r' hx => ?_)))
  cases x with
  | none => exact .bind (.pure (.pure (.pure ⟨_, hx, rfl⟩)))
  | some record => exact .bind (.pure (.pure (.pure ⟨_, hx, rfl⟩)))

theorem gives_tryStep {change : Change} {P : Bool × Attempt ChangeRecord → Region → Prop}
    (h : Gives r (applyChange change) fun x r' =>
      P (x.isSome, (x.map fun record => .mk [] record []).toList ++ a) r') :
    Gives r (a.tryStep reversal (.single change)) P := by
  intro _ _ hy
  obtain ⟨x, hx, rfl⟩ := tryStep_single_ok hy
  exact h hx

/-- The record of a bypass. -/
def mergeSteps (edges : EdgeRecord) (red : Redirection) : Applied ChangeRecord :=
  .mk [] (.edgesMerged edges) [.mk [] (.redirected red) []]

theorem tryStep_merge_ok {source dest : MoveId} :
    Gives r (a.tryStep reversal (.merge source dest false)) fun x r' => (x = (false, a) ∧ r' = r) ∨
      ∃ g1 edges g' red, r.graph.mergeEdges source dest false = .ok (some (g1, edges)) ∧
        g1.redirect source dest = .ok (g', red) ∧ r' = { r with graph := g' } ∧
        x = (true, mergeSteps edges red :: a) := by
  refine .bind (.bind (.pure (.bind (.ask fun z hz => ?_))))
  rcases z with _ | ⟨g1, edges⟩
  · exact .pure (.bind (.pure (.pure (.pure (.inl ⟨rfl, rfl⟩)))))
  refine .setGraph (.pure (.bind (.bind (.bind (.pure (.bind (.ask fun y hy => ?_)))))))
  refine .setGraph (.pure (.bind (.pure (.pure (.pure (.pure (.pure ?_)))))))
  exact .inr ⟨g1, edges, y.1, y.2, hz, hy, rfl, rfl⟩

theorem leads_rename {cycle : Cycle} (hs : Steady j g0 s) (hmay : s.MayRename j n) :
    Brings j s (rename n (decide (j.way = .topDown)) cycle j.way) fun _ => s.SamePlaces := by
  intro x r' h
  rcases rename_ok h with ⟨-, rfl⟩ | ⟨rn, undo, rn', g', ns, -, hrn, hy, hre⟩
  · exact .here .refl
  obtain ⟨range, w, old, new, hr, -⟩ := relocates_of_renameAt hs.upheld.linked hs.upheld.tagged hy
  have hfirst : Leads j s { s.toRegion with renamer := some rn', graph := g' } s.SamePlaces :=
    .act (.rename hmay hrn hy) ⟨⟨rfl, rfl, rfl, rfl, rfl⟩, hr.samePresence.cycleOf⟩
  refine hfirst.bind fun s1 _ heq hsame => ?_
  rw [← heq] at hre
  exact (leads_reconsider hre).mono fun s2 _ hq => hsame.trans hq.samePlaces

theorem earlierCycle?_ok : Gives r (earlierCycle? n) fun _ r' => r = r' :=
  .move fun _ _ => .ite (fun _ => .ask fun _ _ => .ask fun _ _ => .pure rfl) fun _ => .pure rfl

/-- Bottom-up, only a move that reads a register is worth renaming. -/
theorem laterCycle?_ok : Gives r (laterCycle? n endCycle) fun x r' =>
    r = r' ∧ ∀ c, x = some c → ∃ m, r.graph.move? n = some m ∧ m.src.isRegister := by
  refine .move fun m hm => .ite (fun hreg => .ask fun l _ => ?_) fun _ => .pure ⟨rfl, by simp⟩
  cases l with
  | none => exact .pure ⟨rfl, by simp⟩
  | some b => exact .ask fun _ _ => .pure ⟨rfl, fun _ _ => ⟨m, move?_of_move hm, hreg⟩⟩

theorem leads_tryRename {c : Cycle} (hs : Steady j g0 s) (hmay : s.MayRename j n) :
    Brings j s (do
      if (← Attempt.tryStep reversal [] (.single (.rename n (decide (j.way = .topDown)) c j.way))).1 then
        count fun s => { s with renames := s.renames + 1 }) fun _ => s.SamePlaces := by
  refine .bind (P := fun _ => s.SamePlaces) ?_ fun x s1 _ hsame =>
    .ite (fun _ => .mono leads_count fun _ _ _ hq => hsame.trans hq.samePlaces) fun _ => .pure hsame
  exact gives_tryStep (.bind fun z r3 hz => .pure (leads_rename hs hmay hz))

/-- The live range of a move is renamed, or nothing happens. -/
theorem leads_renameIfUseful (hs : Steady j g0 s) (hmay : s.MayRename j n) :
    Brings j s (renameIfUseful n j.way endCycle) fun _ => s.SamePlaces := by
  refine .get (.ite (fun _ => .pure .refl) fun _ => ?_)
  have htry (c : Cycle) := leads_tryRename (c := c) hs hmay
  cases hway : j.way with
  | topDown =>
    refine .skip earlierCycle?_ok fun x => ?_
    cases x with
    | none => exact .pure .refl
    | some c => exact hway ▸ htry c
  | bottomUp =>
    refine .look laterCycle?_ok fun x _ => ?_
    cases x with
    | none => exact .pure .refl
    | some c => exact hway ▸ htry c

/-- Bottom-up, a move that reads no register is not renamed. -/
theorem renameIfUseful_ok (hno : ∀ m, r.graph.move? n = some m → m.src.isRegister = false) :
    Gives r (renameIfUseful n .bottomUp endCycle) fun _ r' => r = r' := by
  refine .get (.ite (fun _ => .pure rfl) fun _ => .look laterCycle?_ok fun x hreg => ?_)
  cases x with
  | none => exact .pure rfl
  | some c =>
    obtain ⟨m, hm, hr⟩ := hreg c rfl
    rw [hno m hm] at hr
    cases hr

end RegionM

end Transport
