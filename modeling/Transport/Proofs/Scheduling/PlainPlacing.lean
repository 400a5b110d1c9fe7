import Transport.Proofs.Scheduling.Block
import Transport.Proofs.Scheduling.Orphans

/-!
# Placing without bypassing and renaming

Where nothing is bypassed and nothing is renamed, placing a unit gives places to moves of the unit and changes
nothing else of the graph, and it does not fail because of an orphan. The rules for `Tame` say so for
each way to put computations together, so that one short proof per function is left.
-/

namespace Transport

variable {U : List MoveId} {r r' : Region}

/-- From `r` the computation comes to `Q`, or it fails, but not in a `bad` way. -/
def Goes {ε σ α : Type} (bad : ε → Prop) (r : σ) (x : EStateM ε σ α) (Q : α → σ → Prop) : Prop :=
  match x r with
  | .ok a r' => Q a r'
  | .error e _ => ¬ bad e

namespace Goes

variable {ε σ α β : Type} {bad : ε → Prop} {r : σ} {x : EStateM ε σ α} {f : α → EStateM ε σ β} {Q : α → σ → Prop}
  {R : β → σ → Prop}

theorem get {f : σ → EStateM ε σ β} (hf : Goes bad r (f r) R) : Goes bad r (MonadState.get >>= f) R := hf

theorem mono {Q' : α → σ → Prop} (h : Goes bad r x Q) (hQ : ∀ a r', x r = .ok a r' → Q a r' → Q' a r') :
    Goes bad r x Q' := by
  unfold Goes at *
  cases hx : x r with
  | ok a r' => exact hQ a r' hx (by rwa [hx] at h)
  | error e r' => rwa [hx] at h

theorem bind (h : Goes bad r x fun a r' => Goes bad r' (f a) R) : Goes bad r (x >>= f) R := by
  change Goes bad r (EStateM.bind x f) R
  unfold Goes EStateM.bind at *
  cases hx : x r with
  | ok a r' => rwa [hx] at h
  | error e r' => rwa [hx] at h

end Goes

open Transport.Graph
open Relation (ReflTransGen)

def Fault.IsOrphan (f : Fault) : Prop := ∃ n, f = .orphan n

def Halt.IsOrphan (h : Halt) : Prop := ∃ n, h = .fault (.orphan n)

/-- Nothing is bypassed and nothing is renamed. -/
structure Region.Plain (r : Region) : Prop where
  renamer : r.renamer = none
  disabled : r.bypasser.isEnabled = false
  log : r.bypasser.log = []
  candidates : r.bypasser.deadCandidates = []

/-- Some moves of `U` have other places. -/
def Graph.Shifts (U : List MoveId) (g g' : Graph) : Prop :=
  ReflTransGen (fun g g' => ∃ n p, n ∈ U ∧ g.Places n p g') g g'

/-- Some moves of `U` have other places, and whatever is not about places is as it was. -/
structure Region.Shifts (U : List MoveId) (r r' : Region) : Prop where
  machine : r'.machine = r.machine
  renamer : r'.renamer = r.renamer
  selector : r'.selector = r.selector
  bypasser : r'.bypasser = r.bypasser
  graph : r.graph.Shifts U r'.graph

theorem Region.Shifts.refl : r.Shifts U r := ⟨rfl, rfl, rfl, rfl, .refl⟩

theorem Region.Shifts.trans {r'' : Region} (h : r.Shifts U r') (h' : r'.Shifts U r'') : r.Shifts U r'' :=
  ⟨h'.machine.trans h.machine, h'.renamer.trans h.renamer, h'.selector.trans h.selector,
    h'.bypasser.trans h.bypasser, h.graph.trans h'.graph⟩

theorem Region.Plain.shifts (hr : r.Plain) (h : r.Shifts U r') : r'.Plain :=
  ⟨h.renamer.trans hr.renamer, h.bypasser ▸ hr.disabled, h.bypasser ▸ hr.log, h.bypasser ▸ hr.candidates⟩

/-- From a plain region the computation at most gives the moves of `U` other places and comes to a value with
`Q`, or it halts, but not because of an orphan. -/
structure Tame (U : List MoveId) {α : Type} (x : RegionM α) (Q : α → Prop := fun _ => True) : Prop where
  goes {r : Region} : r.Plain → Goes Halt.IsOrphan r x fun a r' => r.Shifts U r' ∧ Q a

/-- A checked computation on the way. -/
theorem Goes.lift {α β : Type} {x : Checked α} {f : α → RegionM β} {R : β → Region → Prop} (hx : Calm x)
    (hf : ∀ a, x = .ok a → Goes Halt.IsOrphan r (f a) R) : Goes Halt.IsOrphan r (RegionM.ofChecked x >>= f) R := by
  cases x with
  | ok a => exact hf a rfl
  | error e =>
    rintro ⟨n, ⟨⟩⟩
    exact hx _ ⟨_, rfl⟩ rfl

namespace Tame

variable {α β : Type} {x : RegionM α} {f : α → RegionM β} {Q : α → Prop} {R : β → Prop}
  {query : Graph → Checked α} {xs : List α} {p : α → RegionM Bool}

theorem pure {a : α} (h : Q a) : Tame U (Pure.pure a : RegionM α) Q := ⟨fun _ => ⟨.refl, h⟩⟩

theorem bind (hx : Tame U x Q) (hf : ∀ a, Q a → Tame U (f a) R) : Tame U (x >>= f) R := by
  refine ⟨fun hr => .bind (.mono (hx.goes hr) fun a r1 _ hfirst => ?_)⟩
  exact .mono ((hf a hfirst.2).goes (hr.shifts hfirst.1)) fun b r2 _ hrest => ⟨hfirst.1.trans hrest.1, hrest.2⟩

theorem mono {Q' : α → Prop} (hx : Tame U x Q) (h : ∀ a, Q a → Q' a) : Tame U x Q' :=
  ⟨fun hr => .mono (hx.goes hr) fun a _ _ hpost => ⟨hpost.1, h a hpost.2⟩⟩

theorem any (hx : Tame U x Q) : Tame U x := hx.mono fun _ _ => trivial

theorem ite {p : Prop} [Decidable p] {y : RegionM α} (hx : p → Tame U x Q) (hy : ¬ p → Tame U y Q) :
    Tame U (if p then x else y) Q := by
  split
  · exact hx ‹_›
  · exact hy ‹_›

theorem raise {e : SchedError} : Tame U (throw (.error e) : RegionM α) Q := by
  constructor
  rintro _ - ⟨_, ⟨⟩⟩

theorem get : Tame U (MonadState.get : RegionM Region) Region.Plain := ⟨fun hr => ⟨.refl, hr⟩⟩

theorem lift_of {x : Checked α} (hx : Calm x) (hQ : ∀ a, x = .ok a → Q a) : Tame U (RegionM.ofChecked x) Q := by
  rw [← bind_pure (RegionM.ofChecked x)]
  exact ⟨fun _ => .lift hx fun a ha => ⟨.refl, hQ a ha⟩⟩

theorem lift {x : Checked α} (hx : Calm x) : Tame U (RegionM.ofChecked x) :=
  lift_of hx fun _ _ => trivial

theorem graph : Tame U RegionM.graph := bind get fun _ _ => pure trivial

theorem ask_of (hq : ∀ g, Calm (query g)) (hQ : ∀ g a, query g = .ok a → Q a) : Tame U (RegionM.ask query) Q :=
  bind graph fun g _ => lift_of (hq g) (hQ g)

theorem ask (hq : ∀ g, Calm (query g)) : Tame U (RegionM.ask query) :=
  ask_of hq fun _ _ _ => trivial

theorem filterM (hp : ∀ a, Tame U (p a)) : Tame U (xs.filterM p) fun ys => ∀ a ∈ ys, a ∈ xs := by
  have haux {xs : List α} (acc : List α) : Tame U (xs.filterAuxM p acc) fun ys => ∀ a ∈ ys, a ∈ acc ∨ a ∈ xs := by
    induction xs generalizing acc with
    | nil => exact pure fun a ha => .inl ha
    | cons x xs ih =>
      refine bind (hp x) fun b _ => (ih _).mono fun ys hys a ha => ?_
      rcases hys a ha with h | h
      · cases b
        · exact .inl h
        · exact (List.mem_cons.1 h).elim (fun h => .inr (h ▸ List.mem_cons_self)) .inl
      · exact .inr (List.mem_cons_of_mem _ h)
  refine bind (haux []) fun ys hys => pure fun a ha => ?_
  exact (hys a (List.mem_reverse.1 ha)).resolve_left (List.not_mem_nil)

theorem mapM {R : α → β → Prop} (hf : ∀ a, Tame U (f a) (R a)) :
    Tame U (xs.mapM f) fun ys => ∀ b ∈ ys, ∃ a ∈ xs, R a b := by
  induction xs with
  | nil => exact pure fun b hb => (List.not_mem_nil hb).elim
  | cons a xs ih =>
    rw [List.mapM_cons]
    refine bind (hf a) fun b hb => bind ih fun bs hbs => pure fun c hc => ?_
    rcases List.mem_cons.1 hc with rfl | hc
    · exact ⟨a, List.mem_cons_self, hb⟩
    · obtain ⟨a', ha', hR⟩ := hbs c hc
      exact ⟨a', List.mem_cons_of_mem _ ha', hR⟩

theorem findM? (hp : ∀ a, Tame U (p a)) : Tame U (xs.findM? p) fun x => ∀ a, x = some a → a ∈ xs := by
  induction xs with
  | nil => exact pure fun _ h => nomatch h
  | cons a xs ih =>
    refine bind (hp a) fun b _ => ?_
    cases b
    · exact ih.mono fun x hx b hb => List.mem_cons_of_mem _ (hx b hb)
    · exact pure fun b hb => Option.some.inj hb ▸ List.mem_cons_self

theorem forM {f : α → RegionM PUnit} (hf : ∀ a ∈ xs, Tame U (f a)) :
    Tame U (xs.forM f) := by
  induction xs with
  | nil => exact pure trivial
  | cons a xs ih =>
    exact bind (hf a List.mem_cons_self) fun _ _ => ih fun b hb => hf b (List.mem_cons_of_mem _ hb)

end Tame

/-! ## Placing a unit -/

namespace RegionM

variable {n : MoveId} {c : Cycle} {ns : List MoveId} {start endCycle upper : Cycle}
  {unit operands results : List MoveId} {trigger : Option MoveId} {options : Options}

theorem tame_note {note : Note} : Tame U (RegionM.note note) := ⟨fun _ => ⟨⟨rfl, rfl, rfl, rfl, .refl⟩, trivial⟩⟩

theorem tame_count {f : Stats → Stats} : Tame U (count f) := ⟨fun _ => ⟨⟨rfl, rfl, rfl, rfl, .refl⟩, trivial⟩⟩

theorem tame_move : Tame U (move n) := .ask fun _ => calm_move

theorem tame_isControlFlow : Tame U (isControlFlow n) := .bind tame_move fun _ _ => .pure trivial

theorem tame_bypasser : Tame U bypasser fun b => b.isEnabled = false :=
  .bind .get fun _ hr => .pure hr.disabled

/-- One move gets another place, or loses the one it has. -/
theorem tame_shift {f : Region → Checked (Usage × Graph)} (hn : n ∈ U) (hcalm : ∀ r, Calm (f r))
    (hplaces : ∀ r u g, f r = .ok (u, g) → ∃ p, r.graph.Places n p g) : Tame U (do
      let r ← get
      let (usage, graph) ← f r
      set { r with usage, graph }) := by
  refine ⟨fun {r} _ => Goes.lift (hcalm r) fun y hy => ?_⟩
  obtain ⟨p, hp⟩ := hplaces r y.1 y.2 hy
  exact ⟨⟨rfl, rfl, rfl, rfl, .single ⟨n, p, hn, hp⟩⟩, trivial⟩

theorem tame_assign (hn : n ∈ U) : Tame U (assign n c) :=
  tame_shift hn (fun _ => Usage.calm_assign) fun r u g h => by
    obtain ⟨m, b, -, -, hp⟩ := places_of_assign h
    exact ⟨_, hp⟩

theorem tame_unassign (hn : n ∈ U) : Tame U (unassign n) :=
  tame_shift hn (fun _ => Usage.calm_unassign) fun r u g h => by
    obtain ⟨m, -, -, hp⟩ := places_of_unassign h
    exact ⟨_, hp⟩

theorem tame_unassignAll (hns : ∀ n ∈ ns, n ∈ U) : Tame U (unassignAll ns) :=
  .forM fun n hn => .bind (.ask fun _ => calm_isSettled) fun _ _ =>
    .ite (fun _ => tame_unassign (hns n hn)) fun _ => .pure trivial

theorem tame_earliestFit : Tame U (earliestFit c n) :=
  .bind .get fun _ _ => .lift Usage.calm_earliestFit

theorem tame_latestFit : Tame U (latestFit c n) :=
  .bind .get fun _ _ => .lift Usage.calm_latestFit

theorem tame_guardBound : Tame U (guardBound n) := by
  refine .bind tame_move fun m _ => ?_
  split
  · exact .bind (.ask fun _ => calm_guardLatency) fun _ _ => .lift Cycle.calm_sub
  · exact .pure trivial

theorem tame_guardedEarliest : Tame U (guardedEarliest n) :=
  .bind (.ask fun _ => calm_earliest) fun _ _ => .bind tame_guardBound fun _ _ => .pure trivial

theorem tame_placeEarly (hn : n ∈ U) : Tame U (placeEarly n c) := by
  refine .bind tame_guardedEarliest fun _ _ => .bind .get fun _ _ => ?_
  refine .bind tame_isControlFlow fun _ _ => ?_
  refine .bind tame_earliestFit fun x _ => ?_
  split
  · exact .bind (tame_assign hn) fun _ _ => .pure trivial
  · exact .pure trivial

theorem tame_placeLate (hn : n ∈ U) : Tame U (placeLate n c) := by
  refine .bind (.ask fun _ => calm_latest) fun _ _ => .bind tame_guardBound fun _ _ => ?_
  refine .bind (.ask fun _ => calm_earliest) fun _ _ => .ite (fun _ => .pure trivial) fun _ => ?_
  refine .bind tame_latestFit fun x _ => ?_
  split
  · exact .ite (fun _ => .pure trivial) fun _ => .bind (tame_assign hn) fun _ _ => .pure trivial
  · exact .pure trivial

/-- Without a renamer there is no renaming. -/
theorem tame_renameIfUseful {way : Direction} : Tame U (renameIfUseful n way c) := by
  refine .bind .get fun r hr => ?_
  rw [if_pos (by rw [hr.renamer]; rfl)]
  exact .pure trivial

theorem tame_forcedOperand? : Tame U (forcedOperand? ns) :=
  .any <| .findM? fun _ => .bind .graph fun _ _ => .bind tame_move fun _ _ => .pure trivial

theorem tame_operandsAndResults : Tame U (operandsAndResults ns) fun x =>
    (∀ n ∈ x.1, n ∈ ns) ∧ ∀ n ∈ x.2, n ∈ ns :=
  .bind (.filterM fun _ => .bind tame_move fun _ _ => .pure trivial) fun _ hops =>
    .bind (.filterM fun _ => .bind tame_move fun _ _ => .pure trivial) fun _ hres => .pure ⟨hops, hres⟩

/-! ### Top-down -/

theorem tame_operandOrder : Tame U (operandOrder ns) fun xs => ∀ n ∈ xs, n ∈ ns := by
  have htrigger (n : MoveId) : Tame U (do return (← move n).isTrigger) :=
    .bind tame_move fun _ _ => .pure trivial
  refine .bind (.filterM fun n => .bind (htrigger n) fun _ _ => .pure trivial) fun others hothers => ?_
  refine .bind (.filterM htrigger) fun triggers htriggers => ?_
  have happend {xs : List MoveId} (hxs : ∀ n ∈ xs, n ∈ others) : ∀ n ∈ xs ++ triggers, n ∈ ns := fun n hn =>
    (List.mem_append.1 hn).elim (fun h => hothers n (hxs n h)) (htriggers n)
  split
  · exact .pure (happend fun _ h => h)
  · exact .pure (happend fun _ h => h)
  · refine .bind (.mapM (R := fun n x => x.2 = n) fun n => .bind (.ask fun _ => calm_earliest) fun _ _ => .pure rfl)
      fun keyed hkeyed => .pure (happend fun n hn => ?_)
    obtain ⟨x, hx, rfl⟩ := List.mem_map.1 hn
    obtain ⟨a, ha, hxa⟩ := hkeyed x ((sortBy_perm _ _).mem_iff.1 hx)
    exact hxa ▸ ha

section

variable (hns : ∀ n ∈ ns, n ∈ U)
include hns

theorem tame_placeOperandsFrom {cs : OperandCycles} : Tame U (placeOperandsFrom start ns cs) := by
  induction ns generalizing cs with
  | nil => exact .pure trivial
  | cons n ns ih =>
    refine .bind tame_move fun _ _ => .bind (tame_placeEarly (hns n List.mem_cons_self)) fun x _ => ?_
    split
    · exact ih fun k hk => hns k (List.mem_cons_of_mem _ hk)
    · exact .pure trivial

theorem tame_placeOperandRounds {order : List MoveId} {rounds : Nat}
    (horder : ∀ n ∈ order, n ∈ U) : Tame U (placeOperandRounds ns order rounds start) := by
  induction rounds generalizing start with
  | zero => exact .pure trivial
  | succ rounds ih =>
    refine .bind (tame_placeOperandsFrom horder) fun x _ => .ite (fun _ => .pure trivial) fun _ => ?_
    exact .bind (tame_unassignAll hns) fun _ _ => .bind (.lift Cycle.calm_add) fun _ _ => ih

theorem tame_placeOperands : Tame U (placeOperands ns start) :=
  .ite (fun _ => .pure trivial) fun _ => .bind tame_operandOrder fun _ hxs =>
    tame_placeOperandRounds hns fun n hn => hns n (hxs n hn)

theorem tame_placeResultsEarly : Tame U (placeResultsEarly ns) := by
  induction ns with
  | nil => exact .pure trivial
  | cons n ns ih =>
    refine .bind tame_renameIfUseful fun _ _ => .bind (tame_placeEarly (hns n List.mem_cons_self)) fun x _ => ?_
    split
    · exact ih fun k hk => hns k (List.mem_cons_of_mem _ hk)
    · exact .pure trivial

theorem tame_rejectForced : Tame U (rejectForced ns) := by
  refine .bind tame_forcedOperand? fun x _ => ?_
  split
  · exact .bind tame_note fun _ _ => .bind (tame_unassignAll hns) fun _ _ => .raise
  · exact .pure trivial

end

/-- Nothing is bypassed, so each try gives up the same places. -/
theorem tame_tryEarly (hops : ∀ n ∈ operands, n ∈ U) (hres : ∀ n ∈ results, n ∈ U) :
    Tame U (tryEarly options unit operands results start false) fun x =>
      ∀ c b, x = .again c b → b = false := by
  refine .bind (tame_placeOperands hops) fun x _ => ?_
  split
  · exact .bind tame_count fun _ _ => .pure fun _ _ h => by cases h; rfl
  refine .bind (Q := fun k => k = some 0) (.pure rfl) fun k hk => ?_
  subst hk
  refine .bind (tame_rejectForced hops) fun _ _ => ?_
  refine .bind (tame_placeResultsEarly hres) fun placed _ => .ite (fun _ => ?_) fun _ => ?_
  · refine .bind tame_count fun _ _ => .ite (fun _ => .bind tame_note fun _ _ => ?_) fun _ => ?_
    · exact .pure fun _ _ h => nomatch h
    · exact .pure fun _ _ h => nomatch h
  · refine .bind (tame_unassignAll hres) fun _ _ => .bind tame_count fun _ _ => ?_
    refine .ite (fun h => absurd h (Nat.lt_irrefl 0)) fun _ => .bind (tame_unassignAll hops) fun _ _ => ?_
    exact .bind (.lift Cycle.calm_add) fun _ _ => .pure fun _ _ h => by cases h; rfl

theorem tame_retryEarly {horizon : Cycle}
    {fuel : Nat} (hops : ∀ n ∈ operands, n ∈ U) (hres : ∀ n ∈ results, n ∈ U) :
    Tame U (retryEarly options unit operands results horizon fuel start false) := by
  induction fuel generalizing start with
  | zero => exact .pure trivial
  | succ fuel ih =>
    refine .ite (fun _ => .pure trivial) fun _ => .bind (tame_tryEarly hops hres) fun x hx => ?_
    split
    · exact .pure trivial
    · rename_i c b
      obtain rfl := hx c b rfl
      exact ih

section

variable (hns : ∀ n ∈ ns, n ∈ U)
include hns

theorem tame_placeOperationEarly : Tame U (placeOperationEarly options ns) := by
  refine .bind tame_operandsAndResults fun x hx => .bind tame_count fun _ _ => .bind tame_bypasser fun b hb => ?_
  refine .bind .get fun _ _ => .bind (.lift Cycle.calm_add) fun _ _ => ?_
  rw [hb]
  refine .bind (tame_retryEarly (fun n hn => hns n (hx.1 n hn)) fun n hn => hns n (hx.2 n hn)) fun _ _ => ?_
  exact .ite (fun _ => .pure trivial) fun _ => .raise

/-! ### Bottom-up -/

theorem tame_placeResultsLate : Tame U (placeResultsLate endCycle start ns) := by
  induction ns with
  | nil => exact .pure trivial
  | cons n ns ih =>
    refine .bind tame_renameIfUseful fun _ _ => .bind (tame_placeLate (hns n List.mem_cons_self)) fun x _ => ?_
    split
    · exact ih fun k hk => hns k (List.mem_cons_of_mem _ hk)
    · exact .pure trivial

theorem tame_placeOperandsUpTo {last : Option Cycle} : Tame U (placeOperandsUpTo upper ns last) := by
  induction ns generalizing last with
  | nil => exact .pure trivial
  | cons n ns ih =>
    refine .bind (tame_placeLate (hns n List.mem_cons_self)) fun x _ => ?_
    split
    · exact ih fun k hk => hns k (List.mem_cons_of_mem _ hk)
    · exact .pure trivial

theorem tame_placeInputsUpTo
    (ht : ∀ t, trigger = some t → t ∈ U) : Tame U (placeInputsUpTo ns trigger upper) := by
  refine .bind (tame_placeOperandsUpTo hns) fun x _ => .ite (fun _ => ?_) fun _ => .pure trivial
  split
  · rename_i t
    refine .bind (tame_placeLate (ht t rfl)) fun y _ => ?_
    split
    · refine .ite (fun _ => .pure trivial) fun _ => .bind (tame_unassignAll fun n hn => ?_) fun _ _ => .pure trivial
      exact List.mem_singleton.1 hn ▸ ht t rfl
    · exact .pure trivial
  · exact .pure trivial

end

theorem tame_lowerTrigger {others : List MoveId} {k : Nat}
    (hops : ∀ n ∈ operands, n ∈ U) (hothers : ∀ n ∈ others, n ∈ U) (ht : ∀ t, trigger = some t → t ∈ U) :
    Tame U (lowerTrigger operands others trigger k) := by
  induction k with
  | zero => exact .pure trivial
  | succ k ih =>
    refine .bind (tame_placeInputsUpTo hothers ht) fun _ _ => .ite (fun _ => .pure trivial) fun _ => ?_
    exact .bind (tame_unassignAll hops) fun _ _ => ih

theorem tame_placeInputsLate (hns : ∀ n ∈ ns, n ∈ U) : Tame U (placeInputsLate ns start) := by
  refine .bind (.findM? fun _ => .bind tame_move fun _ _ => .pure trivial) fun trigger htrigger => ?_
  have hlower {upper : Cycle} : Tame U (lowerTrigger ns (ns.filter fun n => some n ≠ trigger) trigger
      (upper + 1).toNat) :=
    tame_lowerTrigger hns (fun n hn => hns n (List.mem_filter.1 hn).1) fun t ht => hns t (htrigger t ht)
  cases trigger with
  | none => exact .bind (Q := fun _ => True) (.pure trivial) fun _ _ => hlower
  | some t =>
    refine .bind (.ask fun _ => calm_latest) fun l _ => ?_
    cases l <;> exact .bind (Q := fun _ => True) (.pure trivial) fun _ _ => hlower

theorem tame_retryLate {k : Nat} (hops : ∀ n ∈ operands, n ∈ U) (hres : ∀ n ∈ results, n ∈ U) :
    Tame U (retryLate options endCycle unit operands results k) := by
  induction k with
  | zero => exact .pure trivial
  | succ k ih =>
    have hagain : Tame U (do
        unassignAll results
        count fun s => { s with operationRetries := s.operationRetries + 1 }
        retryLate options endCycle unit operands results k) :=
      .bind (tame_unassignAll hres) fun _ _ => .bind tame_count fun _ _ => ih
    refine .bind (tame_placeResultsLate hres) fun _ _ => .ite (fun _ => ?_) fun _ => hagain
    refine .bind (tame_placeInputsLate hops) fun _ _ => .ite (fun _ => ?_) fun _ => hagain
    exact .ite (fun _ => .bind tame_note fun _ _ => .pure trivial) fun _ => .pure trivial

theorem tame_rejectForcedLate : Tame U (rejectForcedLate ns 0) := by
  refine .bind tame_forcedOperand? fun x _ => ?_
  split
  · refine .bind tame_note fun _ _ => .ite (fun h => absurd h (Nat.lt_irrefl 0)) fun _ => .raise
  · exact .pure trivial

theorem tame_bypassBelow : Tame U (bypassBelow ns) fun k => k = 0 := by
  refine .bind tame_bypasser fun b hb => ?_
  rw [hb]
  exact .pure rfl

theorem tame_placeOperationLate (hns : ∀ n ∈ ns, n ∈ U) :
    Tame U (placeOperationLate options endCycle ns) := by
  refine .bind tame_operandsAndResults fun x hx => .bind tame_count fun _ _ => ?_
  refine .bind tame_bypassBelow fun k hk => ?_
  subst hk
  refine .bind tame_rejectForcedLate fun _ _ => ?_
  refine .bind (tame_retryLate (fun n hn => hns n (hx.1 n hn)) fun n hn => hns n (hx.2 n hn)) fun _ _ => ?_
  refine .ite (fun _ => .bind tame_count fun _ _ => .pure trivial) fun _ => ?_
  exact .ite (fun h => absurd h (Nat.lt_irrefl 0)) fun _ => .raise

/-! ### Units -/

theorem tame_placeLone (hn : n ∈ U) : Tame U (placeLone options endCycle n) := by
  refine .bind tame_renameIfUseful fun _ _ => ?_
  cases options.direction with
  | topDown => exact .bind (tame_placeEarly hn) fun _ _ => .ite (fun _ => .raise) fun _ => .pure trivial
  | bottomUp => exact .bind (tame_placeLate hn) fun _ _ => .ite (fun _ => .raise) fun _ => .pure trivial

theorem tame_placeUnit : Tame ns (placeUnit options endCycle ns) := by
  have hpending : Tame ns (RegionM.ask (Group.pending ns)) fun ks => ∀ n ∈ ks, n ∈ ns :=
    .ask_of (fun _ => Group.calm_pending) fun g ks h n hn => ((mem_of_filterM_eq_ok h).1 hn).1
  refine .bind hpending fun ks hks => .ite (fun _ => .pure trivial) fun _ => ?_
  refine .bind (.ask fun _ => Group.calm_isOperation) fun b _ => .ite (fun _ => ?_) fun _ => ?_
  · cases options.direction with
    | topDown => exact tame_placeOperationEarly hks
    | bottomUp => exact tame_placeOperationLate hks
  · exact .forM fun n hn => tame_placeLone (hks n hn)

end RegionM

end Transport
