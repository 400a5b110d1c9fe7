import Transport.Proofs.Selection.Completeness

/-!
# Reports

Where nothing is bypassed and nothing is renamed, the reports of the scheduler leave no ready group behind: the
last sweep of the selector finds nothing. A bypass takes out the edges that reports go along, and so does a
renaming.
-/

namespace Transport

open Transport.Graph
open Relation (ReflTransGen)

variable {g g' : Graph} {n k : MoveId} {x x' : Selector} {group : Group} {ns : List MoveId}
  {notes notes' : List Note} {way : Direction}

/-! ## Runs -/

/-- Taking notes, the computation does not fail because of an orphan. -/
def Mild {α : Type} (x : Logged α) : Prop := ∀ notes, Goes Fault.IsOrphan notes x fun _ _ => True

theorem Goes.logged {α β : Type} {x : Checked α} {f : α → Logged β} {R : β → List Note → Prop} (hx : Calm x)
    (hf : ∀ a, x = .ok a → Goes Fault.IsOrphan notes (f a) R) :
    Goes Fault.IsOrphan notes ((liftM x : Logged α) >>= f) R := by
  cases x with
  | ok a => exact hf a rfl
  | error e => exact fun horphan => hx _ horphan rfl

/-- A computation on the way that takes notes. -/
theorem Goes.tell {α β : Type} {r : Region} {x : Logged α} {f : α → RegionM β} {Q : α → List Note → Prop}
    {R : β → Region → Prop} (hx : Goes Fault.IsOrphan r.notes x Q)
    (hf : ∀ a notes, Q a notes → Goes Halt.IsOrphan { r with notes } (f a) R) :
    Goes Halt.IsOrphan r (RegionM.ofLogged x >>= f) R := by
  refine .bind ?_
  unfold Goes RegionM.ofLogged EStateM.run at *
  cases h : x r.notes with
  | ok a notes =>
    rw [h] at hx
    exact hf a notes hx
  | error e notes =>
    rw [h] at hx
    rintro ⟨n, ⟨⟩⟩
    exact hx ⟨n, rfl⟩

namespace Mild

variable {α β : Type} {xs : List α}

theorem pure (a : α) : Mild (Pure.pure a : Logged α) := fun _ => trivial

theorem bind {x : Logged α} {f : α → Logged β} (hx : Mild x) (hf : ∀ a, Mild (f a)) : Mild (x >>= f) :=
  fun notes => .bind (.mono (hx notes) fun a notes' _ _ => hf a notes')

theorem lift {x : Checked α} (hx : Calm x) : Mild (liftM x : Logged α) := by
  rw [← bind_pure (liftM x : Logged α)]
  exact fun _ => .logged hx fun _ _ => trivial

theorem note (n : Note) : Mild (Logged.note n) := fun _ => trivial

theorem ite {p : Prop} [Decidable p] {x y : Logged α} (hx : Mild x) (hy : Mild y) :
    Mild (if p then x else y) := by
  split
  · exact hx
  · exact hy

theorem allM {p : α → Logged Bool} (hp : ∀ a, Mild (p a)) : Mild (xs.allM p) := by
  induction xs with
  | nil => exact pure true
  | cons a xs ih =>
    refine bind (hp a) fun b => ?_
    cases b
    · exact pure false
    · exact ih

theorem foldlM {f : β → α → Logged β} {b : β} (hf : ∀ b a, Mild (f b a)) : Mild (xs.foldlM f b) := by
  induction xs generalizing b with
  | nil => exact pure b
  | cons a xs ih => exact bind (hf b a) fun b => ih

end Mild

theorem Graph.mild_companions : Mild (g.companions n) := by
  refine .bind (.lift calm_move) fun m => .bind ?_ fun source => .pure _
  unfold forcedSource
  split
  · refine .ite (.bind (.lift ?_) fun source => .ite (.bind (.note _) fun _ => .pure _) (.pure _)) (.pure _)
    refine avoids_bind calm_move fun m => ?_
    dsimp only
    split <;> exact avoids_pure _
  · exact .pure _

theorem Graph.mild_groupOf : Mild (g.groupOf n) := by
  have hclose (fuel : Nat) (seen : MoveIdSet) (work group : List MoveId) :
      Mild (g.closeGroup fuel seen work group) := by
    induction fuel generalizing seen work group with
    | zero => cases work <;> exact .pure _
    | succ fuel ih =>
      cases work with
      | nil => exact .pure _
      | cons n work => exact .bind mild_companions fun ks => ih _ _ _
  exact .bind (hclose _ _ _ _) fun _ => .pure _

namespace Selector

theorem calm_isReady : Calm (x.isReady g n group) := by
  rw [isReady_eq]
  exact avoids_bind calm_move fun _ => avoids_pure _

theorem mild_offer : Mild (x.offer g n) := by
  refine .bind (.lift calm_isPending) fun _ => .ite (.ite (.pure _) ?_) (.pure _)
  refine .bind mild_groupOf fun all => .bind (.lift Group.calm_pending) fun group => .ite (.pure _) ?_
  refine .bind (.allM fun m => .lift calm_isReady) fun _ => .ite ?_ (.pure _)
  refine .bind (.lift (avoids_foldlM fun s m => ?_)) fun _ => .pure _
  exact avoids_bind calm_distance fun _ => avoids_pure _

theorem mild_offerAll : Mild (x.offerAll g ns) := .foldlM fun _ _ => .bind mild_offer fun _ => .pure _

theorem mild_notify : Mild (x.notify g n) := by
  unfold notify
  split
  · exact .bind (.lift calm_successors) fun _ => .bind mild_offerAll fun _ => mild_offerAll
  · exact .bind (.lift calm_predecessors) fun _ => mild_offerAll

theorem calm_take : Calm (x.take g) := by
  have hfirst (fuel : Nat) (ready : Heap Candidate) : Calm (firstPending g fuel ready) := by
    induction fuel generalizing ready with
    | zero => exact avoids_pure _
    | succ fuel ih =>
      unfold firstPending
      split
      · refine avoids_bind Group.calm_pending fun ks => ?_
        split
        · exact ih _
        · exact avoids_pure _
      · exact avoids_pure _
  exact avoids_bind (hfirst _ _) fun _ => avoids_pure _

/-- The last sweep finds nothing that was not reported. -/
theorem recoverOrphans_of_misses (h : x.Misses g []) :
    Goes Fault.IsOrphan notes (x.recoverOrphans g) fun y _ => y = (x, g) := by
  unfold recoverOrphans
  generalize g.moveIds.filter _ = ns
  induction ns generalizing notes with
  | nil => rfl
  | cons n ns ih =>
    rw [List.foldlM_cons]
    refine .bind (.bind (.mono (mild_offer notes) fun y notes1 ho _ => ?_))
    obtain ⟨b, x1, g1⟩ := y
    rcases offer_cases ho with ⟨rfl, rfl, rfl, -⟩ | ⟨-, -, group, -, hacc, -⟩
    · exact ih
    · obtain ⟨k, hk, -⟩ := h n group hacc.ripe
      exact absurd hk List.not_mem_nil

theorem Told.next (hx : x.Told g) (h : x.Misses g []) : Goes Fault.IsOrphan notes (x.next g) fun y _ =>
    y.2.1.Told y.2.2 ∧ y.2.1.Misses y.2.2 [] ∧ ∀ n ∈ y.1, y.2.1.queued.has n.val := by
  refine .logged calm_take fun y htake => ?_
  obtain ⟨first, x1⟩ := y
  obtain ⟨hx1, h1, hfirst⟩ := hx.take h htake
  cases first with
  | nil =>
    refine .bind (.mono (recoverOrphans_of_misses h1) fun y _ _ hy => ?_)
    subst hy
    exact .logged calm_take fun y htake => hx1.take h1 htake
  | cons n ns => exact ⟨hx1, h1, hfirst⟩

end Selector

/-- Nothing is bypassed or renamed, the moves `U` were queued, and nothing is missed if `ks` are reported. -/
def Region.Informed (r : Region) (U ks : List MoveId) : Prop := r.Plain ∧
  ∃ x, r.selector = some x ∧ x.Told r.graph ∧ x.Misses r.graph ks ∧ ∀ n ∈ U, x.queued.has n.val

/-- From a region with `P` the computation comes to one with `Q`, or it halts, but not because of an orphan. -/
structure Passes (P : Region → Prop) {α : Type} (x : RegionM α) (Q : α → Region → Prop) : Prop where
  goes {r : Region} : P r → Goes Halt.IsOrphan r x Q

namespace Passes

variable {α β : Type} {P : Region → Prop} {x : RegionM α} {f : α → RegionM β} {Q : α → Region → Prop}
  {R : β → Region → Prop}

theorem pure {a : α} (h : ∀ r, P r → Q a r) : Passes P (Pure.pure a : RegionM α) Q := ⟨fun {r} hr => h r hr⟩

theorem bind (hx : Passes P x Q) (hf : ∀ a, Passes (Q a) (f a) R) : Passes P (x >>= f) R :=
  ⟨fun hr => .bind (.mono (hx.goes hr) fun a _ _ ha => (hf a).goes ha)⟩

theorem of_tame {U : List MoveId} {Q : α → Prop} {R : α → Region → Prop} (h : Tame U x Q) (hP : ∀ r, P r → r.Plain)
    (hR : ∀ r r' a, P r → r.Shifts U r' → Q a → R a r') : Passes P x R :=
  ⟨fun {r} hr => .mono (h.goes (hP r hr)) fun a r' _ hpost => hR r r' a hr hpost.1 hpost.2⟩

theorem under {p : Prop} (h : p → Passes P x Q) : Passes (fun r => P r ∧ p) x Q := ⟨fun hr => (h hr.2).goes hr.1⟩

end Passes

theorem Region.Informed.shifts {r r' : Region} {U ks : List MoveId} (h : r.Informed U ks) (hs : r.Shifts [] r') :
    r'.Informed U ks := by
  obtain ⟨hplain, x, hsel, hx⟩ := h
  have hgraph : r'.graph = r.graph := by
    rcases hs.graph.cases_tail with heq | ⟨_, -, _, _, hn, -⟩
    · exact heq
    · exact absurd hn List.not_mem_nil
  exact ⟨hplain.shifts hs, x, hs.selector.trans hsel, hgraph ▸ hx⟩

namespace RegionM

variable {U ks unit : List MoveId} {options : Options} {endCycle : Cycle}

theorem passes_nextGroup : Passes (Region.Informed · U []) nextGroup fun group r => r.Informed group [] := by
  constructor
  rintro r ⟨hplain, x, hsel, hx, hm, -⟩
  refine .get ?_
  simp only [hsel]
  refine .tell (hx.next hm) fun y notes hy => ?_
  exact ⟨⟨hplain.renamer, hplain.disabled, hplain.log, hplain.candidates⟩, y.2.1, rfl, hy⟩

theorem passes_report : Passes (Region.Informed · U (n :: ks))
    (do if ← ask (·.isSettled n) then updateSelector fun s g => s.notify g n) fun _ r => r.Informed U ks := by
  constructor
  rintro r ⟨hplain, x, hsel, hx, hm, hU⟩
  refine .bind (.mono ((Tame.ask (U := []) fun _ => calm_isSettled).goes hplain) fun b r1 hask _ => ?_)
  obtain ⟨hb, rfl⟩ := ask_ok.1 hask
  cases b with
  | false =>
    refine ⟨hplain, x, hsel, hx, fun n0 group hr => ?_, hU⟩
    obtain ⟨k, hk, hrest, hmem⟩ := hm n0 group hr
    rcases List.mem_cons.1 hk with rfl | hk
    · simp only [isSettled, bind_eq_ok, pure_eq_ok] at hb
      obtain ⟨m, hmove, hb⟩ := hb
      obtain ⟨m', hm', hon⟩ := hrest
      cases (move?_of_move hmove).symm.trans hm'
      simp [hx.live hm', Move.isPlaced, hon] at hb
    · exact ⟨k, hk, hrest, hmem⟩
  | true =>
    refine Goes.get ?_
    simp only [hsel]
    refine .tell (.mono (Selector.mild_notify r.notes) fun y notes hnotify _ => hnotify) fun y notes hnotify => ?_
    obtain ⟨ns, ho, -⟩ := Selector.offers_of_notify hnotify
    obtain ⟨hx', hm'⟩ := hm.notify hx hnotify
    exact ⟨⟨hplain.renamer, hplain.disabled, hplain.log, hplain.candidates⟩, y.1, rfl, hx', hm',
      fun k hk => ho.queued (hU k hk)⟩

theorem passes_reportUnit : Passes (Region.Informed · U unit) (reportUnit unit) fun _ r => r.Informed U [] := by
  induction unit with
  | nil => exact .pure fun _ h => h
  | cons n unit ih => exact .bind passes_report fun _ => ih

theorem passes_placeUnitAndReport (hunit : ∀ n ∈ unit, n ∈ U) : Passes (Region.Informed · U [])
    (placeUnitAndReport options endCycle unit) fun _ r => r.Informed U [] := by
  refine .bind (Passes.of_tame tame_placeUnit (fun _ h => h.1) ?_) fun _ => passes_reportUnit
  rintro r r' v ⟨hplain, x, hsel, hx, hm, hU⟩ hs -
  have hunit' : ∀ n ∈ unit, x.queued.has n.val := fun n hn => hU n (hunit n hn)
  exact ⟨hplain.shifts hs, x, hs.selector.trans hsel, hx.shifts hunit' hs.graph, hm.shifts hx hunit' hs.graph, hU⟩

theorem passes_placeUnits {units : List (List MoveId)} (hunits : ∀ unit ∈ units, ∀ n ∈ unit, n ∈ U) :
    Passes (Region.Informed · U []) (units.forM (placeUnitAndReport options endCycle)) fun _ r => r.Informed U [] := by
  induction units with
  | nil => exact .pure fun _ h => h
  | cons unit units ih =>
    exact .bind (passes_placeUnitAndReport (hunits unit List.mem_cons_self)) fun _ =>
      ih fun unit' h => hunits unit' (List.mem_cons_of_mem _ h)

theorem passes_placeGroups {fuel : Nat} : Passes (Region.Informed · U []) (placeGroups options endCycle fuel)
    fun _ r => r.Plain := by
  induction fuel generalizing U with
  | zero => exact .pure fun _ h => h.1
  | succ fuel ih =>
    refine .bind passes_nextGroup fun group => ?_
    by_cases hempty : group.isEmpty
    · simp only [hempty, if_true]
      exact .pure fun _ h => h.1
    simp only [hempty]
    refine .bind (Q := fun _ r => r.Informed group [])
      (.of_tame tame_count (fun _ h => h.1) fun _ _ _ h hs _ => h.shifts hs) fun _ => ?_
    have hunits : Tame [] (ask fun g => group.orderedUnits g options.direction)
        fun units => ∀ unit ∈ units, ∀ n ∈ unit, n ∈ group := by
      refine .ask_of (fun _ => Group.calm_orderedUnits) fun g units h unit hunit n hn => ?_
      obtain ⟨-, k, rfl⟩ := ((Group.mem_orderedUnits h).1 unit).1 hunit
      exact (List.mem_filter.1 hn).1
    refine .bind (.of_tame hunits (fun _ h => h.1) fun _ _ _ h hs hsub => And.intro (h.shifts hs) hsub) fun units => ?_
    exact .under fun hsub => .bind (passes_placeUnits hsub) fun _ => ih

/-- No bypass has left a dead result. -/
theorem dropDeadResults_of_plain {r : Region} (h : r.Plain) : dropDeadResults r = .ok 0 r := by
  obtain ⟨-, -, hlog, hcandidates⟩ := h
  cases r with
  | mk machine usage graph renamer selector bypasser stats notes =>
    cases bypasser
    cases hlog
    cases hcandidates
    rfl

theorem passes_placeAll : Passes (Region.Informed · U []) (placeAll options) fun _ r => r.Plain := by
  refine .bind (Q := fun _ r => r.Informed U []) ?_ fun g => ?_
  · exact .of_tame .graph (fun _ h => h.1) fun _ _ _ h hs _ => h.shifts hs
  have hend : Calm (endCycleOf g) :=
    avoids_bind (avoids_foldlM fun _ _ => calm_addWord) fun _ => avoids_bind calm_addWord fun _ => Cycle.calm_add
  have hplace (endCycle : Cycle) : Passes (Region.Informed · U []) (do
      placeGroups options endCycle (g.moves.size + 1)
      rejectUnplaced
      let removed ← dropDeadResults
      count fun s => { s with deadResultsRemoved := s.deadResultsRemoved + removed }
      clearBypasses) fun _ r => r.Plain := by
    refine .bind passes_placeGroups fun _ => ?_
    have hreject : Tame [] rejectUnplaced :=
      .bind .graph fun _ _ => .ite (fun _ => .bind tame_note fun _ _ => .raise) fun _ => .pure trivial
    refine .bind (.of_tame hreject (fun _ h => h) fun _ _ _ h hs _ => h.shifts hs) fun _ => ?_
    refine ⟨fun {r} hr => .bind ?_⟩
    rw [Goes, dropDeadResults_of_plain hr]
    exact ⟨hr.renamer, hr.disabled, rfl, rfl⟩
  cases options.direction with
  | topDown => exact .bind (Q := fun _ r => r.Informed U []) (.pure fun _ h => h) hplace
  | bottomUp =>
    refine .bind (Q := fun _ r => r.Informed U []) ?_ hplace
    exact .of_tame (.lift hend) (fun _ h => h.1) fun _ _ _ h hs _ => h.shifts hs

end RegionM

/-! ## Whole blocks -/

namespace Graph

/-- Is `n` ready at first if the moves of `group` are placed together with it? -/
def isFree (g : Graph) (way : Direction) (n : MoveId) (group : List MoveId) : Checked Bool :=
  match way with
  | .topDown => g.predecessorsPlaced n group
  | .bottomUp => g.successorsPlaced n group

/-- The moves that a selector looks at first. -/
def roots (g : Graph) (way : Direction) : List MoveId :=
  match way with
  | .topDown => g.sources
  | .bottomUp => g.sinks

/-- It does not matter from which of its moves a group is collected, and a group that waits for nothing outside
has a root. -/
structure Reportable (g : Graph) (way : Direction) : Prop where
  returns {n k : MoveId} : g.Companion n k → ReflTransGen g.Companion k n
  rooted {n : MoveId} {ks : List MoveId} : n ∈ ks →
    (∀ k, k ∈ ks ↔ ReflTransGen g.Companion n k ∧ g.Waits k) → (∀ k ∈ ks, g.isFree way k ks = .ok true) →
    ∃ k ∈ ks, k ∈ g.roots way

end Graph

namespace Selector

theorem told_start (orphans : OrphanPolicy) (hg : g.Reportable way) (hlinked : g.Linked) (hfresh : g.Fresh) :
    Told { direction := way, orphans, controlFlow := g.moveIds.filter fun n => (g.move? n).any Move.controlFlow }
      g where
  linked := hlinked
  live := hfresh.live
  returns := hg.returns
  controlFlow {n m} hm hflow := List.mem_filter.2 ⟨mem_moveIds.2 ⟨m, hm, hfresh.live hm⟩, by simp [hm, hflow]⟩
  listed hc := by simp [Heap.toList] at hc
  whole _ _ hqueued := by simp [MoveSet.has_empty] at hqueued

/-- At first a group that waits for nothing is on the list because of its root. -/
theorem told_of_ofGraph {orphans : OrphanPolicy} (hg : g.Reportable way) (hlinked : g.Linked)
    (hfresh : g.Fresh) (h : Selector.ofGraph g way orphans notes = .ok (x, g') notes') :
    x.Told g' ∧ x.Misses g' [] := by
  have ho : Offers (g.roots way) _ g x g' := offers_offerAll h
  have hx := told_start orphans hg hlinked hfresh
  refine ⟨hx.offers ho, fun n group hr => ?_⟩
  have hr0 := hr.of_offers ho
  obtain ⟨k, hk, hroot⟩ := hg.rooted hr0.start hr0.mem fun k hk => hr0.ready hk
  exact absurd hk (hx.not_mem_of_offers ho hroot hr)

end Selector

namespace RegionM

variable {options : Options}

section

variable (hdist : options.bypassDistance = 0) (hg : g.Reportable options.direction) (hlinked : g.Linked)
  (hfresh : g.Fresh)
include hdist hg hlinked hfresh

theorem passes_prepare :
    Passes (fun r => r.graph = g ∧ (r.renamer = none ∨ options.renameRegisters = false)) (prepare options)
      fun _ r => r.Informed [] [] := by
  constructor
  rintro r ⟨rfl, hren⟩
  refine .tell (x := Selector.ofGraph r.graph options.direction options.orphans)
    (.mono (Selector.mild_offerAll r.notes) fun y notes hy _ => hy) fun y notes hy => ?_
  obtain ⟨hx, hm⟩ := Selector.told_of_ofGraph hg hlinked hfresh hy
  refine ⟨⟨?_, ?_, rfl, rfl⟩, y.1, rfl, hx, hm, fun _ hn => absurd hn List.not_mem_nil⟩
  · rcases hren with hren | hren <;> simp [hren]
  · simp [Bypasser.isEnabled, hdist]

theorem passes_scheduleWithin :
    Passes (fun r => r.graph = g ∧ (r.renamer = none ∨ options.renameRegisters = false)) (scheduleWithin options)
      fun _ r => r.Plain := by
  have hcalm (g : Graph) (stats : Stats) : Calm (Schedule.ofGraph g stats) := by
    unfold Schedule.ofGraph
    dsimp only
    split
    · exact avoids_bind Cycle.calm_sub fun _ => avoids_bind Cycle.calm_add fun _ => avoids_pure _
    · exact avoids_pure _
  have hend : Tame [] (do
      let r ← get
      let schedule ← Schedule.ofGraph r.graph r.stats
      note (.finished schedule.moveCount schedule.length r.stats)
      return schedule) :=
    .bind .get fun _ _ => .bind (.lift (hcalm _ _)) fun _ _ => .bind tame_note fun _ _ => .pure trivial
  refine .bind (passes_prepare hdist hg hlinked hfresh) fun _ => ?_
  have hkeep {α : Type} {x : RegionM α} (h : Tame [] x) :
      Passes (Region.Informed · [] []) x fun _ r => r.Informed [] [] :=
    .of_tame h (fun _ h => h.1) fun _ _ _ h hs _ => h.shifts hs
  refine .bind (hkeep .graph) fun _ => .bind (hkeep tame_note) fun _ => ?_
  refine .bind passes_placeAll fun _ => ?_
  exact .of_tame hend (fun _ h => h) fun _ _ _ h hs _ => h.shifts hs

end

end RegionM

namespace Program

variable {p : Program} {machine : Machine} {options : Options} {renamer : Option Renamer} {r : Region}

/-- Where one of the moves of a list has a property or there is a smaller move, one has it. -/
theorem exists_of_smaller {ks : List MoveId} {P : MoveId → Prop} (size : MoveId → Nat) (hn : n ∈ ks)
    (h : ∀ k ∈ ks, P k ∨ ∃ j ∈ ks, size j < size k) : ∃ k ∈ ks, P k := by
  induction hsize : size n using Nat.strongRecOn generalizing n with
  | ind s ih =>
    rcases h n hn with hP | ⟨j, hj, hlt⟩
    · exact ⟨n, hn, hP⟩
    · exact ih (size j) (hsize ▸ hlt) hj rfl

/-- Without forced-bypass files, moves are companions if they share an operation. -/
theorem companion_iff (hg : g.Formed machine) (hfresh : g.Fresh) (hforced : ∀ r, g.isForced r = false) :
    g.Companion n k ↔ ∃ m m', g.move? n = some m ∧ g.move? k = some m' ∧ m'.sharesOperation m := by
  have hmoves {o : OpId} {op : Operation} (hop : g.op? o = some op) :
      k ∈ op.moves ↔ ∃ m, g.move? k = some m ∧ o ∈ m.ops := by
    simp only [Operation.moves, List.mem_append, hg.mem_inputs hop, hg.mem_outputs hop, Move.ops,
      Option.mem_toList]
    constructor
    · rintro (⟨m, hm, ho⟩ | ⟨m, hm, ho, -⟩)
      · exact ⟨m, hm, .inr ho⟩
      · exact ⟨m, hm, .inl ho⟩
    · rintro ⟨m, hm, ho | ho⟩
      · exact .inr ⟨m, hm, ho, hfresh.live hm⟩
      · exact .inl ⟨m, hm, ho⟩
  simp only [Move.sharesOperation, List.any_eq_true, List.contains_iff_mem]
  constructor
  · intro hc
    cases hc with
    | sibling move takesPart known mem =>
      obtain ⟨m', hm', ho⟩ := (hmoves known).1 mem
      exact ⟨_, m', move, hm', _, ho, takesPart⟩
    | producer _ _ forced => simp [hforced] at forced
    | consumer _ _ forced => simp [hforced] at forced
  · rintro ⟨m, m', hm, hm', o, ho', ho⟩
    have hknown : ∃ op, g.op? o = some op := by
      simp only [Move.ops, List.mem_append, Option.mem_toList] at ho
      rcases ho with ho | ho
      · exact hg.src_known hm ho
      · exact hg.dst_known hm ho
    obtain ⟨op, hop⟩ := hknown
    exact .sibling hm ho hop ((hmoves hop).2 ⟨m', hm', ho'⟩)

/-- A block is reportable if the moves of every operation are in order and there are no forced-bypass files.
Bottom-up, moreover, only moves of its own operation may come after a jump. -/
theorem reportable_of_staged (hbuild : p.graph machine = .ok g) (hs : p.Staged)
    (hforced : ∀ r, g.isForced r = false)
    (hlast : way = .bottomUp → ∀ n m k, g.move? n = some m → m.controlFlow → g.Before n k → g.Companion n k) :
    g.Reportable way := by
  obtain ⟨hformed, hfresh⟩ := graph_formed hbuild
  have hd := graph_drawn hbuild
  have hcomp {n k : MoveId} := companion_iff (n := n) (k := k) hformed hfresh hforced
  refine ⟨fun hc => ?_, fun {n ks} hn hmem hfree => ?_⟩
  · obtain ⟨m, m', hm, hm', hshare⟩ := hcomp.1 hc
    refine .single (hcomp.2 ⟨m', m, hm', hm, ?_⟩)
    simp only [Move.sharesOperation, List.any_eq_true, List.contains_iff_mem] at hshare ⊢
    obtain ⟨o, ho, ho'⟩ := hshare
    exact ⟨o, ho', ho⟩
  have hwaits {k : MoveId} {m : Move} (hm : g.move? k = some m) : g.Waits k :=
    ⟨m, hm, hfresh.live hm, hfresh.pending hm⟩
  -- What a move of the group awaits is in the group.
  have hin {k j : MoveId} {m : Move} {x : Selector} (hk : k ∈ ks) (hx : x.direction = way)
      (hm : g.move? k = some m) (hj : j ∈ x.awaited g k m) (hjm : ∃ o, g.move? j = some o) : j ∈ ks := by
    have hready : x.isReady g k ks = .ok true := by
      have := hfree k hk
      subst hx
      exact this
    obtain ⟨m', hm', hback⟩ := Selector.isReady_eq_true.1 hready
    cases (move?_of_move hm').symm.trans hm
    obtain ⟨o, ho⟩ := hjm
    by_contra hout
    refine hback j hj (holdsBack_iff.2 ⟨o, ho, hfresh.pending ho, hout, ?_⟩)
    rw [Bool.eq_false_iff]
    intro hshare
    exact hout ((hmem j).2 ⟨((hmem k).1 hk).1.tail (hcomp.2 ⟨m, o, hm, ho, hshare⟩), hwaits ho⟩)
  have hbefore {e : EdgeId} {l : Link} (hl : g.link? e = some l) (hlive : l.live) (hback : l.dep.isBack = false) :
      g.Before l.tail l.head := ⟨l.dep, .of_link hl hlive, by simpa [Dependence.isBack] using hback⟩
  cases way with
  | topDown =>
    refine exists_of_smaller Id.val hn fun k hk => or_iff_not_imp_left.2 fun hroot => ?_
    obtain ⟨m, hm, hlive, -⟩ := ((hmem k).1 hk).2
    simp only [roots, sources, List.mem_filter, mem_moveIds, List.all_eq_true, not_and, not_forall,
      Bool.not_eq_true] at hroot
    obtain ⟨⟨e, l⟩, hl, hback⟩ := hroot ⟨m, hm, hlive⟩
    obtain ⟨hlink, hon, rfl⟩ := hd.linked.mem_entering.1 hl
    obtain ⟨o, ho⟩ := hd.linked.tail_known hlink
    have hlt := hd.lt_of_before hs (hbefore hlink hon hback)
    refine ⟨l.tail, hin (x := ⟨.topDown, .abort, {}, .empty, []⟩) hk rfl hm ?_ ⟨o, ho⟩, hlt⟩
    simp only [Selector.awaited]
    split
    · refine List.mem_filter.2 ⟨mem_moveIds.2 ⟨o, ho, hfresh.live ho⟩, decide_eq_true fun heq => ?_⟩
      exact Nat.lt_irrefl _ (heq ▸ hlt)
    · rw [entering, hm] at hl
      exact List.mem_map.2 ⟨(e, l), List.mem_filter.2 ⟨hl, by simp [hback]⟩, rfl⟩
  | bottomUp =>
    refine exists_of_smaller (g.moves.size - Id.val ·) hn fun k hk => or_iff_not_imp_left.2 fun hroot => ?_
    obtain ⟨m, hm, hlive, -⟩ := ((hmem k).1 hk).2
    simp only [roots, sinks, List.mem_filter, mem_moveIds, List.all_eq_true, not_and, not_forall,
      Bool.not_eq_true] at hroot
    obtain ⟨⟨e, l⟩, hl, hback⟩ := hroot ⟨m, hm, hlive⟩
    obtain ⟨hlink, hon, rfl⟩ := hd.linked.mem_leaving.1 hl
    obtain ⟨o, ho⟩ := hd.linked.head_known hlink
    have hb := hbefore hlink hon hback
    have hlt := hd.lt_of_before hs hb
    have hsize : l.head.val < g.moves.size := lt_of_move? ho
    refine ⟨l.head, ?_, by omega⟩
    by_cases hflow : m.controlFlow
    · exact (hmem _).2 ⟨((hmem _).1 hk).1.tail (hlast rfl _ m _ hm hflow hb), hwaits ho⟩
    · refine hin (x := ⟨.bottomUp, .abort, {}, .empty, []⟩) hk rfl hm ?_ ⟨o, ho⟩
      rw [leaving, hm] at hl
      simp only [Selector.awaited, hflow]
      exact List.mem_map.2 ⟨(e, l), List.mem_filter.2 ⟨hl, by simp [hback]⟩, rfl⟩

/-- Without bypassing and renaming no run fails because of an orphan, if groups do not depend on the move they are
collected from and each that is ready at first has a root. -/
theorem schedule_ne_orphan (hbuild : p.graph machine = .ok g) (hdist : options.bypassDistance = 0)
    (hren : renamer = none ∨ options.renameRegisters = false) (hg : g.Reportable options.direction) (n : MoveId) :
    (g.schedule machine renamer options).1 ≠ .error (.fault (.orphan n)) := by
  intro h
  obtain ⟨-, hfresh⟩ := graph_formed hbuild
  have hpasses := RegionM.passes_scheduleWithin hdist hg (graph_drawn hbuild).linked hfresh
  cases hrun : RegionM.scheduleWithin options { machine, graph := g, renamer } with
  | ok x r =>
    simp [Graph.schedule, RegionM.schedule, EStateM.run, hrun] at h
  | error e r =>
    simp only [Graph.schedule, RegionM.schedule, EStateM.run, hrun, Except.error.injEq] at h
    have hgoes := hpasses.goes (r := { machine, graph := g, renamer }) ⟨rfl, hren⟩
    rw [Goes, hrun] at hgoes
    exact hgoes ⟨n, h⟩

/-! ### A constant that is bypassed -/

/-- `5 -> r0`, then `r0` starts an addition. Nothing else reads `r0`. -/
def startsOnConstant : Program where
  operations := #[{ opcode := "add" }]
  moves := #[{ src := .immediate 5, dst := .register ⟨⟨0⟩, 0⟩ },
    { src := .register ⟨⟨0⟩, 0⟩, dst := .input 1 true, dstOp := some 0 }]
  liveOut := some ∅

theorem staged_startsOnConstant : startsOnConstant.Staged := by
  decide

theorem schedule_ne_orphan_startsOnConstant : ∃ g, startsOnConstant.graph adder = .ok g ∧ ∀ n,
    (g.schedule adder none { direction := .bottomUp, bypassDistance := 0, orphans := .abort }).1 ≠
      .error (.fault (.orphan n)) := by
  obtain ⟨g, hg, hplain⟩ := exists_ok_of_any (x := startsOnConstant.graph adder)
    (p := fun g => g.forcedFiles.isEmpty && g.moveIds.all fun n => (g.move? n).any (!·.controlFlow)) (by decide +kernel)
  simp only [Bool.and_eq_true, List.isEmpty_iff, List.all_eq_true] at hplain
  refine ⟨g, hg, schedule_ne_orphan hg rfl (.inl rfl) ?_⟩
  refine reportable_of_staged hg staged_startsOnConstant (by simp [isForced, hplain.1]) fun _ n m k hm hflow _ => ?_
  have := hplain.2 n (mem_moveIds.2 ⟨m, hm, (graph_formed hg).2.live hm⟩)
  simp [hm, hflow] at this

/-- Bottom-up, the bypass takes out the edge along which the constant would have been reported. -/
theorem orphan_of_bypass : ∃ g, startsOnConstant.graph adder = .ok g ∧
    (g.schedule adder none { direction := .bottomUp, bypassDistance := 1, orphans := .abort }).1 =
      .error (.fault (.orphan ⟨0⟩)) := by
  obtain ⟨g, hg, hrun⟩ := exists_ok_of_any (x := startsOnConstant.graph adder)
    (p := fun g => match (g.schedule adder none
        { direction := .bottomUp, bypassDistance := 1, orphans := .abort }).1 with
      | .error (.fault (.orphan n)) => n = ⟨0⟩
      | _ => false) (by decide +kernel)
  refine ⟨g, hg, ?_⟩
  split at hrun
  · rename_i heq
    rw [heq, of_decide_eq_true hrun]
  · cases hrun

end Program

end Transport
