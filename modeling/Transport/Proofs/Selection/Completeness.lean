import Transport.Proofs.Scheduling.PlainPlacing
import Transport.Proofs.Selection.HandOut

/-!
# Nothing is missed

A group is ripe if all of it that waits is ready and was never queued. As long as moves only get places, a group
can become ripe only because a move it awaited got one, and then the report of that move makes the selector look
at a move of the group. `Selector.Misses` says which reports are due, `Selector.Told` what is true of a
selector all along.
-/

namespace Transport

open Transport.Graph
open Relation (ReflTransGen)

variable {g g' g'' : Graph} {n k : MoveId} {x x' : Selector} {group : Group} {ns : List MoveId}
  {notes notes' : List Note}

/-! ## Graphs that differ in places -/

namespace Graph

/-- The graphs differ in the places of moves at most. -/
structure Resettles (g g' : Graph) : Prop where
  moves (n : MoveId) : (g'.move? n).map (fun m => { m with placement := none }) =
    (g.move? n).map fun m => { m with placement := none }
  links (e : EdgeId) : g'.link? e = g.link? e
  members (o : OpId) : (g'.op? o).map Operation.moves = (g.op? o).map Operation.moves
  forcedFiles : g'.forcedFiles = g.forcedFiles

namespace Resettles

theorem refl : g.Resettles g := ⟨fun _ => rfl, fun _ => rfl, fun _ => rfl, rfl⟩

theorem symm (h : g.Resettles g') : g'.Resettles g :=
  ⟨fun n => (h.moves n).symm, fun e => (h.links e).symm, fun o => (h.members o).symm, h.forcedFiles.symm⟩

theorem trans (h : g.Resettles g') (h' : g'.Resettles g'') : g.Resettles g'' :=
  ⟨fun n => (h'.moves n).trans (h.moves n), fun e => (h'.links e).trans (h.links e),
    fun o => (h'.members o).trans (h.members o), h'.forcedFiles.trans h.forcedFiles⟩

theorem of_alike (h : g.Alike g') : g.Resettles g' := by
  obtain ⟨d, rfl⟩ := h
  exact ⟨fun _ => rfl, fun _ => rfl, fun _ => rfl, rfl⟩

theorem of_places {p : Option Placement} (h : g.Places n p g') : g.Resettles g' := by
  refine ⟨h.map_eq fun _ _ => rfl, h.link?, fun o => ?_, ?_⟩
  · obtain ⟨unit, hop⟩ := h.op? o
    rw [hop, Option.map_map]
    rfl
  · obtain ⟨ops, rfl⟩ := h.graph
    rfl

theorem of_shifts {U : List MoveId} (h : g.Shifts U g') : g.Resettles g' := by
  induction h with
  | refl => exact .refl
  | tail _ hp ih =>
    obtain ⟨n, p, -, hp⟩ := hp
    exact ih.trans (.of_places hp)

section

variable (h : g.Resettles g')
include h

theorem move? {m : Move} (hm : g.move? n = some m) : ∃ p, g'.move? n = some { m with placement := p } := by
  obtain ⟨m', hm', heq⟩ := exists_of_map_eq (h.moves n).symm hm
  refine ⟨m'.placement, hm'.trans (congrArg some ?_)⟩
  cases m
  cases m'
  simp_all

theorem entries (es : List EdgeId) : g'.entries es = g.entries es := by
  simp only [Graph.entries, h.links]

theorem isForced (r : Reg) : g'.isForced r = g.isForced r := by
  simp only [Graph.isForced, h.forcedFiles]

theorem mem_moveIds (hn : n ∈ g.moveIds) : n ∈ g'.moveIds := by
  obtain ⟨m, hm, hlive⟩ := Graph.mem_moveIds.1 hn
  obtain ⟨p, hm'⟩ := h.move? hm
  exact Graph.mem_moveIds.2 ⟨_, hm', hlive⟩

theorem rawSource (hs : g.rawSource n = .ok (some k)) : g'.rawSource n = .ok (some k) := by
  simp only [Graph.rawSource, bind_eq_ok, move_eq_ok] at hs ⊢
  obtain ⟨m, ⟨hvalid, hm⟩, hs⟩ := hs
  obtain ⟨p, hm'⟩ := h.move? hm
  exact ⟨_, ⟨hvalid, hm'⟩, by rw [h.entries]; exact hs⟩

theorem companion (hc : g.Companion n k) : g'.Companion n k := by
  cases hc with
  | sibling move takesPart known mem =>
    obtain ⟨p, move⟩ := h.move? move
    obtain ⟨op', known, hmoves⟩ := Option.map_eq_some_iff.1 ((h.members _).trans (congrArg _ known))
    exact .sibling move takesPart known (hmoves ▸ mem)
  | producer move reads forced source =>
    obtain ⟨p, move⟩ := h.move? move
    exact .producer move reads (h.isForced _ ▸ forced) (h.rawSource source)
  | consumer move writes forced edge raw within =>
    obtain ⟨p, move⟩ := h.move? move
    exact .consumer move writes (h.isForced _ ▸ forced) (by rw [h.entries]; exact edge) raw within

theorem together (hc : ReflTransGen g.Companion n k) : ReflTransGen g'.Companion n k :=
  ReflTransGen.mono (fun _ _ => h.companion) _ _ hc

theorem together_iff : ReflTransGen g'.Companion n k ↔ ReflTransGen g.Companion n k :=
  ⟨h.symm.together, h.together⟩

end

end Resettles

theorem Shifts.other {U : List MoveId} (h : g.Shifts U g') (hn : n ∉ U) : g'.move? n = g.move? n := by
  induction h with
  | refl => rfl
  | tail _ hp ih =>
    obtain ⟨k, p, hk, hp⟩ := hp
    have hne : n ≠ k := fun heq => hn (heq ▸ hk)
    rw [hp.other hne, ih]

theorem Shifts.linked {U : List MoveId} (h : g.Shifts U g') (hg : g.Linked) : g'.Linked := by
  induction h with
  | refl => exact hg
  | tail _ hp ih =>
    obtain ⟨k, p, -, hp⟩ := hp
    exact hp.linked ih

end Graph

/-! ## Ready groups -/

namespace Selector

/-- What `x` waits to be put on the list: a whole group of which no move was ever queued, and which is ready. -/
structure Ripe (x : Selector) (g : Graph) (n : MoveId) (group : Group) : Prop where
  mem (k : MoveId) : k ∈ group ↔ ReflTransGen g.Companion n k ∧ g.Waits k
  start : n ∈ group
  unqueued {k : MoveId} : k ∈ group → x.queued.has k.val = false
  ready {k : MoveId} : k ∈ group → x.isReady g k group = .ok true

theorem Accepts.ripe (h : x.Accepts g n group) : x.Ripe g n group := by
  obtain ⟨_, _, all, hall, hgroup⟩ := h.found
  have hmem (k : MoveId) := mem_pending_groupOf (k := k) hall hgroup
  exact ⟨hmem, (hmem n).2 ⟨.refl, (isPending_eq_true.1 h.pending).2⟩, h.unqueued, h.ready⟩

/-- Being told about `k` makes the selector look at `m` again. -/
def Heralds (x : Selector) (g : Graph) (k m : MoveId) : Prop :=
  match x.direction with
  | .topDown => (∃ e l, (e, l) ∈ g.leaving k ∧ l.head = m) ∨ m ∈ x.controlFlow
  | .bottomUp => ∃ e l, (e, l) ∈ g.entering k ∧ l.tail = m

/-- What is true of a selector all along: what is on its list is queued, and if a move of a group is queued, then
so are all that wait. Nobody is left out by an offer: it does not matter from which of its moves a group is
collected. -/
structure Told (x : Selector) (g : Graph) : Prop where
  linked : g.Linked
  live {n : MoveId} {m : Move} : g.move? n = some m → m.live
  returns {n k : MoveId} : g.Companion n k → ReflTransGen g.Companion k n
  controlFlow {n : MoveId} {m : Move} : g.move? n = some m → m.controlFlow → n ∈ x.controlFlow
  listed {c : Candidate} {n : MoveId} : c ∈ x.ready.toList → n ∈ c.group → x.queued.has n.val
  whole {n k : MoveId} : ReflTransGen g.Companion n k → g.Waits n → x.queued.has k.val → x.queued.has n.val

/-- Whatever could be put on the list will be when the moves `ks` are reported. -/
def Misses (x : Selector) (g : Graph) (ks : List MoveId) : Prop := ∀ n group, x.Ripe g n group →
  ∃ k ∈ ks, g.Rests k ∧ ∃ m ∈ group, x.Heralds g k m

/-! ### Offers -/

theorem Offers.controlFlow (h : Offers ns x g x' g') : x'.controlFlow = x.controlFlow := by
  induction h with
  | nil => rfl
  | cons offer _ ih =>
    rcases offer_cases offer with ⟨-, rfl, -, -⟩ | ⟨-, -, _, _, -, rfl⟩
    · exact ih
    · exact ih

theorem Offers.queued (h : Offers ns x g x' g') (hk : x.queued.has k.val) : x'.queued.has k.val := by
  induction h with
  | nil => exact hk
  | cons offer _ ih =>
    rcases offer_cases offer with ⟨-, rfl, -, -⟩ | ⟨-, -, _, _, -, rfl⟩
    · exact ih hk
    · exact ih (MoveSet.has_addAll.2 (.inr hk))

theorem Ripe.of_offers (h : x'.Ripe g' n group) (ho : Offers ns x g x' g') : x.Ripe g n group := by
  have hsame := Resettles.of_alike ho.alike
  refine ⟨fun k => ?_, h.start, fun {k} hk => ?_, fun {k} hk => ?_⟩
  · rw [h.mem, hsame.together_iff, ho.alike.waits_iff]
  · rw [Bool.eq_false_iff]
    intro hqueued
    have := ho.queued hqueued
    rw [h.unqueued hk] at this
    cases this
  · have hready := h.ready hk
    rw [isReady, ho.direction] at hready
    obtain ⟨d, rfl⟩ := ho.alike
    exact hready

theorem Heralds.offers {m : MoveId} (h : x.Heralds g k m) (ho : Offers ns x g x' g') : x'.Heralds g' k m := by
  obtain ⟨d, hg⟩ := ho.alike
  subst hg
  unfold Heralds at h ⊢
  rw [ho.direction, ho.controlFlow]
  exact h

namespace Told

theorem together_symm (h : x.Told g) (hk : ReflTransGen g.Companion n k) : ReflTransGen g.Companion k n := by
  induction hk with
  | refl => exact .refl
  | tail _ hc ih => exact (h.returns hc).trans ih

/-- What is about the graph does not depend on places. -/
theorem resettles (h : x.Told g) (hs : g.Resettles g') (hg : g'.Linked) (hcf : x'.controlFlow = x.controlFlow)
    (listed : ∀ {c n}, c ∈ x'.ready.toList → n ∈ c.group → x'.queued.has n.val)
    (whole : ∀ {n k}, ReflTransGen g.Companion n k → g'.Waits n → x'.queued.has k.val → x'.queued.has n.val) :
    x'.Told g' where
  linked := hg
  live hm := by
    obtain ⟨p, hm'⟩ := hs.symm.move? hm
    have hlive := h.live hm'
    exact hlive
  returns hc := hs.together (h.returns (hs.symm.companion hc))
  controlFlow hm hflow := by
    obtain ⟨p, hm'⟩ := hs.symm.move? hm
    rw [hcf]
    exact h.controlFlow hm' hflow
  listed := listed
  whole hk := whole (hs.together_iff.1 hk)

theorem offer {b : Bool} (h : x.Told g) (ho : x.offer g n notes = .ok (b, x', g') notes') : x'.Told g' := by
  rcases offer_cases ho with ⟨-, rfl, rfl, -⟩ | ⟨-, hg, group, priority, hacc, rfl⟩
  · exact h
  have hripe := hacc.ripe
  have hperm := Heap.toList_push_perm Candidate.le x.ready { priority, group }
  refine h.resettles (.of_alike hg) ?_ rfl (fun hc hn => ?_) fun {n' k} hk hn hqueued => ?_
  · obtain ⟨d, rfl⟩ := hg
    exact ⟨h.linked.1, h.linked.2, h.linked.3, h.linked.4⟩
  · rcases List.mem_cons.1 (hperm.mem_iff.1 hc) with rfl | hc
    · exact MoveSet.has_addAll.2 (.inl hn)
    · exact MoveSet.has_addAll.2 (.inr (h.listed hc hn))
  · rw [hg.waits_iff] at hn
    rcases MoveSet.has_addAll.1 hqueued with hmem | hqueued
    · have hreach := ((hripe.mem k).1 hmem).1
      exact MoveSet.has_addAll.2 (.inl ((hripe.mem n').2 ⟨hreach.trans (h.together_symm hk), hn⟩))
    · exact MoveSet.has_addAll.2 (.inr (h.whole hk hn hqueued))

theorem offers (h : x.Told g) (ho : Offers ns x g x' g') : x'.Told g' := by
  induction ho with
  | nil => exact h
  | cons offer _ ih => exact ih (h.offer offer)

/-- A move that was offered is not in a group that could be put on the list. -/
theorem not_mem_of_offers (h : x.Told g) (ho : Offers ns x g x' g') (hk : k ∈ ns)
    (hr : x'.Ripe g' n group) : k ∉ group := by
  induction ho with
  | nil => exact absurd hk List.not_mem_nil
  | @cons k0 ns x x1 x' g g1 g' b notes notes' offer rest ih =>
    rcases List.mem_cons.1 hk with rfl | hk
    swap
    · exact ih (h.offer offer) hk hr
    intro hmem
    rcases offer_cases offer with ⟨-, rfl, rfl, hno⟩ | ⟨-, -, all, priority, hacc, rfl⟩
    · have hr' := hr.of_offers rest
      obtain ⟨hreach, hwaits⟩ := (hr'.mem k).1 hmem
      rcases hno with hno | hqueued | ⟨_, _, all, ks, hall, hks, hwhy⟩
      · exact absurd hwaits (by simp [← waits_of_isPending hno])
      · exact absurd hqueued (by simp [hr'.unqueued hmem])
      -- The group of `k` is the group of `n`.
      have hsame (j : MoveId) : j ∈ ks ↔ j ∈ group := by
        rw [mem_pending_groupOf hall hks, hr'.mem]
        exact and_congr_left fun _ => ⟨hreach.trans, (h.together_symm hreach).trans⟩
      rcases hwhy with rfl | ⟨j, hj, hqueued⟩ | ⟨j, hj, hready⟩
      · exact absurd ((hsame k).2 hmem) List.not_mem_nil
      · exact absurd hqueued (by simp [hr'.unqueued ((hsame j).1 hj)])
      · rw [isReady_congr hsame, hr'.ready ((hsame j).1 hj)] at hready
        cases hready
    · have hqueued := rest.queued (MoveSet.has_addAll.2 (.inl hacc.ripe.start))
      rw [hr.unqueued hmem] at hqueued
      cases hqueued

end Told

/-! ### Reports -/

theorem offers_of_notify (h : x.notify g k notes = .ok (x', g') notes') :
    ∃ ns, Offers ns x g x' g' ∧ ∀ m, x.Heralds g k m → m ∈ ns := by
  unfold notify at h
  unfold Heralds
  cases hdir : x.direction with
  | topDown =>
    simp only [hdir, run_bind_ok, logged_lift_ok, successors, bind_eq_ok, pure_eq_ok, move_eq_ok] at h
    obtain ⟨ns, _, ⟨⟨mk, ⟨-, hmk⟩, rfl⟩, rfl⟩, ⟨x1, g1⟩, notes1, h1, h2⟩ := h
    have ho := offers_offerAll h1
    refine ⟨_, ho.append (offers_offerAll h2), fun m hm => ?_⟩
    rcases hm with ⟨e, l, hl, rfl⟩ | hm
    · rw [leaving, hmk] at hl
      exact List.mem_append_left _ (mem_sortMoves.2 (List.mem_map.2 ⟨(e, l), hl, rfl⟩))
    · exact List.mem_append_right _ (ho.controlFlow ▸ hm)
  | bottomUp =>
    simp only [hdir, run_bind_ok, logged_lift_ok, predecessors, bind_eq_ok, pure_eq_ok, move_eq_ok] at h
    obtain ⟨ns, _, ⟨⟨mk, ⟨-, hmk⟩, rfl⟩, rfl⟩, h1⟩ := h
    refine ⟨_, offers_offerAll h1, ?_⟩
    rintro m ⟨e, l, hl, rfl⟩
    rw [entering, hmk] at hl
    exact mem_sortMoves.2 (List.mem_map.2 ⟨(e, l), hl, rfl⟩)

/-- A report of the first move that is still to be reported. -/
theorem Misses.notify {ks : List MoveId} (hx : x.Told g) (h : x.Misses g (k :: ks))
    (hn : x.notify g k notes = .ok (x', g') notes') : x'.Told g' ∧ x'.Misses g' ks := by
  obtain ⟨ns, ho, hns⟩ := offers_of_notify hn
  refine ⟨hx.offers ho, fun n group hr => ?_⟩
  obtain ⟨j, hj, hrest, m, hm, hherald⟩ := h n group (hr.of_offers ho)
  rcases List.mem_cons.1 hj with rfl | hj
  · exact absurd hm (hx.not_mem_of_offers ho (hns m hherald) hr)
  · exact ⟨j, hj, ho.alike.rests_iff.2 hrest, m, hm, hherald.offers ho⟩

theorem heralds_of_awaited (hx : x.Told g) {m : Move} (hm : g.move? n = some m) (hk : k ∈ x.awaited g n m) :
    x.Heralds g k n := by
  unfold awaited at hk
  unfold Heralds
  cases hdir : x.direction with
  | topDown =>
    simp only [hdir] at hk
    split at hk
    · exact .inr (hx.controlFlow hm ‹_›)
    · simp only [List.mem_map, List.mem_filter] at hk
      obtain ⟨⟨e, l⟩, ⟨hl, -⟩, rfl⟩ := hk
      have hin : (e, l) ∈ g.entering n := by rw [entering, hm]; exact hl
      obtain ⟨hlink, hlive, hhead⟩ := hx.linked.mem_entering.1 hin
      exact .inl ⟨e, l, hx.linked.mem_leaving.2 ⟨hlink, hlive, rfl⟩, hhead⟩
  | bottomUp =>
    simp only [hdir] at hk
    split at hk
    · exact absurd hk List.not_mem_nil
    · simp only [List.mem_map, List.mem_filter] at hk
      obtain ⟨⟨e, l⟩, ⟨hl, -⟩, rfl⟩ := hk
      have hout : (e, l) ∈ g.leaving n := by rw [leaving, hm]; exact hl
      obtain ⟨hlink, hlive, htail⟩ := hx.linked.mem_leaving.1 hout
      exact ⟨e, l, hx.linked.mem_entering.2 ⟨hlink, hlive, rfl⟩, htail⟩

/-! ### Placing -/

theorem awaited_of_resettles (h : g.Resettles g') {m : Move} {p : Option Placement}
    (hk : k ∈ x.awaited g n m) : k ∈ x.awaited g' n { m with placement := p } := by
  unfold awaited at hk ⊢
  cases hdir : x.direction with
  | topDown =>
    simp only [hdir] at hk ⊢
    split at hk
    · rename_i hcf
      rw [if_pos hcf]
      exact List.mem_filter.2 ⟨h.mem_moveIds (List.mem_filter.1 hk).1, (List.mem_filter.1 hk).2⟩
    · rename_i hcf
      rw [if_neg hcf, h.entries]
      exact hk
  | bottomUp =>
    simp only [hdir] at hk ⊢
    rw [h.entries]
    exact hk

namespace Told

section

variable {U : List MoveId} (h : x.Told g) (hU : ∀ n ∈ U, x.queued.has n.val) (hs : g.Shifts U g')
include h hU hs

theorem shifts : x.Told g' := by
  refine h.resettles (.of_shifts hs) (hs.linked h.linked) rfl h.listed fun {n k} hk hn hqueued => ?_
  by_cases hmem : n ∈ U
  · exact hU n hmem
  · refine h.whole hk ?_ hqueued
    rw [Waits, ← hs.other hmem]
    exact hn

/-- A group that can be put on the list only now awaited a move that has got a place. -/
theorem ripe_of_shifts (hr : x.Ripe g' n group) :
    x.Ripe g n group ∨ ∃ k ∈ U, g'.Rests k ∧ ∃ m ∈ group, x.Heralds g' k m := by
  have hsame := Resettles.of_shifts hs
  have hout {k : MoveId} (hk : k ∈ group) : k ∉ U := fun hmem => by
    have := hU k hmem
    rw [hr.unqueued hk] at this
    cases this
  have hwaits {k : MoveId} (hk : k ∉ U) : g'.Waits k ↔ g.Waits k := by
    rw [Waits, Waits, hs.other hk]
  have hstart : g.Waits n := (hwaits (hout hr.start)).1 ((hr.mem n).1 hr.start).2
  refine or_iff_not_imp_right.2 fun hnone => ⟨fun k => ?_, hr.start, hr.unqueued, fun {k} hk => ?_⟩
  · constructor
    · intro hk
      obtain ⟨hreach, hw⟩ := (hr.mem k).1 hk
      exact ⟨hsame.together_iff.1 hreach, (hwaits (hout hk)).1 hw⟩
    · rintro ⟨hreach, hw⟩
      by_cases hmem : k ∈ U
      · have := h.whole hreach hstart (hU k hmem)
        rw [hr.unqueued hr.start] at this
        cases this
      · exact (hr.mem k).2 ⟨hsame.together hreach, (hwaits hmem).2 hw⟩
  · obtain ⟨m', hm', hfree⟩ := isReady_eq_true.1 (hr.ready hk)
    obtain ⟨hvalid, hm'⟩ := move_eq_ok.1 hm'
    have hm : g.move? k = some m' := by rw [← hs.other (hout hk), hm']
    refine isReady_eq_true.2 ⟨m', move_eq_ok.2 ⟨hvalid, hm⟩, fun j hj hback => hnone ?_⟩
    have hj' : j ∈ x.awaited g' k m' := awaited_of_resettles (p := m'.placement) hsame hj
    obtain ⟨o, ho, hoff, hjout, hshare⟩ := holdsBack_iff.1 hback
    have hmem : j ∈ U := by
      by_contra hmem
      exact hfree j hj' (holdsBack_iff.2 ⟨o, by rw [hs.other hmem, ho], hoff, hjout, hshare⟩)
    obtain ⟨p, ho'⟩ := hsame.move? ho
    refine ⟨j, hmem, ⟨_, ho', fun hp => ?_⟩, k, hk, heralds_of_awaited (h.shifts hU hs) hm' hj'⟩
    exact hfree j hj' (holdsBack_iff.2 ⟨_, ho', hp, hjout, hshare⟩)

end

end Told

theorem Misses.shifts {U : List MoveId} (hx : x.Told g) (h : x.Misses g [])
    (hU : ∀ n ∈ U, x.queued.has n.val) (hs : g.Shifts U g') : x.Misses g' U := by
  intro n group hr
  rcases hx.ripe_of_shifts hU hs hr with hr | hk
  · obtain ⟨_, hk, -⟩ := h n group hr
    exact absurd hk List.not_mem_nil
  · exact hk

/-! ### The next group -/

theorem Told.take (hx : x.Told g) (h : x.Misses g []) (ht : x.take g = .ok (group, x')) :
    x'.Told g ∧ x'.Misses g [] ∧ ∀ n ∈ group, x'.queued.has n.val := by
  simp only [Selector.take, bind_eq_ok, pure_eq_ok, Prod.mk.injEq] at ht
  obtain ⟨⟨_, ready⟩, hfirst, rfl, rfl⟩ := ht
  obtain ⟨hleft, hgroup⟩ := firstPending_ok hfirst
  refine ⟨⟨hx.linked, hx.live, hx.returns, hx.controlFlow, fun hc => hx.listed (hleft _ hc), hx.whole⟩,
    fun n ks hr => h n ks ⟨hr.mem, hr.start, hr.unqueued, hr.ready⟩, fun n hn => ?_⟩
  rcases hgroup with rfl | ⟨c, hc, hpending⟩
  · cases hn
  · exact hx.listed hc ((mem_of_filterM_eq_ok hpending).1 hn).1

end Selector

end Transport
