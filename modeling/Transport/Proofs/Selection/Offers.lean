import Transport.Proofs.Dependence.Tables
import Transport.Proofs.Run.Region

/-!
# Offers to the selector

An offer either leaves the selector as it is, for one of a few reasons, or puts one ready group on the
list. Of the graph it changes nothing but the distances kept there.
-/

namespace Transport

namespace Graph

variable {g g' : Graph}

/-- Two graphs that differ in the distances they keep at most. -/
def Alike (g g' : Graph) : Prop := ∃ distances, g' = { g with distances }

theorem Alike.refl : g.Alike g := ⟨g.distances, rfl⟩

theorem Alike.trans {g'' : Graph} (h : g.Alike g') (h' : g'.Alike g'') : g.Alike g'' := by
  obtain ⟨d, rfl⟩ := h
  obtain ⟨d', rfl⟩ := h'
  exact ⟨d', rfl⟩

theorem alike_of_distance {way : Way} {n : MoveId} {d : Nat} (h : g.distance way n = .ok (d, g')) :
    g.Alike g' := by
  simp only [distance, bind_eq_ok] at h
  obtain ⟨x, -, h⟩ := h
  cases x with
  | some d' =>
    cases pure_eq_ok.1 h
    exact .refl
  | none =>
    simp only [bind_eq_ok, pure_eq_ok, Prod.mk.injEq] at h
    obtain ⟨dist, -, d', -, -, rfl⟩ := h
    cases way <;> exact ⟨_, rfl⟩

end Graph

namespace Selector

variable {x x' : Selector} {g g' : Graph} {n : MoveId} {b : Bool} {group : Group}
  {notes notes' : List Note}

theorem alike_of_priority {p : Nat} (h : x.priority g group = .ok (p, g')) : g.Alike g' := by
  refine foldlM_keeps (P := fun s => g.Alike s.2) ?_ .refl h
  rintro n - ⟨best, g1⟩ s hs hstep
  simp only [bind_eq_ok, pure_eq_ok] at hstep
  obtain ⟨⟨d, g2⟩, hd, rfl⟩ := hstep
  exact hs.trans (Graph.alike_of_distance hd)

/-- Why the group of a move is not put on the list. -/
def Refuses (x : Selector) (g : Graph) (n : MoveId) : Prop :=
  g.isPending n = .ok false ∨ x.queued.has n.val ∨
    ∃ notes notes' all group, g.groupOf n notes = .ok all notes' ∧ Group.pending all g = .ok group ∧
      (group = [] ∨ (∃ m ∈ group, x.queued.has m.val) ∨ ∃ m ∈ group, x.isReady g m group = .ok false)

/-- What it takes to put a group on the list. -/
structure Accepts (x : Selector) (g : Graph) (n : MoveId) (group : Group) : Prop where
  pending : g.isPending n = .ok true
  fresh : x.queued.has n.val = false
  found : ∃ notes notes' all, g.groupOf n notes = .ok all notes' ∧ Group.pending all g = .ok group
  nonempty : group ≠ []
  unqueued {m : MoveId} : m ∈ group → x.queued.has m.val = false
  ready {m : MoveId} : m ∈ group → x.isReady g m group = .ok true

/-- An offer is refused, or it puts a group on the list. -/
theorem offer_cases : Gives notes (x.offer g n) fun y _ => (y.1 = false ∧ y.2.1 = x ∧ y.2.2 = g ∧ x.Refuses g n) ∨
    (y.1 = true ∧ g.Alike y.2.2 ∧ ∃ group priority, x.Accepts g n group ∧
      y.2.1 = { x with
        ready := x.ready.push Candidate.le { priority, group }
        queued := group.foldl (fun q m => q.add m.val) x.queued }) := by
  refine .logged fun pending hpending => .ite (fun hyes => ?_) fun hno => ?_
  swap
  · exact .pure (.inl ⟨rfl, rfl, rfl, .inl (eq_false_of_ne_true hno ▸ hpending)⟩)
  refine .ite (fun hqueued => .pure (.inl ⟨rfl, rfl, rfl, .inr (.inl hqueued)⟩)) fun hqueued => ?_
  refine .bind fun all _ hall => .logged fun group hgroup => .ite (fun hbusy => .pure ?_) fun hfree => ?_
  · refine .inl ⟨rfl, rfl, rfl, .inr (.inr ⟨_, _, all, group, hall, hgroup, ?_⟩)⟩
    simp only [Bool.or_eq_true, List.isEmpty_iff, List.any_eq_true] at hbusy
    exact hbusy.imp_right .inl
  simp only [Bool.or_eq_true, List.isEmpty_iff, List.any_eq_true, not_or, not_exists, not_and,
    Bool.not_eq_true] at hfree
  refine .look logged_allM_ok fun ready hready => .ite (fun hall' => .logged fun y hy => .pure ?_) fun hsome => .pure ?_
  · refine .inr ⟨rfl, alike_of_priority hy, group, y.1, ⟨hyes ▸ hpending, ?_, ⟨_, _, all, hall, hgroup⟩, hfree.1,
      fun hm => hfree.2 _ hm, fun hm => hready.1 hall' _ hm⟩, rfl⟩
    simpa using hqueued
  · have hno := hready.2 (eq_false_of_ne_true hsome)
    exact .inl ⟨rfl, rfl, rfl, .inr (.inr ⟨_, _, all, group, hall, hgroup, .inr (.inr hno)⟩)⟩

theorem alike_of_offer (h : x.offer g n notes = .ok (b, x', g') notes') : g.Alike g' := by
  rcases offer_cases h with ⟨-, -, rfl, -⟩ | ⟨-, halike, -⟩
  · exact .refl
  · exact halike

/-! ## Series of offers -/

/-- Moves are offered one after the other. -/
inductive Offers : List MoveId → Selector → Graph → Selector → Graph → Prop
  | nil {x : Selector} {g : Graph} : Offers [] x g x g
  | cons {n : MoveId} {ns : List MoveId} {x x₁ x' : Selector} {g g₁ g' : Graph} {b : Bool}
      {notes notes' : List Note} (offer : x.offer g n notes = .ok (b, x₁, g₁) notes')
      (rest : Offers ns x₁ g₁ x' g') : Offers (n :: ns) x g x' g'

theorem Offers.append {ns ns' : List MoveId} {x1 : Selector} {g1 : Graph} (h : Offers ns x g x1 g1)
    (h' : Offers ns' x1 g1 x' g') : Offers (ns ++ ns') x g x' g' := by
  induction h with
  | nil => exact h'
  | cons offer _ ih => exact .cons offer (ih h')

theorem offers_offerAll {ns : List MoveId} (h : x.offerAll g ns notes = .ok (x', g') notes') :
    Offers ns x g x' g' := by
  induction ns generalizing x g notes with
  | nil =>
    cases (run_pure_ok.1 h).1
    exact .nil
  | cons n ns ih =>
    simp only [offerAll, List.foldlM_cons, run_bind_ok, run_pure_ok] at h
    obtain ⟨_, _, ⟨⟨b, x1, g1⟩, notes1, hoffer, rfl, rfl⟩, h⟩ := h
    exact .cons hoffer (ih h)

theorem offers_notify (h : x.notify g n notes = .ok (x', g') notes') :
    ∃ ns, Offers ns x g x' g' := by
  cases hdir : x.direction with
  | topDown =>
    simp only [notify, hdir, run_bind_ok, logged_lift_ok] at h
    obtain ⟨ns, _, ⟨-, rfl⟩, ⟨x1, g1⟩, notes1, h1, h2⟩ := h
    exact ⟨_, (offers_offerAll h1).append (offers_offerAll h2)⟩
  | bottomUp =>
    simp only [notify, hdir, run_bind_ok, logged_lift_ok] at h
    obtain ⟨ns, _, ⟨-, rfl⟩, h⟩ := h
    exact ⟨_, offers_offerAll h⟩

/-- The last sweep offers every move that is neither placed nor queued. -/
theorem offers_recoverOrphans : Gives notes (x.recoverOrphans g) fun y _ =>
    Offers (g.moveIds.filter fun n => (g.move? n).any (!·.isPlaced) && !x.queued.has n.val) x g y.1 y.2 := by
  unfold recoverOrphans
  generalize g.moveIds.filter _ = ns
  induction ns generalizing x g notes with
  | nil => exact .pure .nil
  | cons n ns ih =>
    rw [List.foldlM_cons]
    refine .bind (.bind fun y _ hoffer => ?_)
    have hrest {ns : List Note} := Gives.mono (r := ns) (ih (x := y.2.1) (g := y.2.2)) fun _ _ h => Offers.cons hoffer h
    refine .ite (fun _ => ?_) fun _ => .pure hrest
    split
    · exact .bind fun _ _ _ => .pure hrest
    · exact .bind .raise

/-- The next group is on the ready list, or it is there after a last sweep. -/
theorem next_cases : Gives notes (x.next g) fun y _ => (y.1 ≠ [] ∧ y.2.2 = g ∧ x.take g = .ok (y.1, y.2.1)) ∨
    ∃ x1 x2, x.take g = .ok ([], x1) ∧
      Offers (g.moveIds.filter fun n => (g.move? n).any (!·.isPlaced) && !x1.queued.has n.val) x1 g x2 y.2.2 ∧
      x2.take y.2.2 = .ok (y.1, y.2.1) := by
  refine .logged fun first htake => ?_
  rcases first with ⟨_ | ⟨n, ns⟩, x1⟩
  · refine .bind fun y _ hrecover => .logged fun z htake2 => .pure (.inr ?_)
    exact ⟨x1, y.1, htake, offers_recoverOrphans hrecover, htake2⟩
  · exact .pure (.inl ⟨List.cons_ne_nil _ _, rfl, htake⟩)

end Selector

end Transport
