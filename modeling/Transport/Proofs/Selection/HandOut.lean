import Transport.Proofs.Program.Order
import Transport.Proofs.Selection.Groups
import Transport.Proofs.Selection.MoveSet
import Transport.Proofs.Selection.Offers

/-!
# What the selector hands out

A selector is asked for the next group over and over, and each time the moves of the group are placed and
reported. Only moves that wait and are ready are handed out, no move is handed out twice, and when nothing
is handed out, every move that still waits has a companion that is not ready: `HandsOut.next_discipline`.
-/

namespace Transport

open Transport.Graph
open Relation (ReflTransGen)

/-- Give moves their places. -/
def Graph.placeThese (g : Graph) (places : List (MoveId × Placement)) : Checked Graph :=
  places.foldlM (fun g (n, p) => g.setPlacement n (some p)) g

/-- Report that moves were placed. -/
def Selector.notifyAll (x : Selector) (g : Graph) (ns : List MoveId) : Logged (Selector × Graph) :=
  ns.foldlM (fun (x, g) n => x.notify g n) (x, g)

/-- The move is in the graph and has no place. -/
def Graph.Waits (g : Graph) (n : MoveId) : Prop := ∃ m, g.move? n = some m ∧ m.live ∧ m.placement = none

/-- The move has a place. -/
def Graph.Rests (g : Graph) (n : MoveId) : Prop := ∃ m, g.move? n = some m ∧ m.placement ≠ none

/-- Rounds of a selector: it hands out a group, the moves of the group get places and are reported. -/
inductive HandsOut (way : Direction) (orphans : OrphanPolicy) (g₀ : Graph) :
    List Group → Selector → Graph → Prop
  | start {x : Selector} {g : Graph} {notes notes' : List Note}
      (new : Selector.ofGraph g₀ way orphans notes = .ok (x, g) notes') : HandsOut way orphans g₀ [] x g
  | round {handed : List Group} {group : Group} {x x₁ x' : Selector} {g g₁ g₂ g' : Graph}
      {places : List (MoveId × Placement)} {ns : List MoveId} {notes notes₁ notes' : List Note}
      (rounds : HandsOut way orphans g₀ handed x g)
      (next : x.next g notes = .ok (group, x₁, g₁) notes₁)
      (all : ∀ n, n ∈ places.map Prod.fst ↔ n ∈ group) (place : g₁.placeThese places = .ok g₂)
      (told : ∀ n, n ∈ ns ↔ n ∈ group) (notify : x₁.notifyAll g₂ ns notes₁ = .ok (x', g') notes') :
      HandsOut way orphans g₀ (handed ++ [group]) x' g'

variable {g g' : Graph} {n k : MoveId} {x x' : Selector} {group ks : Group} {ns handed : List MoveId}
  {notes notes' : List Note}

theorem MoveSet.has_addAll {s : MoveSet} : (ns.foldl (fun q m => q.add m.val) s).has n.val ↔ n ∈ ns ∨ s.has n.val := by
  induction ns generalizing s with
  | nil => simp
  | cons k ns ih =>
    rw [List.foldl_cons, ih, has_add, Id.val_inj, List.mem_cons]
    tauto

/-! ## Waiting and being ready -/

namespace Graph

theorem isPending_eq_true : g.isPending n = .ok true ↔ n ≠ .invalid ∧ g.Waits n := by
  simp only [isPending, bind_eq_ok, pure_eq_ok, move_eq_ok, Waits, Bool.and_eq_true, Bool.not_eq_true',
    Move.isPlaced, Option.isSome_eq_false_iff, Option.isNone_iff_eq_none]
  constructor
  · rintro ⟨m, ⟨hn, hm⟩, hlive, hoff⟩
    exact ⟨hn, m, hm, hlive, hoff⟩
  · rintro ⟨hn, m, hm, hlive, hoff⟩
    exact ⟨m, ⟨hn, hm⟩, hlive, hoff⟩

theorem waits_of_isPending {b : Bool} (h : g.isPending n = .ok b) : b = true ↔ g.Waits n := by
  have hvalid : n ≠ .invalid := by
    simp only [isPending, bind_eq_ok] at h
    obtain ⟨m, hm, -⟩ := h
    exact (move_eq_ok.1 hm).1
  have htrue := isPending_eq_true (g := g) (n := n)
  rw [h] at htrue
  simpa [hvalid] using htrue

theorem Rests.not_waits (h : g.Rests n) : ¬ g.Waits n := by
  rintro ⟨m, hm, -, hoff⟩
  obtain ⟨m', hm', hon⟩ := h
  cases hm.symm.trans hm'
  exact hon hoff

theorem holdsBack_iff {m : Move} : g.holdsBack m group n ↔
    ∃ o, g.move? n = some o ∧ o.placement = none ∧ n ∉ group ∧ o.sharesOperation m = false := by
  unfold holdsBack
  cases g.move? n with
  | none => simp
  | some o =>
    simp only [Bool.not_eq_true', Bool.or_eq_false_iff, Option.some.injEq, exists_eq_left', Move.isPlaced,
      Option.isSome_eq_false_iff, Option.isNone_iff_eq_none, List.contains_eq_mem, decide_eq_false_iff_not, and_assoc]

theorem moveIds_modifyMove {f : Move → Move} (hf : ∀ m, (f m).live = m.live) :
    (g.modifyMove k f).moveIds = g.moveIds := by
  have hsize : (g.modifyMove k f).moves.size = g.moves.size := Array.size_modify
  simp only [moveIds, hsize]
  refine List.filter_congr fun n _ => ?_
  rw [move?_modifyMove]
  split
  · cases g.move? n <;> simp [hf]
  · rfl

end Graph

namespace Selector

/-- The moves that `n` waits for. -/
def awaited (x : Selector) (g : Graph) (n : MoveId) (m : Move) : List MoveId :=
  match x.direction with
  | .topDown => if m.controlFlow then g.moveIds.filter (· ≠ n)
      else ((g.entries m.ins).filter fun (_, l) => !l.dep.isBack).map fun (_, l) => l.tail
  | .bottomUp => if m.controlFlow then []
      else ((g.entries m.outs).filter fun (_, l) => !l.dep.isBack).map fun (_, l) => l.head

theorem isReady_eq : x.isReady g n group =
    g.move n >>= fun m => pure !(x.awaited g n m).any (g.holdsBack m group) := by
  unfold isReady awaited
  cases x.direction <;> rfl

theorem isReady_eq_true : x.isReady g n group = .ok true ↔
    ∃ m, g.move n = .ok m ∧ ∀ k ∈ x.awaited g n m, ¬ g.holdsBack m group k := by
  rw [isReady_eq, bind_eq_ok]
  simp

/-- Of the group only its members matter. -/
theorem isReady_congr (h : ∀ k, k ∈ group ↔ k ∈ ks) : x.isReady g n group = x.isReady g n ks := by
  have hback (m : Move) : g.holdsBack m group = g.holdsBack m ks := by
    funext k
    rw [Bool.eq_iff_iff, Graph.holdsBack_iff, Graph.holdsBack_iff, h k]
  simp only [isReady_eq, hback]

/-- A ready move stays ready when another one gets a place. -/
theorem isReady_of_modifyMove {p : Placement} (h : x.isReady g n group = .ok true) :
    x.isReady (g.modifyMove k fun m => { m with placement := some p }) n group = .ok true := by
  obtain ⟨m, hm, hfree⟩ := isReady_eq_true.1 h
  obtain ⟨hvalid, hm⟩ := move_eq_ok.1 hm
  obtain ⟨q, hm'⟩ : ∃ q, (g.modifyMove k fun m => { m with placement := some p }).move? n =
      some { m with placement := q } := by
    rw [move?_modifyMove]
    split
    · exact ⟨some p, by rw [hm]; rfl⟩
    · exact ⟨m.placement, hm⟩
  refine isReady_eq_true.2 ⟨_, move_eq_ok.2 ⟨hvalid, hm'⟩, fun other hother hback => ?_⟩
  have hsame : x.awaited (g.modifyMove k fun m => { m with placement := some p }) n
      { m with placement := q } = x.awaited g n m := by
    have hids : (g.modifyMove k fun m => { m with placement := some p }).moveIds = g.moveIds :=
      moveIds_modifyMove fun _ => rfl
    simp only [awaited, hids]
    rfl
  rw [hsame] at hother
  refine hfree other hother (Graph.holdsBack_iff.2 ?_)
  obtain ⟨o, ho, hoff, hout, hshare⟩ := Graph.holdsBack_iff.1 hback
  rw [move?_modifyMove] at ho
  split at ho
  · obtain ⟨o', -, rfl⟩ := Option.map_eq_some_iff.1 ho
    cases hoff
  · exact ⟨o, ho, hoff, hout, hshare⟩

theorem mem_pending {all : List MoveId} (hgroup : Group.pending all g = .ok group) :
    k ∈ group ↔ k ∈ all ∧ g.Waits k := by
  rw [mem_of_filterM_eq_ok hgroup]
  refine and_congr_right fun hk => ?_
  obtain ⟨b, hb⟩ := ok_of_filterM_eq_ok hgroup hk
  rw [← waits_of_isPending hb, hb]
  simp

/-- What is left of a group are the companions that wait. -/
theorem mem_pending_groupOf {all : List MoveId} (hall : g.groupOf n notes = .ok all notes')
    (hgroup : Group.pending all g = .ok group) :
    k ∈ group ↔ ReflTransGen g.Companion n k ∧ g.Waits k := by
  rw [mem_pending hgroup, mem_groupOf hall]

/-! ## The ready list in order -/

/-- What is true of a selector while it hands out moves of a graph: the groups on its list are disjoint from
each other and from what it has `handed` out, all their moves wait and are ready. -/
structure Tidy (x : Selector) (g : Graph) (handed : List MoveId) : Prop where
  nodup : (handed ++ x.ready.toList.flatMap Candidate.group).Nodup
  queued (n : MoveId) : x.queued.has n.val ↔ n ∈ handed ∨ n ∈ x.ready.toList.flatMap Candidate.group
  waiting {c : Candidate} : c ∈ x.ready.toList → ∀ n ∈ c.group, g.isPending n = .ok true
  ready {c : Candidate} : c ∈ x.ready.toList → ∀ n ∈ c.group, x.isReady g n c.group = .ok true
  nonempty {c : Candidate} : c ∈ x.ready.toList → c.group ≠ []

namespace Tidy

section

variable (h : x.Tidy g handed)
include h

theorem alike (hg : g.Alike g') : x.Tidy g' handed := by
  obtain ⟨d, rfl⟩ := hg
  exact ⟨h.nodup, h.queued, h.waiting, h.ready, h.nonempty⟩

theorem offer {b : Bool} (ho : x.offer g n notes = .ok (b, x', g') notes') : x'.Tidy g' handed := by
  rcases offer_cases ho with ⟨-, rfl, rfl, -⟩ | ⟨-, hg, group, priority, hacc, rfl⟩
  · exact h
  obtain ⟨notes, notes', all, hall, hpending⟩ := hacc.found
  have hperm := Heap.toList_push_perm Candidate.le x.ready { priority, group }
  have hflat : ((x.ready.push Candidate.le { priority, group }).toList.flatMap Candidate.group).Perm
      (group ++ x.ready.toList.flatMap Candidate.group) := hperm.flatMap_right _
  have hfresh : ∀ m ∈ group, m ∉ handed ++ x.ready.toList.flatMap Candidate.group := by
    intro m hm hmem
    have := (h.queued m).2 (List.mem_append.1 hmem)
    rw [hacc.unqueued hm] at this
    cases this
  refine Tidy.alike ⟨?_, fun m => ?_, fun {c} hc => ?_, fun {c} hc => ?_, fun {c} hc => ?_⟩ hg
  · refine (hflat.append_left handed).nodup_iff.2 ?_
    have hgroup : group.Nodup := (nodup_groupOf hall).sublist (sublist_of_filterM_eq_ok hpending)
    refine (List.perm_append_comm_assoc handed group _).nodup_iff.2 (List.nodup_append.2 ⟨hgroup, h.nodup, ?_⟩)
    rintro m hm _ hmem rfl
    exact hfresh m hm hmem
  · rw [MoveSet.has_addAll, h.queued, hflat.mem_iff, List.mem_append]
    tauto
  · rcases List.mem_cons.1 (hperm.mem_iff.1 hc) with rfl | hc
    · exact fun m hm => ((mem_of_filterM_eq_ok hpending).1 hm).2
    · exact h.waiting hc
  · rcases List.mem_cons.1 (hperm.mem_iff.1 hc) with rfl | hc
    · exact fun m hm => hacc.ready hm
    · exact h.ready hc
  · rcases List.mem_cons.1 (hperm.mem_iff.1 hc) with rfl | hc
    · exact hacc.nonempty
    · exact h.nonempty hc

theorem offers (ho : Offers ns x g x' g') : x'.Tidy g' handed := by
  induction ho with
  | nil => exact h
  | cons offer _ ih => exact ih (h.offer offer)

theorem placed {places : List (MoveId × Placement)}
    (hhanded : ∀ n ∈ places.map Prod.fst, n ∈ handed) (hs : g.placeThese places = .ok g') :
    x.Tidy g' handed := by
  induction places generalizing g with
  | nil =>
    cases pure_eq_ok.1 hs
    exact h
  | cons np places ih =>
    obtain ⟨g1, hset, hs⟩ := foldlM_cons_eq_ok.1 hs
    obtain ⟨-, -, rfl⟩ := Graph.setPlacement_ok hset
    refine ih ⟨h.nodup, h.queued, fun {c} hc n hn => ?_, fun hc n hn => ?_, h.nonempty⟩ ?_ hs
    · have hne : n ≠ np.1 := by
        rintro rfl
        refine (List.nodup_append.1 h.nodup).2.2 _ (hhanded _ List.mem_cons_self) _ ?_ rfl
        exact List.mem_flatMap.2 ⟨c, hc, hn⟩
      obtain ⟨hvalid, m, hm, hwait⟩ := Graph.isPending_eq_true.1 (h.waiting hc n hn)
      exact Graph.isPending_eq_true.2 ⟨hvalid, m, by rw [move?_modifyMove, if_neg hne, hm], hwait⟩
    · exact isReady_of_modifyMove (h.ready hc n hn)
    · exact fun n hn => hhanded n (List.mem_cons_of_mem _ hn)

/-- Either the ready list is empty, or one of its groups is taken whole. -/
theorem take_cases (ht : x.take g = .ok (group, x')) : (group = [] ∧ x' = x ∧ x.ready.toList = []) ∨
    ∃ c ready, group = c.group ∧ (c :: ready.toList).Perm x.ready.toList ∧ x' = { x with ready } := by
  simp only [Selector.take, bind_eq_ok, pure_eq_ok, Prod.mk.injEq] at ht
  obtain ⟨⟨group', ready⟩, hfirst, rfl, rfl⟩ := ht
  cases hpop : x.ready.pop? Candidate.le with
  | none =>
    have hempty : x.ready.toList = [] := by
      simpa [Heap.pop?, Heap.toList] using hpop
    have hsize : x.ready.size = 0 := by
      simpa [Heap.toList, Heap.size] using hempty
    rw [hsize] at hfirst
    cases pure_eq_ok.1 hfirst
    exact .inl ⟨rfl, rfl, hempty⟩
  | some top =>
    obtain ⟨c, rest⟩ := top
    have hperm := Heap.toList_pop?_perm Candidate.le hpop
    have hmem : c ∈ x.ready.toList := hperm.mem_iff.1 List.mem_cons_self
    obtain ⟨size, hsize⟩ : ∃ size, x.ready.size = size + 1 := by
      refine ⟨rest.toList.length, ?_⟩
      have := hperm.length_eq
      simpa [Heap.size, Heap.toList] using this.symm
    have hwhole : Group.pending c.group g = .ok c.group := filterM_eq_self (h.waiting hmem)
    simp only [hsize, firstPending, hpop, hwhole, ok_bind] at hfirst
    split at hfirst
    · rename_i hnil
      exact absurd hnil (h.nonempty hmem)
    · cases pure_eq_ok.1 hfirst
      exact .inr ⟨c, _, rfl, hperm, rfl⟩

theorem take_nil (ht : x.take g = .ok ([], x')) : x' = x ∧ x.ready.toList = [] := by
  rcases h.take_cases ht with ⟨-, hx, hempty⟩ | ⟨c, ready, hnil, hperm, -⟩
  · exact ⟨hx, hempty⟩
  · exact absurd hnil.symm (h.nonempty (hperm.mem_iff.1 List.mem_cons_self))

/-- What is taken from the list counts as handed out. -/
theorem take (ht : x.take g = .ok (group, x')) : x'.Tidy g (handed ++ group) ∧
    ∀ n ∈ group, g.isPending n = .ok true ∧ x'.isReady g n group = .ok true := by
  rcases h.take_cases ht with ⟨rfl, rfl, -⟩ | ⟨c, ready, rfl, hperm, rfl⟩
  · simpa using h
  have hmem : c ∈ x.ready.toList := hperm.mem_iff.1 List.mem_cons_self
  have hrest {c' : Candidate} (hc' : c' ∈ ready.toList) : c' ∈ x.ready.toList :=
    hperm.mem_iff.1 (List.mem_cons_of_mem _ hc')
  have hflat : (c.group ++ ready.toList.flatMap Candidate.group).Perm
      (x.ready.toList.flatMap Candidate.group) := hperm.flatMap_right _
  refine ⟨⟨?_, fun m => ?_, fun hc' => h.waiting (hrest hc'), fun hc' => h.ready (hrest hc'),
    fun hc' => h.nonempty (hrest hc')⟩, fun n hn => ⟨h.waiting hmem n hn, h.ready hmem n hn⟩⟩
  · rw [List.append_assoc]
    exact (hflat.append_left handed).nodup_iff.2 h.nodup
  · rw [h.queued, ← hflat.mem_iff, List.mem_append, List.mem_append, or_assoc]

end

end Tidy

theorem Offers.alike (h : Offers ns x g x' g') : g.Alike g' := by
  induction h with
  | nil => exact .refl
  | cons offer _ ih => exact (alike_of_offer offer).trans ih

theorem Offers.direction (h : Offers ns x g x' g') : x'.direction = x.direction := by
  induction h with
  | nil => rfl
  | cons offer _ ih =>
    rw [ih]
    rcases offer_cases offer with ⟨-, rfl, -⟩ | ⟨-, -, _, _, -, rfl⟩ <;> rfl

/-- The ready list only grows by offers, so if it is empty afterwards all of them were refused. -/
theorem Offers.refused (h : Offers ns x g x' g') (hempty : x'.ready.toList = []) :
    x' = x ∧ g' = g ∧ ∀ n ∈ ns, x.Refuses g n := by
  induction h with
  | nil => exact ⟨rfl, rfl, by simp⟩
  | cons offer _ ih =>
    obtain ⟨rfl, rfl, hrest⟩ := ih hempty
    rcases offer_cases offer with ⟨-, rfl, rfl, hrefuses⟩ | ⟨-, -, group, priority, -, rfl⟩
    · refine ⟨rfl, rfl, fun n hn => ?_⟩
      rcases List.mem_cons.1 hn with rfl | hn
      · exact hrefuses
      · exact hrest n hn
    · exact absurd ((Heap.toList_push_perm Candidate.le _ _).mem_iff.2 List.mem_cons_self)
        (List.eq_nil_iff_forall_not_mem.1 hempty { priority, group })

end Selector

/-! ## Rounds -/

theorem Graph.Alike.waits_iff (h : g.Alike g') : g'.Waits n ↔ g.Waits n := by
  obtain ⟨d, rfl⟩ := h
  exact .rfl

theorem Graph.Alike.rests_iff (h : g.Alike g') : g'.Rests n ↔ g.Rests n := by
  obtain ⟨d, rfl⟩ := h
  exact .rfl

/-- Moves that get places rest, and so do those that did. -/
theorem Graph.rests_of_placeThese {places : List (MoveId × Placement)} (h : g.placeThese places = .ok g')
    (hn : g.Rests n ∨ n ∈ places.map Prod.fst) : g'.Rests n := by
  induction places generalizing g with
  | nil =>
    cases pure_eq_ok.1 h
    simpa using hn
  | cons np places ih =>
    obtain ⟨g1, hset, h⟩ := foldlM_cons_eq_ok.1 h
    obtain ⟨m, hm, rfl⟩ := setPlacement_ok hset
    refine ih h ?_
    by_cases heq : n = np.1
    · refine .inl ⟨{ m with placement := some np.2 }, ?_, by simp⟩
      rw [move?_modifyMove, if_pos heq, heq, move?_of_move hm]
      rfl
    · refine hn.imp ?_ fun hmem => (List.mem_cons.1 hmem).resolve_left heq
      rintro ⟨m', hm', hplaced⟩
      exact ⟨m', by rw [move?_modifyMove, if_neg heq, hm'], hplaced⟩

theorem Selector.offers_notifyAll (h : x.notifyAll g ns notes = .ok (x', g') notes') :
    ∃ ms, Offers ms x g x' g' := by
  induction ns generalizing x g notes with
  | nil =>
    cases (run_pure_ok.1 h).1
    exact ⟨[], .nil⟩
  | cons n ns ih =>
    simp only [notifyAll, List.foldlM_cons, run_bind_ok] at h
    obtain ⟨⟨x1, g1⟩, notes1, hnotify, h⟩ := h
    obtain ⟨ms, hms⟩ := offers_notify hnotify
    obtain ⟨ms', hms'⟩ := ih h
    exact ⟨ms ++ ms', hms.append hms'⟩

namespace Selector.Tidy

/-- The group that is handed out next waits and is ready, and counts as handed out. -/
theorem next (h : x.Tidy g handed) (hn : x.next g notes = .ok (group, x', g') notes') :
    g.Alike g' ∧ x'.direction = x.direction ∧ x'.Tidy g' (handed ++ group) ∧
      ∀ n ∈ group, g'.Waits n ∧ x'.isReady g' n group = .ok true := by
  have htake {x1 : Selector} {g1 : Graph} (h1 : x1.Tidy g1 handed)
      (ht : x1.take g1 = .ok (group, x')) : x'.direction = x1.direction ∧ x'.Tidy g1 (handed ++ group) ∧
        ∀ n ∈ group, g1.Waits n ∧ x'.isReady g1 n group = .ok true := by
    obtain ⟨htidy, hgroup⟩ := h1.take ht
    refine ⟨?_, htidy, fun n hn => ⟨(isPending_eq_true.1 (hgroup n hn).1).2, (hgroup n hn).2⟩⟩
    rcases h1.take_cases ht with ⟨-, rfl, -⟩ | ⟨_, _, -, -, rfl⟩ <;> rfl
  rcases next_cases hn with ⟨-, rfl, ht⟩ | ⟨x1, x2, hnil, hoffers, ht⟩
  · exact ⟨.refl, htake h ht⟩
  · obtain ⟨rfl, -⟩ := h.take_nil hnil
    obtain ⟨hdir, htidy⟩ := htake (h.offers hoffers) ht
    exact ⟨hoffers.alike, hdir.trans hoffers.direction, htidy⟩

/-- If nothing is handed out and all that was handed out before has a place, then every move that waits
has a companion that is not ready. -/
theorem blocked_of_next (h : x.Tidy g handed) (hrest : ∀ n ∈ handed, g.Rests n)
    (hnext : x.next g notes = .ok ([], x', g') notes') (hn : g'.Waits n)
    (hks : ∀ k, k ∈ ks ↔ ReflTransGen g'.Companion n k ∧ g'.Waits k) :
    ∃ k ∈ ks, x'.isReady g' k ks = .ok false := by
  rcases next_cases hnext with ⟨hne, -⟩ | ⟨x1, x2, hnil, hoffers, hnil2⟩
  · exact absurd rfl hne
  obtain ⟨rfl, hempty⟩ := h.take_nil hnil
  obtain ⟨rfl, hempty2⟩ := (h.offers hoffers).take_nil hnil2
  obtain ⟨rfl, rfl, hrefuses⟩ := hoffers.refused hempty2
  -- Only moves that have a place by now were ever queued.
  have hfresh {m : MoveId} (hm : g'.Waits m) : x'.queued.has m.val = false := by
    rw [Bool.eq_false_iff, ne_eq, h.queued, hempty]
    simpa using fun hmem => (hrest m hmem).not_waits hm
  have hoffered : n ∈ g'.moveIds.filter fun n =>
      (g'.move? n).any (!·.isPlaced) && !x'.queued.has n.val := by
    obtain ⟨m, hm, hlive, hoff⟩ := hn
    refine List.mem_filter.2 ⟨mem_moveIds.2 ⟨m, hm, hlive⟩, ?_⟩
    rw [hm, hfresh ⟨m, hm, hlive, hoff⟩]
    simp [Move.isPlaced, hoff]
  rcases hrefuses n hoffered with hno | hqueued | ⟨_, _, all, group, hall, hgroup, hwhy⟩
  · exact absurd hn (by simp [← waits_of_isPending hno])
  · exact absurd hqueued (by simp [hfresh hn])
  have hmem (k : MoveId) : k ∈ group ↔ k ∈ ks := by
    rw [hks, mem_pending_groupOf hall hgroup]
  rcases hwhy with rfl | ⟨k, hk, hqueued⟩ | ⟨k, hk, hready⟩
  · exact absurd ((hmem n).2 ((hks n).2 ⟨.refl, hn⟩)) List.not_mem_nil
  · exact absurd hqueued (by simp [hfresh ((hks k).1 ((hmem k).1 hk)).2])
  · exact ⟨k, (hmem k).1 hk, by rw [← isReady_congr hmem, hready]⟩

end Selector.Tidy

namespace HandsOut

variable {way : Direction} {orphans : OrphanPolicy} {g₀ : Graph} {groups : List Group}

theorem tidy (h : HandsOut way orphans g₀ groups x g) :
    x.Tidy g groups.flatten ∧ x.direction = way ∧ ∀ n ∈ groups.flatten, g.Rests n := by
  induction h with
  | start new =>
    have hoffers := Selector.offers_offerAll new
    refine ⟨Selector.Tidy.offers ⟨?_, fun n => ?_, ?_, ?_, ?_⟩ hoffers, hoffers.direction, by simp⟩
    all_goals simp [Heap.toList, MoveSet.has_empty]
  | round _ next all place _ notify ih =>
    obtain ⟨htidy, hdir, hrest⟩ := ih
    obtain ⟨hg, hdir1, htidy1, -⟩ := htidy.next next
    obtain ⟨ms, hoffers⟩ := Selector.offers_notifyAll notify
    rw [List.flatten_append, List.flatten_singleton]
    refine ⟨(htidy1.placed ?_ place).offers hoffers, by rw [hoffers.direction, hdir1, hdir], fun n hn => ?_⟩
    · exact fun n hn => List.mem_append_right _ ((all n).1 hn)
    · refine hoffers.alike.rests_iff.2 (rests_of_placeThese place ?_)
      exact (List.mem_append.1 hn).imp (fun hn => hg.rests_iff.2 (hrest n hn)) (all n).2

/-- Every group that is handed out consists of moves that wait and are ready, no move is handed out
twice, and when nothing is handed out, each move that waits has a companion that waits and is not
ready. -/
theorem next_discipline (h : HandsOut way orphans g₀ groups x g)
    (hnext : x.next g notes = .ok (group, x', g') notes') :
    x'.direction = way ∧
    (∀ n ∈ group, g'.Waits n ∧ x'.isReady g' n group = .ok true) ∧
    (groups.flatten ++ group).Nodup ∧
    (group = [] → ∀ n, g'.Waits n → ∀ ks,
      (∀ k, k ∈ ks ↔ ReflTransGen g'.Companion n k ∧ g'.Waits k) →
      ∃ k ∈ ks, x'.isReady g' k ks = .ok false) := by
  obtain ⟨htidy, hdir, hrest⟩ := h.tidy
  obtain ⟨-, hdir', htidy', hgroup⟩ := htidy.next hnext
  refine ⟨hdir'.trans hdir, hgroup, (List.nodup_append.1 htidy'.nodup).1, ?_⟩
  rintro rfl n hn ks hks
  exact htidy.blocked_of_next hrest hnext hn hks

/-! ### Two operations that wait for each other -/

/-- The second result of the first addition overwrites what the second addition has written, and that one
reads the first result. Move 0 is on its own. -/
def entangled : Program :=
  let reg (i : Nat) : Terminal := .register ⟨⟨0⟩, i⟩
  { operations := #[{ opcode := "add" }, { opcode := "add" }]
    moves := #[{ src := .immediate 5, dst := reg 0 },
      { src := .immediate 1, dst := .input 1 true, dstOp := some 0 },
      { src := .output 2, dst := reg 1, srcOp := some 0 },
      { src := reg 1, dst := .input 1 true, dstOp := some 1 },
      { src := .output 2, dst := reg 2, srcOp := some 1 },
      { src := .output 2, dst := reg 2, srcOp := some 0 }] }

/-- Two rounds: what is handed out first and next, and the graph at the end. -/
def firstTwo (g₀ : Graph) : Logged (Group × Group × Graph) := do
  let (x, g) ← Selector.ofGraph g₀ .topDown .warn
  let (first, x, g) ← x.next g
  let g ← g.placeThese (first.map (·, ⟨0, ⟨0⟩⟩))
  let (x, g) ← x.notifyAll g first
  let (second, _, g) ← x.next g
  return (first, second, g)

/-- Move 0 is handed out, then nothing, since the two additions wait for each other. -/
theorem next_discipline_entangled : ∃ g₀ x g x' g' notes notes', entangled.graph Program.adder = .ok g₀ ∧
    HandsOut .topDown .warn g₀ [[⟨0⟩]] x g ∧ x.next g notes = .ok ([], x', g') notes' ∧ g'.Waits ⟨3⟩ ∧
    ∀ ks, (∀ k, k ∈ ks ↔ ReflTransGen g'.Companion ⟨3⟩ k ∧ g'.Waits k) →
      ∃ k ∈ ks, x'.isReady g' k ks = .ok false := by
  obtain ⟨g₀, hg₀, hrun⟩ := exists_ok_of_any (p := fun g₀ => ((firstTwo g₀).run' []).any fun out =>
      out.1 = [⟨0⟩] && out.2.1 = [] && (out.2.2.move? ⟨3⟩).any fun m => m.live && m.placement = none)
    (show (entangled.graph Program.adder).toOption.any _ by decide +kernel)
  obtain ⟨⟨first, second, g'⟩, hrun, hout⟩ := (Option.any_eq_true _ _).1 hrun
  simp only [Bool.and_eq_true, decide_eq_true_eq, Option.any_eq_true] at hout
  obtain ⟨⟨rfl, rfl⟩, m, hm, hlive, hoff⟩ := hout
  obtain ⟨notes', hrun⟩ := exists_of_run'_eq_some hrun
  simp only [firstTwo, run_bind_ok, run_pure_ok, logged_lift_ok] at hrun
  obtain ⟨⟨x₀, g₁⟩, _, hnew, ⟨group, x₁, g₂⟩, _, hfirst, g₃, _, ⟨hplace, rfl⟩, ⟨x, g⟩, notes, hnotify,
    ⟨group', x', g''⟩, _, hnext, heq, rfl⟩ := hrun
  obtain ⟨rfl, rfl, rfl⟩ : group = [⟨0⟩] ∧ group' = [] ∧ g' = g'' := by simpa [eq_comm] using heq
  have hhands : HandsOut .topDown .warn g₀ [[⟨0⟩]] x g :=
    .round (.start hnew) hfirst (by simp) hplace (by simp) hnotify
  have hwaits : g'.Waits ⟨3⟩ := ⟨m, hm, hlive, hoff⟩
  exact ⟨g₀, x, g, x', g', notes, _, hg₀, hhands, hnext, hwaits,
    (next_discipline hhands hnext).2.2.2 rfl ⟨3⟩ hwaits⟩

end HandsOut

end Transport
