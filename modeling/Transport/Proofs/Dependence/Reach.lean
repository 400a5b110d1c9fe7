import Transport.Proofs.Dependence.DeadResult
import Transport.Proofs.Dependence.Distance
import Transport.Proofs.Renaming.OldRegister

/-!
# Walks decide reachability

A walk works off the moves that it has come to, each of which it marks and lists once. So it ends in a graph of any
shape, and by then it has looked at all that the first move leads to: `hasPath_iff`.

A bypass asks about the edges that it adds behind the operand, but not about those before it. So it closes no cycle
unless the operand comes before a move that the producer waits for: `acyclic_of_merge`.
-/

namespace Transport.Graph

open Relation (ReflTransGen TransGen)

variable {g : Graph} {a b : MoveId} {m : Move} {seen : MoveSet} {stack done : List MoveId} {fuel : Nat}

/-- The walk has looked at the moves of `done` without a step onto `b`. There is fuel left, since they are known. -/
theorem walkHits_iff (hg : g.Linked) (ha : a.val < g.moves.size) (h : Exploring (g.StepsTo .forward) a stack done)
    (hseen : ∀ x : MoveId, seen.has x.val ↔ x ∈ stack ++ done) (hmiss : ∀ x ∈ done, ¬ g.StepsTo .forward x b)
    (hfuel : g.moves.size < fuel + done.length) :
    g.walkHits b fuel seen stack ↔ TransGen (g.StepsTo .forward) a b := by
  fun_induction walkHits g b fuel seen stack generalizing done with
  | case1 fuel seen =>
    refine iff_of_false (by simp) fun hpath => ?_
    obtain ⟨x, hx, hstep⟩ := TransGen.tail'_iff.1 hpath
    exact hmiss x (h.mem_done.2 hx) hstep
  | case2 seen n stack =>
    have hlen := length_le_of_known (n := g.moves.size) h.nodup fun x hx => by
      rcases (h.reach hx).cases_tail with rfl | ⟨y, -, hstep⟩
      · exact ha
      · exact hstep.known hg
    simp only [List.length_append, List.length_cons] at hlen
    omega
  | case3 fuel seen n stack next =>
    rename_i ih
    have hnext (x : MoveId) : x ∈ next ↔ g.StepsTo .forward n x := mem_neighbours hg
    by_cases hgoal : b ∈ next
    · exact iff_of_true (by simp [hgoal]) (.tail' (h.reach List.mem_cons_self) ((hnext b).1 hgoal))
    obtain ⟨fresh, hstack, hnodup, hfresh, hmem⟩ := fresh_of_push (f := pushFresh) (H := fun s x => s.has x.val)
      (fun _ _ => rfl) (fun s stack n ns hn => by simp [pushFresh, hn])
      (fun s stack n ns hn => ⟨s.add n.val, fun x => by rw [MoveSet.has_add, Id.val_inj], by simp [pushFresh, hn]⟩)
      seen stack next
    have hrest := h.step hnext hnodup fun x => by rw [hfresh, hseen]
    rw [← hstack] at hrest
    have hseen' (x : MoveId) : (pushFresh seen stack next).1.has x.val ↔
        x ∈ (pushFresh seen stack next).2 ++ n :: done := by
      have := hfresh x
      rw [hmem, hseen, hstack]
      grind
    have hlater := ih _ _ hrest hseen' (List.forall_mem_cons.2 ⟨fun hstep => hgoal ((hnext b).2 hstep), hmiss⟩)
      (by rw [List.length_cons]; omega)
    simpa [hgoal] using hlater

/-- A walk answers in any graph, and says whether steps within the iteration lead from one move to the other. -/
theorem hasPath_iff (hg : g.Linked) (ha : g.move a = .ok m) (b : MoveId) :
    ∃ r, g.hasPath a b = .ok r ∧ (r = true ↔ a = b ∨ TransGen (g.StepsTo .forward) a b) := by
  by_cases hab : a = b
  · exact ⟨true, by simp [hasPath, hab], by simp [hab]⟩
  · refine ⟨_, by simp only [hasPath, if_neg hab, ha, ok_bind]; rfl, ?_⟩
    rw [walkHits_iff hg (lt_of_move? (move?_of_move ha)) .begin (fun x => ?_) (by simp) (by simp)]
    · simp [hab]
    · rw [MoveSet.has_add, Id.val_inj]
      simp [MoveSet.has_empty]

theorem hasPath_iff_startsOnConstant : ∃ g, Program.startsOnConstant.graph Program.adder = .ok g ∧
    g.hasPath ⟨1⟩ ⟨0⟩ = .ok false ∧ ¬ TransGen (g.StepsTo .forward) ⟨1⟩ ⟨0⟩ := by
  obtain ⟨g, hg, h⟩ := exists_ok_of_any (x := Program.startsOnConstant.graph Program.adder) (p := fun g =>
    (g.move ⟨1⟩).toOption.any fun _ => decide (g.hasPath ⟨1⟩ ⟨0⟩ = .ok false)) (by decide +kernel)
  obtain ⟨m, hm, h⟩ := exists_ok_of_any h
  have hno := of_decide_eq_true h
  obtain ⟨r, hr, hiff⟩ := hasPath_iff (Program.graph_drawn hg).linked hm ⟨0⟩
  cases hno.symm.trans hr
  exact ⟨g, hg, hno, fun hpath => nomatch hiff.2 (.inr hpath)⟩

/-! ## Bypasses -/

/-- Edges that leave one place close no cycle if none of them leads back to it. -/
theorem acyclic_or {α : Type} {R S : α → α → Prop} {d : α} (hR : ∀ x, ¬ TransGen R x x)
    (hS : ∀ a b, S a b → a = d ∧ ¬ ReflTransGen R b d) (x : α) : ¬ TransGen (fun a b => R a b ∨ S a b) x x := by
  -- A path that is no path of `R` goes through `d`, and on along one of the edges.
  have hpath {a b : α} (h : TransGen (fun a b => R a b ∨ S a b) a b) :
      TransGen R a b ∨ ReflTransGen R a d ∧ ∃ c, S d c ∧ ReflTransGen R c b := by
    induction h with
    | single h =>
      rcases h with h | h
      · exact .inl (.single h)
      · obtain ⟨rfl, -⟩ := hS _ _ h
        exact .inr ⟨.refl, _, h, .refl⟩
    | tail _ h ih =>
      rcases h with h | h
      · exact ih.imp (·.tail h) fun ⟨ha, c, hc, hrest⟩ => ⟨ha, c, hc, hrest.tail h⟩
      · obtain ⟨rfl, -⟩ := hS _ _ h
        exact .inr ⟨ih.elim TransGen.to_reflTransGen And.left, _, h, .refl⟩
  intro h
  rcases hpath h with h | ⟨hd, c, hc, hrest⟩
  · exact hR x h
  · exact (hS d c hc).2 (hrest.trans hd)

variable {g' : Graph} {source dest : MoveId} {u : MergeRecord} {force : Bool}

theorem not_path_of_hasPath (hg : g.Linked) (h : g.hasPath a b = .ok false) : ¬ ReflTransGen g.Before a b := by
  unfold hasPath at h
  split at h
  · cases h
  rename_i hab
  obtain ⟨m, hm, h⟩ := bind_eq_ok.1 h
  rw [pure_eq_ok, ← Bool.not_eq_true, walkHits_iff hg (lt_of_move? (move?_of_move hm)) .begin (fun x => by
    rw [MoveSet.has_add, Id.val_inj]; simp [MoveSet.has_empty]) (by simp) (by simp)] at h
  rw [Relation.reflTransGen_iff_eq_or_transGen]
  rintro (rfl | hpath)
  · exact hab rfl
  · refine h (TransGen.mono (fun x y hxy => ?_) _ _ hpath)
    obtain ⟨e, l, hl, hlive, rfl, rfl, hdepth⟩ := before_iff.1 hxy
    exact ⟨l, ⟨⟨e, hl⟩, hlive, by simp [Dependence.isBack, hdepth], rfl⟩, rfl⟩

/-- The order once `dest` waits for all that `source` waits for. -/
def Heeds (g : Graph) (source dest a b : MoveId) : Prop :=
  g.Before a b ∨ b = dest ∧ a ≠ dest ∧ g.Before a source

/-- What orders two moves after a bypass. -/
theorem before_of_merge (hg : g.Linked) (h : g.merge source dest force = .ok (some (g', u)))
    (hab : g'.Before a b) : g.Heeds source dest a b ∨
      a = dest ∧ g.Before source b ∧ g.hasPath b dest = .ok false := by
  obtain ⟨_, hedges, hred⟩ := merge_eq_some h
  obtain ⟨_, _, _, -, -, -, halters, -⟩ := alters_of_redirect hred
  obtain ⟨New, hnew, hrec⟩ := recording_of_mergeEdges hg hedges
  obtain ⟨e, l, hl, hlive, rfl, rfl, hdepth⟩ := before_iff.1 hab
  rw [halters.link?] at hl
  rcases hrec.rewires.live_or_new hl hlive with hold | hl
  · exact .inl (.inl (before_iff.2 ⟨e, l, hold, hlive, rfl, rfl, hdepth⟩))
  rcases hnew _ _ _ hl with ⟨r, hin⟩ | ⟨htail, hdefers⟩
  · obtain ⟨e0, l0, hl0, hlive0, ht, hh, hd⟩ := hin.origin
    exact .inl (.inr ⟨hin.head, hin.tail, before_iff.2 ⟨e0, l0, hl0, hlive0, ht, hh, hd ▸ hdepth⟩⟩)
  · obtain ⟨e0, l0, hl0, hlive0, ht, hh, hd⟩ := hdefers.origin
    exact .inr ⟨htail, before_iff.2 ⟨e0, l0, hl0, hlive0, ht, hh, hd ▸ hdepth⟩, hdefers.clear⟩

theorem path_of_heeds (h : ReflTransGen (g.Heeds source dest) a dest) :
    ReflTransGen g.Before a dest ∨ TransGen g.Before a source := by
  induction h using ReflTransGen.head_induction_on with
  | refl => exact .inl .refl
  | head hstep _ ih =>
    rcases hstep with hstep | ⟨-, -, hin⟩
    · exact ih.imp (.head hstep) (.head hstep)
    · exact .inr (.single hin)

section

variable (hacyclic : ∀ n, ¬ TransGen g.Before n n)
include hacyclic

theorem not_heeds_circle (hlater : ∀ t, g.Before t source → ¬ TransGen g.Before dest t) (n : MoveId) :
    ¬ TransGen (g.Heeds source dest) n n := by
  rw [← Relation.transGen_swap]
  refine acyclic_or (R := Function.swap g.Before) (d := dest) (fun x => ?_) (fun b a hab => ⟨hab.1, ?_⟩) n
  · rw [Relation.transGen_swap]
    exact hacyclic x
  · rw [Relation.reflTransGen_swap, Relation.reflTransGen_iff_eq_or_transGen]
    exact fun hpath => hpath.elim hab.2.1 (hlater a hab.2.2)

theorem not_circle_of_heeds (hg : g.Linked) (h : g.merge source dest force = .ok (some (g', u)))
    (hheeds : ∀ n, ¬ TransGen (g.Heeds source dest) n n) (n : MoveId) : ¬ TransGen g'.Before n n := by
  intro hpath
  refine acyclic_or (d := dest) hheeds (fun a b hab => ⟨hab.1, fun hback => ?_⟩) n
    (TransGen.mono (fun _ _ => before_of_merge hg h) _ _ hpath)
  rcases path_of_heeds hback with hback | hback
  · exact not_path_of_hasPath hg hab.2.2 hback
  · exact hacyclic source (.head hab.2.1 hback)

end

/-- A bypass closes no cycle within the iteration, unless the operand comes before a move that the producer
waits for. -/
theorem acyclic_of_merge (hg : g.Linked) (hacyclic : ∀ n, ¬ TransGen g.Before n n)
    (h : g.merge source dest force = .ok (some (g', u)))
    (hlater : ∀ t, g.Before t source → ¬ TransGen g.Before dest t) (n : MoveId) : ¬ TransGen g'.Before n n :=
  not_circle_of_heeds hacyclic hg h (not_heeds_circle hacyclic hlater) n

/-- The operand takes a sum, which waits for its trigger. -/
theorem acyclic_of_merge_entangled : ∃ g g' u, HandsOut.entangled.graph Program.adder = .ok g ∧
    g.Before ⟨1⟩ ⟨2⟩ ∧ g.merge ⟨2⟩ ⟨3⟩ false = .ok (some (g', u)) ∧ ∀ n, ¬ TransGen g'.Before n n := by
  obtain ⟨g, hg, h⟩ := exists_ok_of_any (x := HandsOut.entangled.graph Program.adder)
    (p := fun g => decide (g.Before ⟨1⟩ ⟨2⟩) && (g.merge ⟨2⟩ ⟨3⟩ false).toOption.any Option.isSome) (by decide +kernel)
  obtain ⟨hwaits, h⟩ := Bool.and_eq_true_iff.1 h
  obtain ⟨x, hmerge, hx⟩ := exists_ok_of_any h
  obtain ⟨⟨g', u⟩, rfl⟩ := Option.isSome_iff_exists.1 hx
  have hd := Program.graph_drawn hg
  have hlt {a b : MoveId} := hd.lt_of_path (Reseats.still .refl).1 (by decide) (a := a) (b := b)
  exact ⟨g, g', u, hg, of_decide_eq_true hwaits, hmerge, acyclic_of_merge hd.linked
    (fun n hn => Nat.lt_irrefl _ (hlt hn)) hmerge fun t ht hback => absurd (hlt (hback.tail ht)) (by decide)⟩

/-- An operand that reads the producer within the iteration comes before no move that the producer waits for. -/
theorem acyclic_of_merge_within (hg : g.Linked) (hacyclic : ∀ n, ¬ TransGen g.Before n n)
    (h : g.merge source dest force = .ok (some (g', u))) (hread : g.Before source dest) (n : MoveId) :
    ¬ TransGen g'.Before n n :=
  not_circle_of_heeds hacyclic hg h
    (not_heeds_circle hacyclic fun t ht hback => hacyclic t (.head ht (.head hread hback))) n

/-- Three copies in a circle: `r1 -> r2`, `r2 -> r3`, `r3 -> r1`. -/
def circle : Program where
  moves := #[{ src := .register ⟨⟨0⟩, 1⟩, dst := .register ⟨⟨0⟩, 2⟩ },
    { src := .register ⟨⟨0⟩, 2⟩, dst := .register ⟨⟨0⟩, 3⟩ },
    { src := .register ⟨⟨0⟩, 3⟩, dst := .register ⟨⟨0⟩, 1⟩ }]
  isLoop := true

/-- The first copy takes the value that the last one had before, which waited for the second. -/
theorem circle_merge_cyclic : ∃ g g' u, circle.graph Program.adder = .ok g ∧ (∀ n, ¬ TransGen g.Before n n) ∧
    g.merge ⟨2⟩ ⟨0⟩ false = .ok (some (g', u)) ∧ g'.Before ⟨0⟩ ⟨1⟩ ∧ g'.Before ⟨1⟩ ⟨0⟩ := by
  obtain ⟨g, hg, h⟩ := exists_ok_of_any (x := circle.graph Program.adder) (p := fun g =>
    (g.merge ⟨2⟩ ⟨0⟩ false).toOption.any fun x => x.any fun y => decide (y.1.Before ⟨0⟩ ⟨1⟩ ∧ y.1.Before ⟨1⟩ ⟨0⟩))
    (by decide +kernel)
  obtain ⟨x, hmerge, hx⟩ := exists_ok_of_any h
  rw [Option.any_eq_true] at hx
  obtain ⟨⟨g', u⟩, rfl, hx⟩ := hx
  have hlt {n : MoveId} := (Program.graph_drawn hg).lt_of_path (Reseats.still .refl).1 (by decide) (a := n) (b := n)
  exact ⟨g, g', u, hg, fun n hn => Nat.lt_irrefl _ (hlt hn), hmerge, of_decide_eq_true hx⟩

end Transport.Graph
