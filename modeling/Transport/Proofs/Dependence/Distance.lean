import Mathlib.Order.Bounds.Basic
import Transport.Proofs.Scheduling.Reports

/-!
# Distances are longest paths

The moves are finished depth first: each is listed once, and after every move that it leads to, unless that one
leads back to it (`Finishing`). So where no move leads back to itself, the distances of all that a move leads to
are known when its own is found, and the longest step from it is the longest path: `longestDistances_isGreatest`.
-/

namespace Transport

open Relation (ReflTransGen TransGen)

/-- The move that an edge is followed from. -/
def Way.near : Way → Link → MoveId
  | .forward, l => l.tail
  | .backward, l => l.head

/-- The move that an edge is followed to. -/
def Way.far : Way → Link → MoveId
  | .forward, l => l.head
  | .backward, l => l.tail

namespace Graph

variable {g : Graph} {way : Way} {n x y : MoveId} {l : Link} {path ns : List MoveId} {fuel : Nat}
  {s : MoveSet × List MoveId} {dist : Array Nat}

/-- The edge leads on from `n` within the iteration. -/
def Onward (g : Graph) (way : Way) (n : MoveId) (l : Link) : Prop :=
  (∃ e, g.link? e = some l) ∧ l.live ∧ l.dep.isBack = false ∧ way.near l = n

/-- An edge leads from `n` to `x` within the iteration. -/
def StepsTo (g : Graph) (way : Way) (n x : MoveId) : Prop := ∃ l, g.Onward way n l ∧ way.far l = x

/-- A path leads on from `n` within the iteration, and its steps take `w` cycles. -/
inductive Path (g : Graph) (way : Way) : MoveId → Nat → Prop
  | stay (n : MoveId) : Path g way n 0
  | step {n : MoveId} {l : Link} {c : Cycle} {w : Nat} (edge : g.Onward way n l) (latency : g.linkLatency l = .ok c)
      (rest : Path g way (way.far l) w) : Path g way n ((max c 1).toNat + w)

theorem mem_steps (hg : g.Linked) : (l, x) ∈ (g.stepsFrom way n).filter (fun (l, _) => !l.dep.isBack) ↔
    g.Onward way n l ∧ way.far l = x := by
  cases way with
  | forward =>
    simp only [stepsFrom, List.mem_filter, List.mem_map, Prod.exists, hg.mem_leaving, Onward, Way.near, Way.far]
    grind
  | backward =>
    simp only [stepsFrom, List.mem_filter, List.mem_map, Prod.exists, hg.mem_entering, Onward, Way.near, Way.far]
    grind

theorem mem_neighbours (hg : g.Linked) : x ∈ g.neighbours way n ↔ g.StepsTo way n x := by
  have hsteps : x ∈ g.neighbours way n ↔
      ∃ l, (l, x) ∈ (g.stepsFrom way n).filter (fun (l, _) => !l.dep.isBack) := by
    cases way <;> simp only [neighbours, stepsFrom, List.mem_map, List.mem_filter, Prod.exists] <;> grind
  simp only [hsteps, mem_steps hg, StepsTo]

theorem StepsTo.known (h : g.StepsTo way n x) (hg : g.Linked) : x.val < g.moves.size := by
  obtain ⟨l, ⟨⟨e, he⟩, -⟩, rfl⟩ := h
  cases way with
  | forward => obtain ⟨m, hm⟩ := hg.head_known he; exact lt_of_move? hm
  | backward => obtain ⟨m, hm⟩ := hg.tail_known he; exact lt_of_move? hm

/-! ## Finishing depth first -/

/-- The moves of `s` have been finished while those of `path` are being visited. -/
structure Finishing (g : Graph) (way : Way) (path : List MoveId) (s : MoveSet × List MoveId) : Prop where
  nodup : (path ++ s.2).Nodup
  known {x : MoveId} : x ∈ path ++ s.2 → x.val < g.moves.size
  seen {x : MoveId} : s.1.has x.val ↔ x ∈ path ++ s.2
  after {x y : MoveId} {done : List MoveId} : x :: done <:+ s.2 → g.StepsTo way x y →
    y ∈ done ∨ ReflTransGen (g.StepsTo way) y x

/-- Visits one after the other, each of which finishes its move and keeps what was finished before. -/
theorem Finishing.each {f : MoveSet × List MoveId → MoveId → MoveSet × List MoveId} (ns done : List MoveId)
    (step : ∀ n ∈ ns, ∀ t, g.Finishing way path t → done <:+ t.2 →
      g.Finishing way path (f t n) ∧ n ∈ path ++ (f t n).2 ∧ t.2 <:+ (f t n).2)
    (h : g.Finishing way path s) (hdone : done <:+ s.2) : g.Finishing way path (ns.foldl f s) ∧
      (∀ n ∈ ns, n ∈ path ++ (ns.foldl f s).2) ∧ s.2 <:+ (ns.foldl f s).2 := by
  induction ns generalizing s with
  | nil => exact ⟨h, fun _ h => (nomatch h), List.suffix_rfl⟩
  | cons n ns ih =>
    obtain ⟨hn, hmem, hsuffix⟩ := step n List.mem_cons_self s h hdone
    obtain ⟨hrest, hmems, hlast⟩ := ih (fun k hk => step k (List.mem_cons_of_mem _ hk)) hn (hdone.trans hsuffix)
    refine ⟨hrest, fun k hk => ?_, hsuffix.trans hlast⟩
    rcases List.mem_cons.1 hk with rfl | hk
    · exact List.mem_append.2 ((List.mem_append.1 hmem).imp_right fun hd => hlast.subset hd)
    · exact hmems k hk

/-- A visit finishes the move and keeps what was finished before. The moves of `path`, which lead to the move, are
not finished yet; they and the finished ones are known, so there is fuel left for the move. -/
theorem Finishing.visit (h : g.Finishing way path s) (hg : g.Linked) (hn : n.val < g.moves.size)
    (hpath : ∀ p ∈ path, ReflTransGen (g.StepsTo way) p n) (hfuel : g.moves.size < fuel + (path ++ s.2).length) :
    g.Finishing way path (g.visit way fuel n s) ∧ n ∈ path ++ (g.visit way fuel n s).2 ∧
      s.2 <:+ (g.visit way fuel n s).2 := by
  induction fuel generalizing path n s with
  | zero =>
    have := length_le_of_known h.nodup fun x hx => h.known hx
    omega
  | succ fuel ih =>
    obtain ⟨seen, done⟩ := s
    simp only [Graph.visit]
    by_cases hseen : seen.has n.val
    · rw [if_pos hseen]
      exact ⟨h, h.seen.1 hseen, List.suffix_rfl⟩
    rw [if_neg hseen]
    have hstart : g.Finishing way (n :: path) (seen.add n.val, done) := by
      refine ⟨List.nodup_cons.2 ⟨fun hmem => hseen (h.seen.2 hmem), h.nodup⟩, fun hx => ?_, ?_, h.after⟩
      · rcases List.mem_cons.1 hx with rfl | hx
        · exact hn
        · exact h.known hx
      · intro x
        rw [MoveSet.has_add, Id.val_inj, h.seen, List.cons_append, List.mem_cons]
    -- The moves that `n` leads to are visited with `n` on the path.
    obtain ⟨hdone, hmem, hsuffix⟩ := hstart.each (f := fun s m => g.visit way fuel m s) (g.neighbours way n) done
      (fun m hm t ht hlen => by
        have hm := (mem_neighbours hg).1 hm
        refine ih ht (hm.known hg) (fun p hp => ?_) ?_
        · rcases List.mem_cons.1 hp with rfl | hp
          · exact .single hm
          · exact (hpath p hp).tail hm
        · have := hlen.length_le
          simp only [List.length_append, List.length_cons] at hfuel ⊢
          omega) List.suffix_rfl
    generalize (g.neighbours way n).foldl (fun s m => g.visit way fuel m s) (seen.add n.val, done) = t at *
    have hperm : (path ++ n :: t.2).Perm (n :: path ++ t.2) := List.perm_middle
    refine ⟨⟨hperm.nodup_iff.2 hdone.nodup, fun hx => hdone.known (hperm.mem_iff.1 hx),
      hdone.seen.trans hperm.mem_iff.symm, fun {x y post} hx hy => ?_⟩, by simp, hsuffix.trans (List.suffix_cons n t.2)⟩
    rcases List.suffix_cons_iff.1 hx with heq | hx
    · obtain ⟨rfl, rfl⟩ := List.cons.inj heq
      rcases List.mem_append.1 (hmem y ((mem_neighbours hg).2 hy)) with hyp | hyd
      · rcases List.mem_cons.1 hyp with rfl | hyp
        · exact .inr .refl
        · exact .inr (hpath y hyp)
      · exact .inl hyd
    · exact hdone.after hx hy

/-- What the listing of all moves guarantees, also where moves lead back to themselves. -/
theorem postorder_finishes (hg : g.Linked) (way : Way) : ∃ seen,
    g.Finishing way [] (seen, (g.postorder way).reverse) ∧ ∀ n ∈ g.moveIds, n ∈ g.postorder way := by
  have hempty : g.Finishing way [] (MoveSet.empty, []) :=
    ⟨List.nodup_nil, fun h => (nomatch h), by simp [MoveSet.has_empty], fun h => by simp at h⟩
  obtain ⟨hdone, hmem, -⟩ := hempty.each (f := fun s n => g.visit way (g.moves.size + 1) n s) g.moveIds []
    (fun n hn t ht _ => by
      obtain ⟨m, hm, -⟩ := mem_moveIds.1 hn
      exact ht.visit hg (lt_of_move? hm) (fun _ h => nomatch h) (by omega)) List.suffix_rfl
  refine ⟨_, by rw [postorder, List.reverse_reverse]; exact hdone, fun n hn => ?_⟩
  exact List.mem_reverse.2 (hmem n hn)

/-! ## The longest path -/

section

variable (hlatency : ∀ l, g.Onward way n l → ∃ c, g.linkLatency l = .ok c)
  (hfit : ∀ w, g.Path way n w → w < 4294967296)
  (hdist : ∀ x, g.StepsTo way n x → IsGreatest {w | g.Path way x w} (dist[x.val]?.getD 0))
include hlatency hfit hdist

/-- Step by step, the best path so far gets as long as the longest that begins with a step seen. -/
theorem longestStep_walk {ls : List (Link × MoveId)} (hls : ∀ l x, (l, x) ∈ ls → g.Onward way n l ∧ way.far l = x)
    {best : Nat} (hbest : g.Path way n best) : ∃ d, ls.foldlM (fun best (l, other) => do
        let weight := (max (← g.linkLatency l) 1).toNat
        return max best (← addWord (dist[other.val]?.getD 0) weight)) best = .ok d ∧
      g.Path way n d ∧ best ≤ d ∧ ∀ l x, (l, x) ∈ ls → ∀ c w, g.linkLatency l = .ok c → g.Path way x w →
        (max c 1).toNat + w ≤ d := by
  induction ls generalizing best with
  | nil => exact ⟨best, rfl, hbest, Nat.le_refl _, fun _ _ h => nomatch h⟩
  | cons p ls ih =>
    obtain ⟨l, x⟩ := p
    obtain ⟨hl, rfl⟩ := hls l x List.mem_cons_self
    obtain ⟨c, hc⟩ := hlatency l hl
    obtain ⟨hmem, hupper⟩ := hdist _ ⟨l, hl, rfl⟩
    generalize hd₀ : dist[(way.far l).val]?.getD 0 = d₀ at hmem hupper
    have hstep : g.Path way n ((max c 1).toNat + d₀) := .step hl hc hmem
    have hsum : addWord d₀ (max c 1).toNat = .ok (d₀ + (max c 1).toNat) := by
      have := hfit _ hstep
      rw [addWord, addBelow, if_pos (by omega)]
      rfl
    have hnext : g.Path way n (max best (d₀ + (max c 1).toNat)) := by
      rw [Nat.add_comm d₀]
      rcases Nat.le_total best ((max c 1).toNat + d₀) with h | h
      · rwa [Nat.max_eq_right h]
      · rwa [Nat.max_eq_left h]
    obtain ⟨d, hd, hext, hle, hall⟩ := ih (fun k y hk => hls k y (List.mem_cons_of_mem _ hk)) hnext
    refine ⟨d, ?_, hext, by omega, fun k y hk c' w hc' hw => ?_⟩
    · rw [List.foldlM_cons]
      simp only [hc, hd₀, hsum, ok_bind]
      exact hd
    · rcases List.mem_cons.1 hk with heq | hk
      · cases heq
        cases hc.symm.trans hc'
        have := hupper hw
        omega
      · exact hall k y hk c' w hc' hw

/-- The longest step from a move is the longest path if the paths of all that it leads to are known. -/
theorem longestStep_isGreatest (hg : g.Linked) :
    ∃ d, g.longestStep way dist n = .ok d ∧ IsGreatest {w | g.Path way n w} d := by
  obtain ⟨d, hd, hext, -, hall⟩ := longestStep_walk hlatency hfit hdist (fun l x h => (mem_steps hg).1 h) (.stay n)
  refine ⟨d, hd, hext, fun w hw => ?_⟩
  cases hw with
  | stay => exact Nat.zero_le d
  | step hl hc hrest => exact hall _ _ ((mem_steps hg).2 ⟨hl, rfl⟩) _ _ hc hrest

end

/-- Move by move, the distances of all that is listed are found. -/
theorem longestDistances_walk (hg : g.Linked) (hlatency : ∀ n l, g.Onward way n l → ∃ c, g.linkLatency l = .ok c)
    (hfit : ∀ n w, g.Path way n w → w < 4294967296) (pre : List MoveId) (dist : Array Nat)
    (hknown : ∀ x ∈ ns, x.val < dist.size)
    (hbefore : ∀ pre' x post, ns = pre' ++ x :: post → ∀ y, g.StepsTo way x y → y ∈ pre ++ pre')
    (hdist : ∀ x ∈ pre, ∃ d, dist[x.val]? = some d ∧ IsGreatest {w | g.Path way x w} d) :
    ∃ dist', ns.foldlM (fun dist n => do return dist.setIfInBounds n.val (← g.longestStep way dist n)) dist =
      .ok dist' ∧ ∀ x ∈ pre ++ ns, ∃ d, dist'[x.val]? = some d ∧ IsGreatest {w | g.Path way x w} d := by
  induction ns generalizing pre dist with
  | nil => exact ⟨dist, rfl, by simpa using hdist⟩
  | cons x ns ih =>
    have hsteps (y : MoveId) (hy : g.StepsTo way x y) : IsGreatest {w | g.Path way y w} (dist[y.val]?.getD 0) := by
      obtain ⟨d, hd, h⟩ := hdist y (by simpa using hbefore [] x ns rfl y hy)
      rwa [hd]
    obtain ⟨d, hd, hgreatest⟩ := longestStep_isGreatest (hlatency x) (hfit x) hsteps hg
    obtain ⟨dist', hrest, hall⟩ := ih (pre ++ [x]) (dist.setIfInBounds x.val d)
      (fun y hy => by simpa using hknown y (List.mem_cons_of_mem _ hy))
      (fun pre' y post heq z hz => by simpa using hbefore (x :: pre') y post (by simp [heq]) z hz) fun y hy => by
        rw [Array.getElem?_setIfInBounds]
        by_cases hxy : x.val = y.val
        · rw [if_pos hxy, if_pos (hknown x List.mem_cons_self)]
          exact ⟨d, rfl, Id.ext_val hxy ▸ hgreatest⟩
        · rw [if_neg hxy]
          exact hdist y ((List.mem_append.1 hy).resolve_right fun h => hxy (by rw [List.mem_singleton.1 h]))
    refine ⟨dist', ?_, by simpa using hall⟩
    rw [List.foldlM_cons]
    simp only [hd, ok_bind, pure_bind]
    exact hrest

/-- The listing of the moves has every move of the graph once. Where no move leads back to itself, it has each
after all that the move leads to, and the distance found for a move is the length of the longest path, provided that the
edges have latencies and the lengths of paths fit their width. -/
theorem longestDistances_isGreatest (hg : g.Linked) (way : Way) :
    (g.postorder way).Nodup ∧ (∀ n ∈ g.moveIds, n ∈ g.postorder way) ∧
    ((∀ n, ¬ TransGen (g.StepsTo way) n n) →
      (∀ pre x post, g.postorder way = pre ++ x :: post → ∀ y, g.StepsTo way x y → y ∈ pre) ∧
      ((∀ n l, g.Onward way n l → ∃ c, g.linkLatency l = .ok c) →
        (∀ n w, g.Path way n w → w < 4294967296) → ∃ dist, g.longestDistances way = .ok dist ∧
          ∀ n ∈ g.moveIds, ∃ d, dist[n.val]? = some d ∧ IsGreatest {w | g.Path way n w} d)) := by
  obtain ⟨seen, hfinish, hall⟩ := g.postorder_finishes hg way
  refine ⟨by simpa using hfinish.nodup, hall, fun hacyclic => ?_⟩
  have hbefore (pre : List MoveId) (x : MoveId) (post : List MoveId) (heq : g.postorder way = pre ++ x :: post)
      (y : MoveId) (hy : g.StepsTo way x y) : y ∈ pre := by
    have hsuffix : x :: pre.reverse <:+ (g.postorder way).reverse := ⟨post.reverse, by simp [heq]⟩
    rcases hfinish.after hsuffix hy with hmem | hback
    · exact List.mem_reverse.1 hmem
    · exact absurd (.head' hy hback) (hacyclic x)
  refine ⟨hbefore, fun hlatency hfit => ?_⟩
  obtain ⟨dist, hdist, hgreatest⟩ := longestDistances_walk hg hlatency hfit [] (.replicate g.moves.size 0)
    (fun x hx => by simpa using hfinish.known (x := x) (by simpa using hx)) hbefore fun _ h => nomatch h
  exact ⟨dist, hdist, fun n hn => hgreatest n (hall n hn)⟩

end Graph

namespace Program

theorem longestDistances_isGreatest_startsOnConstant : ∃ g, startsOnConstant.graph adder = .ok g ∧
    g.moveIds = [⟨0⟩, ⟨1⟩] ∧ ∀ way, ∃ dist, g.longestDistances way = .ok dist ∧
      ∀ n ∈ g.moveIds, ∃ d, dist[n.val]? = some d ∧ IsGreatest {w | g.Path way n w} d := by
  obtain ⟨g, hg, h⟩ := exists_ok_of_any (x := startsOnConstant.graph adder) (p := fun g =>
    decide (g.moveIds = [⟨0⟩, ⟨1⟩] ∧ g.links = #[{ tail := ⟨0⟩, head := ⟨1⟩, dep := .register .raw ⟨⟨0⟩, 0⟩ }]))
    (by decide +kernel)
  obtain ⟨hmoves, hlinks⟩ := of_decide_eq_true h
  have hlink {way : Way} {n : MoveId} {l : Link} (hl : g.Onward way n l) :
      l = { tail := ⟨0⟩, head := ⟨1⟩, dep := .register .raw ⟨⟨0⟩, 0⟩ } := by
    obtain ⟨⟨e, he⟩, -⟩ := hl
    have hmem : l ∈ g.links := Array.mem_of_getElem? he
    simpa [hlinks] using hmem
  -- The one edge leads to a move that none leads on from.
  have hlast {way : Way} {n : MoveId} {l l' : Link} (hl : g.Onward way n l) (hl' : g.Onward way (way.far l) l') :
      False := by
    have hnear := hl'.2.2.2
    cases hlink hl
    cases hlink hl'
    cases way <;> exact absurd hnear (by decide)
  refine ⟨g, hg, hmoves, fun way => ?_⟩
  obtain ⟨-, -, hgreatest⟩ := Graph.longestDistances_isGreatest (graph_drawn hg).linked way
  refine (hgreatest fun n hn => ?_).2 (fun n l hl => ?_) fun n w hw => ?_
  · obtain ⟨x, hx, hrest⟩ := TransGen.head'_iff.1 hn
    obtain ⟨y, ⟨l', hl', -⟩, -⟩ := TransGen.head'_iff.1 (.tail' hrest hx)
    obtain ⟨l, hl, rfl⟩ := hx
    exact hlast hl hl'
  · cases hlink hl
    exact ⟨1, rfl⟩
  · cases hw with
    | stay => decide
    | step hl hc hrest =>
      cases hrest with
      | stay =>
        cases hlink hl
        cases hc
        decide
      | step hl' _ _ => exact (hlast hl hl').elim

end Program

end Transport
