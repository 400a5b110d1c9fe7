import Transport.Dependence.LiveRange
import Transport.Proofs.Dependence.EdgeLists

/-!
# Live ranges are closed

A live range is found by working off a list. When the list is empty, the range is closed: every
edge that carries its register out of one of its writes or into one of its reads stays inside
(`Spans`). The fuel suffices because a move is put on the list at most once in each role.
-/

namespace Transport

theorem nodup_toList_moveIdSet {s : MoveIdSet} : s.toList.Nodup := by
  refine s.distinct_toList.imp fun {a b} h hab => h ?_
  subst hab
  exact Std.LawfulEqOrd.compare_eq_iff_eq.2 rfl

/-- A set of positions in a table is not larger than the table. -/
theorem size_moveIdSet_le {s : MoveIdSet} {k : Nat} (h : ∀ n ∈ s, n.val < k) : s.size ≤ k := by
  rw [← Std.ExtTreeSet.length_toList]
  exact length_le_of_known nodup_toList_moveIdSet fun n hn => h n (Std.ExtTreeSet.mem_toList.1 hn)

namespace LiveRange

/-- The moves of the range in a role. -/
def inRole (lr : LiveRange) : Role → MoveIdSet
  | .dest => lr.writes
  | .source => lr.reads
  | .guard => lr.guards

def count (lr : LiveRange) : Nat := lr.writes.size + lr.reads.size + lr.guards.size

variable {lr : LiveRange} {work : List (Bool × MoveId)} {n n' : MoveId} {role role' : Role}

theorem mem_dest {w : MoveId} (h : lr.writes.toList = [w]) : n ∈ lr.inRole .dest ↔ n = w := by
  rw [← List.mem_singleton, ← h]
  exact Std.ExtTreeSet.mem_toList.symm

theorem mem_take : n' ∈ (lr.take work n role).1.inRole role' ↔
    n' ∈ lr.inRole role' ∨ role' = role ∧ n' = n := by
  cases role <;> cases role' <;> simp [take, inRole, or_comm, eq_comm (a := n)]

theorem work_take : (lr.take work n role).2 =
    if (lr.inRole role).contains n then work else (decide (role = .dest), n) :: work := by
  cases role <;> rfl

/-- Whatever is new in the range is put on the list. -/
theorem count_take :
    (lr.take work n role).1.count + work.length = lr.count + (lr.take work n role).2.length := by
  rw [work_take]
  cases role <;> simp only [take, count, inRole, Std.ExtTreeSet.size_insert] <;> split <;>
    simp_all <;> omega

end LiveRange

namespace Graph

variable {g : Graph} {r : Reg} {n : MoveId} {b : Bool} {l : Link} {lr lr' : LiveRange}
  {work busy : List (Bool × MoveId)} {start : MoveId × Role} {s : LiveRange × List (Bool × MoveId)}
  {role : Role}

theorem mem_valueEdges (hg : g.Linked) : l ∈ g.valueEdges r b n ↔
    (∃ e, g.link? e = some l) ∧ l.live ∧ (if b then l.tail else l.head) = n ∧ l.dep.carries .raw r := by
  cases b with
  | true =>
    simp only [valueEdges, if_true, List.mem_filter, List.mem_map, Prod.exists, exists_and_right,
      exists_eq_right, hg.mem_leaving]
    grind
  | false =>
    simp only [valueEdges, Bool.false_eq_true, if_false, List.mem_filter, List.mem_map, Prod.exists,
      exists_and_right, exists_eq_right, hg.mem_entering]
    grind

/-- The move at the other end of a value-carrying edge, with its role. -/
def otherEnd (isWrite : Bool) (l : Link) : MoveId × Role :=
  if isWrite then (l.head, if l.dep.guardUse then .guard else .source) else (l.tail, .dest)

theorem followEdge_eq : followEdge b s l = s.1.take s.2 (otherEnd b l).1 (otherEnd b l).2 := by
  cases b <;> rfl

/-- The edges of a write or a read stay inside the range, and within one iteration. -/
def Handled (g : Graph) (r : Reg) (lr : LiveRange) (b : Bool) (n : MoveId) : Prop :=
  ∀ l ∈ g.valueEdges r b n, l.dep.isBack = false ∧ l.dep.isPseudo = false ∧
    (otherEnd b l).1 ∈ lr.inRole (otherEnd b l).2

/-- A range that is found from `start`: the edges of the moves in `busy` are being followed, those of
the moves in `work` still have to be. -/
structure Ranging (g : Graph) (r : Reg) (start : MoveId × Role) (busy : List (Bool × MoveId))
    (lr : LiveRange) (work : List (Bool × MoveId)) : Prop where
  begins : start.1 ∈ lr.inRole start.2
  closed {role : Role} {n : MoveId} : n ∈ lr.inRole role →
    (decide (role = .dest), n) ∈ busy ∨ (decide (role = .dest), n) ∈ work ∨
      g.Handled r lr (decide (role = .dest)) n
  justified {role : Role} {n : MoveId} : n ∈ lr.inRole role → (n, role) = start ∨
    ∃ role' x l, x ∈ lr.inRole role' ∧ l ∈ g.valueEdges r (decide (role' = .dest)) x ∧
      otherEnd (decide (role' = .dest)) l = (n, role)
  grown {role : Role} {n : MoveId} : n ∈ lr.inRole role → (n, role) = start ∨
    ∃ l, l ∈ g.valueEdges r (decide (start.2 = .dest)) start.1
  work {b : Bool} {n : MoveId} : (b, n) ∈ work → ∃ role, decide (role = .dest) = b ∧ n ∈ lr.inRole role
  known {role : Role} {n : MoveId} : n ∈ lr.inRole role → n.val < g.moves.size

theorem Ranging.handled (h : g.Ranging r start [] lr []) (hn : n ∈ lr.inRole role) :
    g.Handled r lr (decide (role = .dest)) n := by
  rcases h.closed hn with hx | hx | hx
  · cases hx
  · cases hx
  · exact hx

theorem otherEnd_known (hg : g.Linked) {e : EdgeId} (he : g.link? e = some l) :
    (otherEnd b l).1.val < g.moves.size := by
  cases b with
  | true => obtain ⟨m, hm⟩ := hg.head_known he; exact lt_of_move? hm
  | false => obtain ⟨m, hm⟩ := hg.tail_known he; exact lt_of_move? hm

theorem Ranging.follow (h : g.Ranging r start busy lr work) (hg : g.Linked) {x : MoveId}
    (hx : x ∈ lr.inRole role) {ls : List Link}
    (hls : ∀ l ∈ ls, l ∈ g.valueEdges r (decide (role = .dest)) x)
    (hs : ls.foldl (followEdge (decide (role = .dest))) (lr, work) = s) :
    g.Ranging r start busy s.1 s.2 ∧ s.1.count + work.length = lr.count + s.2.length ∧
      (∀ role' n, n ∈ lr.inRole role' → n ∈ s.1.inRole role') ∧
      ∀ l ∈ ls, (otherEnd (decide (role = .dest)) l).1 ∈
        s.1.inRole (otherEnd (decide (role = .dest)) l).2 := by
  induction ls generalizing lr work with
  | nil => subst hs; exact ⟨h, rfl, fun _ _ => id, by simp⟩
  | cons l ls ih =>
    rw [List.foldl_cons, followEdge_eq] at hs
    generalize hy : otherEnd (decide (role = .dest)) l = y at hs
    have hl := hls l (.head _)
    have hmono (role' : Role) (n : MoveId) (hn : n ∈ lr.inRole role') :
        n ∈ (lr.take work y.1 y.2).1.inRole role' := LiveRange.mem_take.2 (.inl hn)
    have hwork (w : Bool × MoveId) (hw : w ∈ work) : w ∈ (lr.take work y.1 y.2).2 := by
      rw [LiveRange.work_take]; split
      · exact hw
      · exact .tail _ hw
    have hclosed {role' : Role} {n : MoveId} (hn : n ∈ lr.inRole role') :
        (decide (role' = .dest), n) ∈ busy ∨ (decide (role' = .dest), n) ∈ (lr.take work y.1 y.2).2 ∨
          g.Handled r (lr.take work y.1 y.2).1 (decide (role' = .dest)) n :=
      (h.closed hn).imp_right (.imp (hwork _)
        fun hh k hk => (hh k hk).imp_right (.imp_right (hmono _ _)))
    have hnext : g.Ranging r start busy (lr.take work y.1 y.2).1 (lr.take work y.1 y.2).2 := by
      refine ⟨hmono _ _ h.begins, ?_, ?_, ?_, ?_, ?_⟩
      · intro role' n hn
        rcases LiveRange.mem_take.1 hn with hn | ⟨rfl, rfl⟩
        · exact hclosed hn
        · by_cases hin : y.1 ∈ lr.inRole y.2
          · exact hclosed hin
          · right; left
            rw [LiveRange.work_take, if_neg (by simpa using hin)]
            exact .head _
      · intro role' n hn
        rcases LiveRange.mem_take.1 hn with hn | ⟨rfl, rfl⟩
        · refine (h.justified hn).imp_right ?_
          rintro ⟨role1, x1, k, hx1, hk⟩
          exact ⟨role1, x1, k, hmono _ _ hx1, hk⟩
        · exact .inr ⟨role, x, l, hmono _ _ hx, hl, hy⟩
      · intro role' n hn
        rcases LiveRange.mem_take.1 hn with hn | -
        · exact h.grown hn
        · rcases h.grown hx with rfl | hgrown
          · exact .inr ⟨l, hl⟩
          · exact .inr hgrown
      · intro b n hn
        rw [LiveRange.work_take] at hn
        split at hn
        · obtain ⟨role1, hb, hn⟩ := h.work hn
          exact ⟨role1, hb, hmono _ _ hn⟩
        · rcases List.mem_cons.1 hn with heq | hn
          · cases heq
            exact ⟨y.2, rfl, LiveRange.mem_take.2 (.inr ⟨rfl, rfl⟩)⟩
          · obtain ⟨role1, hb, hn⟩ := h.work hn
            exact ⟨role1, hb, hmono _ _ hn⟩
      · intro role' n hn
        rcases LiveRange.mem_take.1 hn with hn | ⟨rfl, rfl⟩
        · exact h.known hn
        · obtain ⟨⟨e, he⟩, -⟩ := (mem_valueEdges hg).1 hl
          subst hy
          exact otherEnd_known hg he
    obtain ⟨hrest, hcount, hkeep, hmem⟩ := ih hnext (hmono _ _ hx) (fun k hk => hls k (.tail _ hk)) hs
    refine ⟨hrest, ?_, fun role' n hn => hkeep role' n (hmono role' n hn), ?_⟩
    · have := @LiveRange.count_take lr work y.1 y.2
      omega
    · intro k hk
      rcases List.mem_cons.1 hk with rfl | hk
      · rw [hy]; exact hkeep _ _ (LiveRange.mem_take.2 (.inr ⟨rfl, rfl⟩))
      · exact hmem k hk

theorem Ranging.count_le (h : g.Ranging r start busy lr work) : lr.count ≤ 3 * g.moves.size := by
  have hw : lr.writes.size ≤ g.moves.size :=
    size_moveIdSet_le fun n hn => h.known (show n ∈ lr.inRole .dest from hn)
  have hr : lr.reads.size ≤ g.moves.size :=
    size_moveIdSet_le fun n hn => h.known (show n ∈ lr.inRole .source from hn)
  have hd : lr.guards.size ≤ g.moves.size :=
    size_moveIdSet_le fun n hn => h.known (show n ∈ lr.inRole .guard from hn)
  unfold LiveRange.count
  omega

/-- One round: the edges of the move on top of the list are followed. -/
theorem Ranging.step (hg : g.Linked) (hn : n ∈ lr.inRole role)
    (h : g.Ranging r start [] lr ((decide (role = .dest), n) :: work))
    (hinside : (g.valueEdges r (decide (role = .dest)) n).any
      (fun l => l.dep.isBack || l.dep.isPseudo) = false)
    (hs : (g.valueEdges r (decide (role = .dest)) n).foldl (followEdge (decide (role = .dest)))
      (lr, work) = s) :
    g.Ranging r start [] s.1 s.2 ∧ s.1.count + work.length = lr.count + s.2.length := by
  have hbusy : g.Ranging r start [(decide (role = .dest), n)] lr work := by
    refine ⟨h.begins, fun {role' x} hx => ?_, h.justified, h.grown, fun hw => h.work (.tail _ hw), h.known⟩
    rcases h.closed hx with hnil | hw | hh
    · cases hnil
    · exact (List.mem_cons.1 hw).imp (by simp) .inl
    · exact .inr (.inr hh)
  obtain ⟨hnext, hcount, -, hmem⟩ := hbusy.follow hg hn (fun _ => id) hs
  refine ⟨⟨hnext.begins, fun {role' x} hx => ?_, hnext.justified, hnext.grown, hnext.work, hnext.known⟩, hcount⟩
  rcases hnext.closed hx with hb | hw | hh
  · obtain ⟨hrole, rfl⟩ := Prod.mk.inj (List.mem_singleton.1 hb)
    right; right
    intro l hl
    rw [hrole] at hl ⊢
    have := List.any_eq_false.1 hinside l hl
    simp only [Bool.or_eq_true, not_or, Bool.not_eq_true] at this
    exact ⟨this.1, this.2, hmem l hl⟩
  · exact .inr (.inl hw)
  · exact .inr (.inr hh)

/-- The walk ends with an empty list: each round uses up one unit of fuel and one move in one role,
and there are no more of them than fuel. -/
theorem ranging_of_growRange (hg : g.Linked) {fuel : Nat} (hr : g.Ranging r start [] lr work)
    (hfuel : fuel + lr.count = 3 * g.moves.size + 1 + work.length)
    (h : g.growRange r fuel work lr = some lr') : g.Ranging r start [] lr' [] := by
  induction fuel generalizing work lr with
  | zero =>
    have := hr.count_le
    cases work with
    | nil => simp only [growRange, Option.some.injEq] at h; exact h ▸ hr
    | cons w work => omega
  | succ fuel ih =>
    cases work with
    | nil => simp only [growRange, Option.some.injEq] at h; exact h ▸ hr
    | cons w work =>
      obtain ⟨b, n⟩ := w
      obtain ⟨role, rfl, hn⟩ := hr.work (.head _)
      simp only [growRange] at h
      split at h
      · cases h
      rename_i hinside
      obtain ⟨hnext, hcount⟩ := hr.step hg hn (by simpa using hinside) rfl
      refine ih hnext ?_ h
      simp only [List.length_cons] at hfuel
      omega

end Graph

end Transport
