import Transport.Proofs.Program.Acceptance
import Transport.Proofs.Resource.Agreement

/-!
# Loops written out twice

For a loop body the walk goes over the moves a second time. A block that holds the moves of the
body twice is walked once, and meets the same accesses under other names (`Access.unroll`). What an
access sees does not depend on the names (`meets_map`), and of what the second iteration did itself
it sees as much as it would without the first (`meets_restrict`). So the edges of the loop are those
of the block: inside an iteration those inside either copy, and from one iteration to the next those
from the first copy to the second (`Graph.UnrollsTo`).
-/

namespace Transport.Flow

variable {s s' : State} {a b w : Access} {e : Effect} {q : Place} {t h : MoveId} {d : Dependence}
  {es es' : List (Access × Effect)} {moves : List (Move × MoveId × Option MemoryAccess)} {guardUse : Bool}
  {hazard : Hazard} {pass : Nat}

/-! ## What an access sees -/

/-- Access `e` by `a` depends on that by `w`, if it may depend on the move of `w` at all. -/
inductive Sees (s : State) (a : Access) (e : Effect) (w : Access) : Dependence → Prop
  | raw (he : e.write = false) (hw : w ∈ (s.cell e.place).defs)
      (hx : e.firm ∨ e.place = .returnAddress ∨ excludes w a = false) :
      Sees s a e w (e.place.dep .raw e.firm 0)
  | war {firm : Bool} (he : e.write = true) (hr : (w, firm) ∈ (s.cell e.place).reads)
      (hx : firm ∨ excludes w a = false) : Sees s a e w (e.place.dep .war firm 0)
  | waw (he : e.write = true) (hw : w ∈ (s.cell e.place).defs)
      (hx : e.place = .memory ∨ excludes w a = false) : Sees s a e w (e.place.dep .waw false 0)

/-- The dependence inside one iteration. -/
def inner (d : Dependence) : Dependence := { d with loopDepth := 0 }

@[simp] theorem inner_dep : inner (q.dep hazard guardUse pass) = q.dep hazard guardUse 0 := by
  cases q <;> rfl

theorem inner_of_depth (hd : d.loopDepth = 0) : inner d = d := by
  rw [inner, ← hd]

theorem eq_dep_of_inner (hd : inner d = q.dep hazard guardUse 0) (hp : d.loopDepth = pass) :
    d = q.dep hazard guardUse pass := by
  have h : { inner d with loopDepth := d.loopDepth } = d := rfl
  rw [← h, hd, hp]
  cases q <;> rfl

theorem mem_run : (t, d) ∈ (e.run a s).1 ↔
    ∃ w, Sees s a e w (inner d) ∧ follows w a ∧ w.move = t ∧ d.loopDepth = a.pass := by
  constructor
  · intro hd
    have hp := loopDepth_of_found hd
    cases he : e.write with
    | false =>
      obtain ⟨w, hw, hf, hx, rfl, rfl⟩ := (mem_run_read he).1 hd
      exact ⟨w, inner_dep ▸ .raw he hw hx, hf, rfl, hp⟩
    | true =>
      rcases (mem_run_write he).1 hd with ⟨w, firm, hw, hf, hx, rfl, rfl⟩ | ⟨w, hw, hf, hx, rfl, rfl⟩
      · exact ⟨w, inner_dep ▸ .war he hw hx, hf, rfl, hp⟩
      · exact ⟨w, inner_dep ▸ .waw he hw hx, hf, rfl, hp⟩
  · rintro ⟨w, hs, hf, rfl, hp⟩
    generalize hd : inner d = d' at hs
    cases hs with
    | raw he hw hx => exact (mem_run_read he).2 ⟨w, hw, hf, hx, rfl, eq_dep_of_inner hd hp⟩
    | war he hr hx =>
      exact (mem_run_write he).2 (.inl ⟨w, _, hr, hf, hx, rfl, eq_dep_of_inner hd hp⟩)
    | waw he hw hx =>
      exact (mem_run_write he).2 (.inr ⟨w, hw, hf, hx, rfl, eq_dep_of_inner hd hp⟩)

/-- In the course of the accesses, `a` sees `w`. -/
def Meets : List (Access × Effect) → State → Access → Access → Dependence → Prop
  | [], _, _, _, _ => False
  | (b, e) :: es, s, w, a, d => b = a ∧ Sees s a e w d ∨ Meets es (e.run b s).2 w a d

theorem meets_append :
    Meets (es ++ es') s w a d ↔ Meets es s w a d ∨ Meets es' (after es s) w a d := by
  induction es generalizing s with
  | nil => simp [Meets, after]
  | cons x es ih => simp [Meets, ih, after, or_assoc]

theorem draws_iff_meets : Draws es s t h d ↔ ∃ w a, Meets es s w a (inner d) ∧ follows w a ∧
    w.move = t ∧ a.move = h ∧ d.loopDepth = a.pass := by
  induction es generalizing s with
  | nil => simp [Draws, Meets]
  | cons x es ih =>
    obtain ⟨b, e⟩ := x
    simp only [Draws, ih, mem_run, Meets]
    constructor
    · rintro (⟨rfl, w, hs, hf, rfl, hp⟩ | ⟨w, a, hm, hrest⟩)
      · exact ⟨w, b, .inl ⟨rfl, hs⟩, hf, rfl, rfl, hp⟩
      · exact ⟨w, a, .inr hm, hrest⟩
    · rintro ⟨w, a, ⟨rfl, hs⟩ | hm, hf, rfl, rfl, hp⟩
      · exact .inl ⟨rfl, w, hs, hf, rfl, hp⟩
      · exact .inr ⟨w, a, hm, hf, rfl, rfl, hp⟩

theorem Meets.mem (hm : Meets es s w a d) : ∃ e, (a, e) ∈ es := by
  induction es generalizing s with
  | nil => exact hm.elim
  | cons x es ih =>
    obtain ⟨b, e⟩ := x
    rcases hm with ⟨rfl, -⟩ | hm
    · exact ⟨e, .head _⟩
    · obtain ⟨e', he⟩ := ih hm
      exact ⟨e', .tail _ he⟩

theorem Sees.mem (hr : Remembers es s) (hs : Sees s a e w d) : ∃ e, (w, e) ∈ es := by
  cases hs with
  | raw _ hw _ =>
    obtain ⟨e, he, -⟩ := hr.defs hw
    exact ⟨e, he⟩
  | war _ hw _ =>
    obtain ⟨e, he, -⟩ := hr.reads hw
    exact ⟨e, he⟩
  | waw _ hw _ =>
    obtain ⟨e, he, -⟩ := hr.defs hw
    exact ⟨e, he⟩

theorem Meets.mem_seen (hr : Remembers es' s) (hm : Meets es s w a d) :
    ∃ e, (w, e) ∈ es' ++ es := by
  induction es generalizing s es' with
  | nil => exact hm.elim
  | cons x es ih =>
    obtain ⟨b, e⟩ := x
    rcases hm with ⟨rfl, hs⟩ | hm
    · obtain ⟨e', he⟩ := hs.mem hr
      exact ⟨e', List.mem_append_left _ he⟩
    · have h := ih hr.run hm
      rwa [List.append_assoc] at h

/-! ## Other names for the accesses -/

section Renamed

variable {f : Access → Access} (hf : ∀ a, (f a).guard = a.guard) {w' a' : Access}

def Cell.map (f : Access → Access) (c : Cell) : Cell where
  defs := c.defs.map f
  reads := c.reads.map fun x => (f x.1, x.2)

include hf

theorem excludes_map : excludes (f w) (f a) = excludes w a := by
  simp only [excludes, hf]

section

variable (hs : ∀ q, s'.cell q = (s.cell q).map f)
include hs

theorem cell_run_map (q : Place) : (e.run (f a) s').2.cell q = ((e.run a s).2.cell q).map f := by
  have hkills : Kills (f a) q ↔ Kills a q := by simp [Kills, hf]
  simp only [cell_run, hs, hkills]
  split
  · split
    · split <;> simp [Cell.map]
    · simp [Cell.map]
  · rfl

theorem sees_map : Sees s' (f a) e w' d ↔ ∃ w, Sees s a e w d ∧ f w = w' := by
  constructor
  · intro h
    cases h with
    | raw he hw hx =>
      rw [hs, Cell.map] at hw
      obtain ⟨w, hmem, rfl⟩ := List.mem_map.1 hw
      exact ⟨w, .raw he hmem (excludes_map hf ▸ hx), rfl⟩
    | war he hr hx =>
      rw [hs, Cell.map] at hr
      obtain ⟨⟨w, firm⟩, hmem, heq⟩ := List.mem_map.1 hr
      obtain ⟨rfl, rfl⟩ := Prod.mk.inj heq
      exact ⟨w, .war he hmem (excludes_map hf ▸ hx), rfl⟩
    | waw he hw hx =>
      rw [hs, Cell.map] at hw
      obtain ⟨w, hmem, rfl⟩ := List.mem_map.1 hw
      exact ⟨w, .waw he hmem (excludes_map hf ▸ hx), rfl⟩
  · rintro ⟨w, h, rfl⟩
    cases h with
    | raw he hw hx =>
      exact .raw he (by rw [hs]; exact List.mem_map_of_mem hw) ((excludes_map hf).symm ▸ hx)
    | war he hr hx =>
      exact .war he (by rw [hs]; exact List.mem_map.2 ⟨_, hr, rfl⟩) ((excludes_map hf).symm ▸ hx)
    | waw he hw hx =>
      exact .waw he (by rw [hs]; exact List.mem_map_of_mem hw) ((excludes_map hf).symm ▸ hx)

theorem meets_map : Meets (es.map fun x => (f x.1, x.2)) s' w' a' d ↔
      ∃ w a, Meets es s w a d ∧ f w = w' ∧ f a = a' := by
  induction es generalizing s s' with
  | nil => simp [Meets]
  | cons x es ih =>
    obtain ⟨b, e⟩ := x
    simp only [List.map_cons, Meets, ih (cell_run_map hf hs)]
    constructor
    · rintro (⟨rfl, h⟩ | ⟨w, a, hm, hrest⟩)
      · obtain ⟨w, hsees, rfl⟩ := (sees_map hf hs).1 h
        exact ⟨w, b, .inl ⟨rfl, hsees⟩, rfl, rfl⟩
      · exact ⟨w, a, .inr hm, hrest⟩
    · rintro ⟨w, a, ⟨rfl, h⟩ | hm, rfl, rfl⟩
      · exact .inl ⟨rfl, (sees_map hf hs).2 ⟨w, h, rfl⟩⟩
      · exact .inr ⟨w, a, hm, rfl, rfl⟩

end

theorem meets_map_empty : Meets (es.map fun x => (f x.1, x.2)) {} w' a' d ↔
      ∃ w a, Meets es {} w a d ∧ f w = w' ∧ f a = a' :=
  meets_map hf fun q => by simp [cell_empty, Cell.map]

end Renamed

/-! ## A part of the accesses -/

section Restricted

variable {p : Access → Bool}

def Cell.filter (p : Access → Bool) (c : Cell) : Cell where
  defs := c.defs.filter p
  reads := c.reads.filter fun x => p x.1

section

variable (hs : ∀ q, s'.cell q = (s.cell q).filter p)
include hs

theorem cell_run_filter (ha : p a) (q : Place) : (e.run a s').2.cell q = ((e.run a s).2.cell q).filter p := by
  simp only [cell_run, hs]
  split
  · split
    · split <;> simp [Cell.filter, ha]
    · simp [Cell.filter, ha]
  · rfl

theorem sees_filter : Sees s' a e w d ↔ Sees s a e w d ∧ p w := by
  constructor
  · intro h
    cases h with
    | raw he hw hx =>
      rw [hs] at hw
      exact ⟨.raw he (List.mem_filter.1 hw).1 hx, (List.mem_filter.1 hw).2⟩
    | war he hr hx =>
      rw [hs] at hr
      exact ⟨.war he (List.mem_filter.1 hr).1 hx, (List.mem_filter.1 hr).2⟩
    | waw he hw hx =>
      rw [hs] at hw
      exact ⟨.waw he (List.mem_filter.1 hw).1 hx, (List.mem_filter.1 hw).2⟩
  · rintro ⟨h, hp⟩
    cases h with
    | raw he hw hx => exact .raw he (by rw [hs]; exact List.mem_filter.2 ⟨hw, hp⟩) hx
    | war he hr hx => exact .war he (by rw [hs]; exact List.mem_filter.2 ⟨hr, hp⟩) hx
    | waw he hw hx => exact .waw he (by rw [hs]; exact List.mem_filter.2 ⟨hw, hp⟩) hx

/-- A certain write leaves nothing behind, whoever the access before it was by. -/
theorem meets_restrict (hes : ∀ x ∈ es, p x.1) : Meets es s' w a d ↔ Meets es s w a d ∧ p w := by
  induction es generalizing s s' with
  | nil => simp [Meets]
  | cons x es ih =>
    obtain ⟨b, e⟩ := x
    simp only [Meets, sees_filter hs,
      ih (cell_run_filter hs (hes _ (.head _))) fun x hx => hes x (.tail _ hx)]
    tauto

end

end Restricted

/-! ## Two iterations -/

/-- The access in a block of which each iteration has a copy of the `n` moves. -/
def Access.unroll (n : Nat) (a : Access) : Access where
  move := ⟨a.move.val + a.pass * n⟩
  pass := 0
  guard := a.guard

/-- The access in the second iteration. -/
def Access.again (a : Access) : Access := { a with pass := 1 }

/-- The accesses of a block that holds the `n` moves twice. -/
def unrolled (n : Nat) (moves : List (Move × MoveId × Option MemoryAccess)) :
    List (Access × Effect) :=
  (timeline true moves).map fun x => (x.1.unroll n, x.2)

theorem events_again : events 1 moves = (events 0 moves).map fun x => (x.1.again, x.2) := by
  simp [events, List.map_flatMap, Access.again, Function.comp_def]

theorem mem_events (h : (a, e) ∈ events pass moves) : a.pass = pass ∧ ∃ x ∈ moves, x.2.1 = a.move := by
  simp only [events, List.mem_flatMap, List.mem_map] at h
  obtain ⟨x, hx, e', -, heq⟩ := h
  obtain ⟨rfl, rfl⟩ := Prod.mk.inj heq
  exact ⟨rfl, x, hx, rfl⟩

theorem timeline_true : timeline true moves = events 0 moves ++ events 1 moves := rfl

/-- In the block, the accesses of the second iteration come `n` moves later. -/
theorem Access.unroll_val {n : Nat} (ha : a.pass ≤ 1) :
    a.pass = 0 ∧ (a.unroll n).move.val = a.move.val ∨ a.pass = 1 ∧ (a.unroll n).move.val = a.move.val + n := by
  simp only [Access.unroll]
  rcases Nat.le_one_iff_eq_zero_or_eq_one.1 ha with h | h
  · exact .inl ⟨h, by rw [h, Nat.zero_mul, Nat.add_zero]⟩
  · exact .inr ⟨h, by rw [h, Nat.one_mul]⟩

theorem Meets.bounds {n : Nat} (hids : ∀ x ∈ moves, x.2.1.val < n)
    (hm : Meets (timeline true moves) {} w a d) :
    w.pass ≤ a.pass ∧ a.pass ≤ 1 ∧ w.move.val < n ∧ a.move.val < n := by
  have hlt : ∀ {a : Access} {e : Effect} {pass : Nat}, (a, e) ∈ events pass moves →
      a.pass = pass ∧ a.move.val < n := by
    intro a e pass h
    obtain ⟨hp, x, hx, hmove⟩ := mem_events h
    exact ⟨hp, hmove ▸ hids x hx⟩
  have hnone : Remembers [] ({} : State) := remembers_after []
  rcases meets_append.1 hm with hm | hm
  · obtain ⟨e, he⟩ := hm.mem
    obtain ⟨e', he'⟩ := hm.mem_seen hnone
    obtain ⟨hp, ha⟩ := hlt he
    obtain ⟨hp', hw⟩ := hlt he'
    omega
  · obtain ⟨e, he⟩ := hm.mem
    obtain ⟨e', he'⟩ := hm.mem_seen (remembers_after _)
    obtain ⟨hp, ha⟩ := hlt he
    rcases List.mem_append.1 he' with he' | he'
    · obtain ⟨hp', hw⟩ := hlt he'
      omega
    · obtain ⟨hp', hw⟩ := hlt he'
      omega

theorem meets_first (ha : a.pass = 0) :
    Meets (timeline true moves) {} w a d ↔ Meets (events 0 moves) {} w a d := by
  rw [timeline_true, meets_append, or_iff_left_iff_imp]
  intro hm
  obtain ⟨e, he⟩ := hm.mem
  have hp := (mem_events he).1
  omega

/-- Of itself the second iteration sees what the first one does. -/
theorem meets_second (hw : w.pass = 0) (ha : a.pass = 0) :
    Meets (timeline true moves) {} w.again a.again d ↔ Meets (events 0 moves) {} w a d := by
  have hforgot : ∀ q, ({} : State).cell q =
      ((after (events 0 moves) {}).cell q).filter fun a => a.pass = 1 := by
    intro q
    have hr := remembers_after (events 0 moves)
    rw [cell_empty, Cell.filter, List.filter_eq_nil_iff.2, List.filter_eq_nil_iff.2]
    · rintro ⟨r, firm⟩ hr'
      obtain ⟨e, he, -⟩ := hr.reads hr'
      simp [(mem_events he).1]
    · intro w hw
      obtain ⟨e, he, -⟩ := hr.defs hw
      simp [(mem_events he).1]
  have hagain : ∀ x ∈ events 1 moves, (decide (x.1.pass = 1)) = true := by
    rintro ⟨a, e⟩ hx
    simp [(mem_events hx).1]
  have hnot : ¬ Meets (events 0 moves) {} w.again a.again d := by
    intro hm
    obtain ⟨e, he⟩ := hm.mem
    exact absurd (mem_events he).1 Nat.one_ne_zero
  rw [timeline_true, meets_append, or_iff_right hnot]
  calc Meets (events 1 moves) (after (events 0 moves) {}) w.again a.again d
      ↔ Meets (events 1 moves) {} w.again a.again d := by
        rw [meets_restrict hforgot hagain]
        simp [Access.again]
    _ ↔ ∃ w' a', Meets (events 0 moves) {} w' a' d ∧ w'.again = w.again ∧ a'.again = a.again := by
        rw [events_again]
        exact meets_map_empty (f := Access.again) fun _ => rfl
    _ ↔ Meets (events 0 moves) {} w a d := by
        constructor
        · rintro ⟨w', a', hm, hw', ha'⟩
          obtain ⟨e, he⟩ := hm.mem
          obtain ⟨e', he'⟩ := hm.mem_seen (remembers_after [])
          have heq {x y : Access} (h : x.again = y.again) (hx : x.pass = 0) (hy : y.pass = 0) :
              x = y := by
            cases x; cases y; simp_all [Access.again]
          rwa [← heq hw' (mem_events he').1 hw, ← heq ha' (mem_events he).1 ha]
        · intro hm
          exact ⟨w, a, hm, rfl, rfl⟩

theorem draws_unrolled {n : Nat} : Draws (unrolled n moves) {} t h d ↔
    d.loopDepth = 0 ∧ t ≠ h ∧ ∃ w a, Meets (timeline true moves) {} w a d ∧
      (w.unroll n).move = t ∧ (a.unroll n).move = h := by
  simp only [draws_iff_meets, unrolled, meets_map_empty (f := Access.unroll n) fun _ => rfl]
  constructor
  · rintro ⟨_, _, ⟨w, a, hm, rfl, rfl⟩, hf, rfl, rfl, hp⟩
    have hp : d.loopDepth = 0 := hp
    refine ⟨hp, ?_, w, a, inner_of_depth hp ▸ hm, rfl, rfl⟩
    simpa [follows, Access.unroll] using hf
  · rintro ⟨hp, hne, w, a, hm, rfl, rfl⟩
    refine ⟨_, _, ⟨w, a, (inner_of_depth hp).symm ▸ hm, rfl, rfl⟩, ?_, rfl, rfl, hp⟩
    simpa [follows, Access.unroll] using hne

theorem draws_loop : Draws (timeline true moves) {} t h d ↔
    t ≠ h ∧ ∃ w a, Meets (timeline true moves) {} w a (inner d) ∧ ¬ (0 < a.pass ∧ w.pass = a.pass) ∧
      w.move = t ∧ a.move = h ∧ d.loopDepth = a.pass := by
  simp only [draws_iff_meets]
  constructor
  · rintro ⟨w, a, hm, hf, rfl, rfl, hp⟩
    simp only [follows, Bool.and_eq_true, Bool.not_eq_true', decide_eq_true_eq] at hf
    exact ⟨hf.2, w, a, hm, by simpa using hf.1, rfl, rfl, hp⟩
  · rintro ⟨hne, w, a, hm, hf, rfl, rfl, hp⟩
    refine ⟨w, a, hm, ?_, rfl, rfl, hp⟩
    simp only [follows, Bool.and_eq_true, Bool.not_eq_true', decide_eq_true_eq]
    exact ⟨by simpa using hf, hne⟩

section

variable {n : Nat} (hids : ∀ x ∈ moves, x.2.1.val < n)
include hids

/-- Inside an iteration the loop depends as the first copy does. -/
theorem draws_inside (hd : d.loopDepth = 0) : Draws (timeline true moves) {} t h d ↔
    Draws (unrolled n moves) {} t h d ∧ t.val < n ∧ h.val < n := by
  rw [draws_loop, draws_unrolled]
  constructor
  · rintro ⟨hne, w, a, hm, -, rfl, rfl, hp⟩
    rw [inner_of_depth hd] at hm
    obtain ⟨hle, -, hw, ha⟩ := hm.bounds hids
    have ha0 : a.pass = 0 := hp.symm.trans hd
    have hw0 : w.pass = 0 := by omega
    exact ⟨⟨hd, hne, w, a, hm, by simp [Access.unroll, hw0], by simp [Access.unroll, ha0]⟩, hw, ha⟩
  · rintro ⟨⟨-, hne, w, a, hm, rfl, rfl⟩, hwn, han⟩
    obtain ⟨hle, ha1, hw, ha⟩ := hm.bounds hids
    have ha0 : a.pass = 0 := by
      have := a.unroll_val (n := n) ha1
      omega
    have hw0 : w.pass = 0 := by omega
    refine ⟨hne, w, a, (inner_of_depth hd).symm ▸ hm, by omega, ?_, ?_, hd.trans ha0.symm⟩
    · simp [Access.unroll, hw0]
    · simp [Access.unroll, ha0]

/-- The second copy depends on itself as the first does. -/
theorem draws_copies (ht : t.val < n) (hh : h.val < n) : Draws (unrolled n moves) {} t h d ↔
    Draws (unrolled n moves) {} ⟨t.val + n⟩ ⟨h.val + n⟩ d := by
  rw [draws_unrolled, draws_unrolled]
  have hne : (t ≠ h) ↔ (⟨t.val + n⟩ : MoveId) ≠ ⟨h.val + n⟩ := by
    rw [not_iff_not, ← Id.val_inj, ← Id.val_inj]
    simp
  rw [← hne]
  refine and_congr_right fun hd => and_congr_right fun _ => ?_
  constructor
  · rintro ⟨w, a, hm, rfl, rfl⟩
    obtain ⟨hle, ha1, hw, ha⟩ := hm.bounds hids
    have ha0 : a.pass = 0 := by
      have := a.unroll_val (n := n) ha1
      omega
    have hw0 : w.pass = 0 := by omega
    refine ⟨w.again, a.again, (meets_second hw0 ha0).2 ((meets_first ha0).1 hm), ?_, ?_⟩
    · simp [Access.unroll, Access.again, hw0]
    · simp [Access.unroll, Access.again, ha0]
  · rintro ⟨w, a, hm, hwt, hah⟩
    obtain ⟨hle, ha1, hw, ha⟩ := hm.bounds hids
    have hwu := w.unroll_val (n := n) (Nat.le_trans hle ha1)
    have hau := a.unroll_val (n := n) ha1
    simp only [hwt] at hwu
    simp only [hah] at hau
    have hw1 : w.pass = 1 := by omega
    have ha1 : a.pass = 1 := by omega
    have hm' : Meets (timeline true moves) {} ({ w with pass := 0 } : Access).again
        ({ a with pass := 0 } : Access).again d := by
      obtain ⟨_, _, _⟩ := w
      obtain ⟨_, _, _⟩ := a
      cases hw1
      cases ha1
      exact hm
    refine ⟨{ w with pass := 0 }, { a with pass := 0 }, (meets_first rfl).2 ((meets_second rfl rfl).1 hm'), ?_, ?_⟩
    · apply Id.ext_val
      show w.move.val + 0 * n = t.val
      omega
    · apply Id.ext_val
      show a.move.val + 0 * n = h.val
      omega

/-- From one iteration to the next the loop depends as the second copy does on the first. -/
theorem draws_across (hd : d.loopDepth = 1) : Draws (timeline true moves) {} t h d ↔
    t ≠ h ∧ t.val < n ∧ h.val < n ∧ Draws (unrolled n moves) {} t ⟨h.val + n⟩ (inner d) := by
  rw [draws_loop, draws_unrolled]
  refine and_congr_right fun hne => ?_
  constructor
  · rintro ⟨w, a, hm, hnot, rfl, rfl, hp⟩
    obtain ⟨hle, -, hw, ha⟩ := hm.bounds hids
    have ha1 : a.pass = 1 := hp.symm.trans hd
    have hw0 : w.pass = 0 := by omega
    refine ⟨hw, ha, rfl, ?_, w, a, hm, by simp [Access.unroll, hw0], by simp [Access.unroll, ha1]⟩
    rw [ne_eq, ← Id.val_inj]
    show ¬ w.move.val = a.move.val + n
    omega
  · rintro ⟨htn, hhn, -, -, w, a, hm, hwt, hah⟩
    obtain ⟨hle, ha1, hw, ha⟩ := hm.bounds hids
    have hwu := w.unroll_val (n := n) (Nat.le_trans hle ha1)
    have hau := a.unroll_val (n := n) ha1
    simp only [hwt] at hwu
    simp only [hah] at hau
    exact ⟨w, a, hm, by omega, Id.ext_val (by omega), Id.ext_val (by omega), by omega⟩

theorem depth_of_draws (hdraw : Draws (timeline true moves) {} t h d) :
    t.val < n ∧ h.val < n ∧ d.loopDepth ≤ 1 := by
  obtain ⟨-, w, a, hm, -, rfl, rfl, hp⟩ := draws_loop.1 hdraw
  obtain ⟨-, ha1, hw, ha⟩ := hm.bounds hids
  exact ⟨hw, ha, hp ▸ ha1⟩

/-- No copy depends on a later one, and every dependence is inside the block. -/
theorem draws_unrolled_forward (hdraw : Draws (unrolled n moves) {} t h d) :
    d.loopDepth = 0 ∧ t.val < 2 * n ∧ h.val < 2 * n ∧ (n ≤ t.val → n ≤ h.val) := by
  obtain ⟨hd, -, w, a, hm, rfl, rfl⟩ := draws_unrolled.1 hdraw
  obtain ⟨hle, ha1, hw, ha⟩ := hm.bounds hids
  have hwu := w.unroll_val (n := n) (Nat.le_trans hle ha1)
  have hau := a.unroll_val (n := n) ha1
  omega

end

end Transport.Flow

namespace Transport

open Transport.Graph

/-- The move with the operations that stand `k` places further on. -/
def ProgramMove.later (k : Nat) (pm : ProgramMove) : ProgramMove :=
  { pm with dstOp := pm.dstOp.map (· + k), srcOp := pm.srcOp.map (· + k) }

namespace Program

variable {machine : Machine} {p : Program} {pm : ProgramMove} {i j k : Nat}
  {ms : List ProgramMove} {m : Nat}

/-- The moves as the body of a loop. -/
def loop (p : Program) : Program := { p with isLoop := true }

/-- A block that holds the moves twice in order. The second copy has operations of its own. -/
def twice (p : Program) : Program where
  operations := p.operations ++ p.operations
  moves := p.moves ++ p.moves.map (ProgramMove.later p.operations.size)
  liveIn := p.liveIn
  liveOut := p.liveOut
  label := p.label

/-! ## The copies -/

theorem mem_twice : pm ∈ p.twice.moves.toList ↔ pm ∈ p.moves.toList ∨
    ∃ pm' ∈ p.moves.toList, pm'.later p.operations.size = pm := by
  simp [twice]

theorem moves_first (hi : i < p.moves.size) : p.twice.moves[i]? = p.moves[i]? := by
  simp only [twice]
  rw [Array.getElem?_append_left hi]

theorem moves_second : p.twice.moves[i + p.moves.size]? =
    (p.moves[i]?).map (ProgramMove.later p.operations.size) := by
  simp only [twice]
  rw [Array.getElem?_append_right (Nat.le_add_left _ _), Nat.add_sub_cancel, Array.getElem?_map]

theorem later_dstOp_eq : (pm.later m).dstOp = some (k + m) ↔ pm.dstOp = some k := by
  cases hd : pm.dstOp <;> simp [ProgramMove.later, hd]

theorem later_srcOp_eq : (pm.later m).srcOp = some (k + m) ↔ pm.srcOp = some k := by
  cases hd : pm.srcOp <;> simp [ProgramMove.later, hd]

theorem le_of_later {o : Option Nat} (h : o.map (· + m) = some k) : m ≤ k := by
  obtain ⟨k', -, rfl⟩ := Option.map_eq_some_iff.1 h
  exact Nat.le_add_left _ _

theorem triggers_eq_zero (h : ∀ pm ∈ ms, pm.dstOp ≠ some k) : triggers ms k = 0 := by
  rw [triggers, List.countP_eq_zero]
  intro pm hpm
  simp [h pm hpm]

theorem triggers_later : triggers (ms.map (ProgramMove.later m)) (k + m) = triggers ms k := by
  rw [triggers, List.countP_map, triggers]
  apply List.countP_congr
  intro pm _
  simp only [Function.comp_apply, later_dstOp_eq]
  rfl

theorem triggers_twice : triggers p.twice.moves.toList k = triggers p.moves.toList k +
    triggers (p.moves.toList.map (ProgramMove.later p.operations.size)) k := by
  simp [triggers, twice]

theorem Buildable.twice (hp : p.Buildable machine) : p.twice.Buildable machine where
  fits {pm} hpm := by
    have hsize : p.twice.operations.size = p.operations.size + p.operations.size := by simp [Program.twice]
    rcases mem_twice.1 hpm with hpm | ⟨pm, hpm', rfl⟩
    · have hfit := hp.fits hpm
      refine ⟨hfit.dst_input, hfit.src_output, fun hk => ?_, fun hk => ?_⟩
      · have := hfit.dst_known hk
        omega
      · have := hfit.src_known hk
        omega
    · have hfit := hp.fits hpm'
      refine ⟨?_, ?_, fun hk => ?_, fun hk => ?_⟩
      · simpa [ProgramMove.later] using hfit.dst_input
      · simpa [ProgramMove.later] using hfit.src_output
      · obtain ⟨k, hk', rfl⟩ := Option.map_eq_some_iff.1 hk
        have := hfit.dst_known hk'
        omega
      · obtain ⟨k, hk', rfl⟩ := Option.map_eq_some_iff.1 hk
        have := hfit.src_known hk'
        omega
  units {d} hd := hp.units (by simpa [Program.twice] using hd)
  control {d} hd := hp.control (by simpa [Program.twice] using hd)
  latencies := hp.latencies
  one_trigger {pm k} hpm hk := by
    rw [triggers_twice]
    rcases mem_twice.1 hpm with hpm | ⟨pm, hpm', rfl⟩
    · have hlt := (hp.fits hpm).dst_known hk
      rw [hp.one_trigger hpm hk, triggers_eq_zero]
      intro pm' hpm' hk'
      obtain ⟨pm', -, rfl⟩ := List.mem_map.1 hpm'
      exact Nat.lt_irrefl _ (Nat.lt_of_lt_of_le hlt (le_of_later hk'))
    · obtain ⟨k, hk', rfl⟩ := Option.map_eq_some_iff.1 hk
      rw [triggers_later, hp.one_trigger hpm' hk', triggers_eq_zero]
      intro pm1 hpm1 hk1
      have := (hp.fits hpm1).dst_known hk1
      omega

theorem Buildable.loop (hp : p.Buildable machine) : p.loop.Buildable machine where
  fits hpm := ⟨(hp.fits hpm).dst_input, (hp.fits hpm).src_output, (hp.fits hpm).dst_known,
    (hp.fits hpm).src_known⟩
  units := hp.units
  control := hp.control
  latencies := hp.latencies
  one_trigger := hp.one_trigger

/-! ## What the moves do -/

theorem target_first (hfit : p.Fits pm) : p.twice.target pm = p.target pm := by
  unfold target
  cases hd : pm.dstOp with
  | none => rfl
  | some k =>
    simp only [Option.bind_some, twice]
    rw [Array.getElem?_append_left (hfit.dst_known hd)]

theorem target_second : p.twice.target (pm.later p.operations.size) = p.target pm := by
  unfold target
  cases hd : pm.dstOp with
  | none => simp [ProgramMove.later, hd]
  | some k =>
    simp only [ProgramMove.later, hd, Option.map_some, Option.bind_some, twice]
    rw [Array.getElem?_append_right (Nat.le_add_left _ _), Nat.add_sub_cancel]

theorem touches_second (memory : Option MemoryAccess) :
    Flow.touches (p.twice.marked machine (pm.later p.operations.size)) memory =
      Flow.touches (p.marked machine pm) memory := by
  have hcall : (p.twice.marked machine (pm.later p.operations.size)).call =
      (p.marked machine pm).call := by
    rw [marked, target_second, marked]
    cases p.target pm with
    | none => rfl
    | some d =>
      simp only [Option.elim_some, signal]
      have htrigger : (entry (pm.later p.operations.size)).isTrigger = (entry pm).isTrigger := rfl
      rw [htrigger]
      split <;> rfl
  unfold Flow.touches
  simp only [hcall, src_marked, dst_marked, guard_marked, isTrigger_marked]
  rfl

theorem flow_lt {x : Move × MoveId × Option MemoryAccess} (hx : x ∈ p.flow machine) :
    x.2.1.val < p.moves.size := by
  simp only [flow, List.mem_map, Prod.exists] at hx
  obtain ⟨pm, i, hi, rfl⟩ := hx
  have hi := List.mem_zipIdx_iff_getElem?.1 hi
  rw [Array.getElem?_toList] at hi
  exact (Array.getElem?_eq_some_iff.1 hi).1

theorem events_twice (hp : p.Buildable machine) : Flow.events 0 (p.twice.flow machine) =
    Flow.unrolled p.moves.size (p.flow machine) := by
  have hsplit : p.twice.moves.toList.zipIdx = p.moves.toList.zipIdx ++
      (p.moves.toList.zipIdx.map fun x => (x.1.later p.operations.size, x.2 + p.moves.size)) := by
    simp only [twice, Array.toList_append, Array.toList_map, List.zipIdx_append, List.zipIdx_map]
    congr 1
    rw [List.zipIdx_eq_map_add]
    simp [Function.comp_def, Nat.add_comm]
  simp only [Flow.unrolled, Flow.timeline_true, List.map_append, Flow.events, flow, hsplit,
    List.flatMap_append, List.flatMap_map, List.map_flatMap, List.map_map, Function.comp_def,
    touches_second, target_second]
  congr 1
  · refine congrArg List.flatten (List.map_congr_left ?_)
    rintro ⟨pm, i⟩ hx
    have hpm : pm ∈ p.moves.toList := List.mem_of_getElem? (List.mem_zipIdx_iff_getElem?.1 hx)
    simp [marked, target_first (hp.fits hpm), Flow.Access.unroll]
  · simp [Flow.Access.unroll, ProgramMove.later]

/-! ## The order of an operation -/

theorem precedes_first (hi : i < p.moves.size) (hj : j < p.moves.size) :
    p.twice.Precedes i j ↔ p.Precedes i j := by
  simp only [Precedes, moves_first hi, moves_first hj]

theorem precedes_second : p.twice.Precedes (i + p.moves.size) (j + p.moves.size) ↔ p.Precedes i j := by
  simp only [Precedes, moves_second]
  constructor
  · rintro ⟨_, _, k, ha, hb, hk, hs⟩
    obtain ⟨a, ha', rfl⟩ := Option.map_eq_some_iff.1 ha
    obtain ⟨b, hb', rfl⟩ := Option.map_eq_some_iff.1 hb
    obtain ⟨k, hk', rfl⟩ := Option.map_eq_some_iff.1 hk
    rw [later_dstOp_eq, later_srcOp_eq] at hs
    exact ⟨a, b, k, ha', hb', hk', hs⟩
  · rintro ⟨a, b, k, ha, hb, hk, hs⟩
    refine ⟨_, _, k + p.operations.size, Option.map_eq_some_iff.2 ⟨a, ha, rfl⟩,
      Option.map_eq_some_iff.2 ⟨b, hb, rfl⟩, later_dstOp_eq.2 hk, ?_⟩
    rw [later_dstOp_eq, later_srcOp_eq]
    exact hs

/-- The copies share no operation. -/
theorem not_precedes_across (hp : p.Buildable machine) (hi : i < p.moves.size) :
    ¬ p.twice.Precedes i (j + p.moves.size) ∧ ¬ p.twice.Precedes (j + p.moves.size) i := by
  simp only [Precedes, moves_first hi, moves_second]
  constructor
  · rintro ⟨a, _, k, ha, hb, hk, hs⟩
    obtain ⟨b, hb, rfl⟩ := Option.map_eq_some_iff.1 hb
    have hlt := (hp.fits (Array.mem_toList_iff.2 (Array.mem_of_getElem? ha))).dst_known hk
    rcases hs with ⟨hk', -⟩ | ⟨-, hk'⟩
    · exact Nat.lt_irrefl _ (Nat.lt_of_lt_of_le hlt (le_of_later hk'))
    · exact Nat.lt_irrefl _ (Nat.lt_of_lt_of_le hlt (le_of_later hk'))
  · rintro ⟨_, b, k, ha, hb, hk, hs⟩
    obtain ⟨a, ha, rfl⟩ := Option.map_eq_some_iff.1 ha
    have hfit := hp.fits (Array.mem_toList_iff.2 (Array.mem_of_getElem? hb))
    have hle := le_of_later hk
    rcases hs with ⟨hk', -⟩ | ⟨-, hk'⟩
    · exact Nat.lt_irrefl _ (Nat.lt_of_lt_of_le (hfit.dst_known hk') hle)
    · exact Nat.lt_irrefl _ (Nat.lt_of_lt_of_le (hfit.src_known hk') hle)

theorem Precedes.lt (hp : p.Precedes i j) : i < p.moves.size ∧ j < p.moves.size := by
  obtain ⟨a, b, -, ha, hb, -⟩ := hp
  exact ⟨(Array.getElem?_eq_some_iff.1 ha).1, (Array.getElem?_eq_some_iff.1 hb).1⟩

theorem Precedes.forward (hp : p.Buildable machine) (hij : p.twice.Precedes i j)
    (hi : p.moves.size ≤ i) : p.moves.size ≤ j := by
  by_contra hj
  obtain ⟨i, rfl⟩ := Nat.exists_eq_add_of_le' hi
  exact (not_precedes_across hp (Nat.not_le.1 hj)).2 hij

end Program

/-! ## Each edge is drawn once -/

/-- No two edges of the graph are equal. -/
def Graph.Simple (g : Graph) : Prop :=
  ∀ ⦃e e' : EdgeId⦄ ⦃l : Link⦄, g.link? e = some l → g.link? e' = some l → e = e'

namespace Graph

variable {g g' : Graph} {t h : MoveId} {d : Dependence} {e : EdgeId}

theorem Simple.connect (hg : g.Simple) (hnew : ¬ g.Arc t h d) (hc : g.connect t h d = .ok (g', e)) :
    g'.Simple := by
  obtain ⟨-, -, -, rfl⟩ := connect_eq_ok hc
  have hlink : ∀ e', Graph.link? (Graph.forgetDistances (Graph.attach
      { g with links := g.links.push { tail := t, head := h, dep := d } } ⟨g.links.size⟩ t h)) e' =
      if e'.val = g.links.size then some { tail := t, head := h, dep := d } else g.link? e' := by
    intro e'
    exact Array.getElem?_push
  intro e1 e2 l h₁ h2
  rw [hlink] at h₁ h2
  split at h₁ <;> split at h2
  · rename_i he1 he2
    exact Id.ext_val (he1.trans he2.symm)
  · cases h₁
    exact (hnew ⟨e2, h2⟩).elim
  · cases h2
    exact (hnew ⟨e1, h₁⟩).elim
  · exact hg h₁ h2

theorem not_arc_of_hasEdge (hg : g.Linked) (hh : g.hasEdge t h d = .ok false) : ¬ g.Arc t h d := by
  rintro ⟨e, he⟩
  simp only [hasEdge, bind_eq_ok, pure_eq_ok] at hh
  obtain ⟨m, hm, hany⟩ := hh
  have hmem : (e, { tail := t, head := h, dep := d }) ∈ g.leaving t := hg.mem_leaving.2 ⟨he, rfl, rfl⟩
  rw [leaving_eq (move?_of_move hm)] at hmem
  have := List.any_eq_false.1 hany _ hmem
  simp at this

/-- Edges to or from one move, none of which is there, are drawn once each. -/
theorem Simple.connects {ns : List MoveId} (tail head : MoveId → MoveId)
    (hinj : ∀ n n', tail n = tail n' → head n = head n' → n = n') (hnodup : ns.Nodup)
    (hlinked : g.Linked) (hg : g.Simple) (hnew : ∀ n ∈ ns, ¬ g.Arc (tail n) (head n) d)
    (hs : ns.foldlM (fun g n => return (← g.connect (tail n) (head n) d).1) g =
      (.ok g' : Checked Graph)) : g'.Simple := by
  induction ns generalizing g with
  | nil =>
    exact pure_eq_ok.1 hs ▸ hg
  | cons n ns ih =>
    obtain ⟨g1, h₁, hs⟩ := foldlM_cons_eq_ok.1 hs
    simp only [bind_eq_ok, pure_eq_ok, Prod.exists] at h₁
    obtain ⟨_, e, hc, rfl⟩ := h₁
    obtain ⟨hnot, hnodup⟩ := List.nodup_cons.1 hnodup
    have hr : g.Rewires _ (fun t h d' => t = tail n ∧ h = head n ∧ d' = d) NoneBack NoneBack :=
      rewires_of_connect hc ⟨rfl, rfl, rfl⟩
    refine ih hnodup (hr.linked hlinked) (hg.connect (hnew n (.head _)) hc) (fun n' hn' ha => ?_) hs
    rcases hr.cases_arc ha with ha | ⟨ht, hh, -⟩
    · exact hnew n' (.tail _ hn') ha
    · exact hnot (hinj n' n ht hh ▸ hn')

end Graph

namespace Program

variable {machine : Machine} {p : Program} {g g' : Graph} {o : OpId}

theorem simple_of_drawFlow (hlinked : g.Linked) (hg : g.Simple) (h : p.drawFlow g = .ok g') :
    g'.Linked ∧ g'.Simple := by
  refine foldlM_keeps (P := fun g => g.Linked ∧ g.Simple) ?_ ⟨hlinked, hg⟩ h
  rintro ⟨t, h, d⟩ - g g' ⟨hlinked, hg⟩ hs
  simp only [bind_eq_ok, pure_eq_ok, Prod.exists] at hs
  obtain ⟨_, x, hs, rfl⟩ := hs
  have hr : g.Rewires _ (fun _ _ _ => True) NoneBack NoneBack := rewires_of_ensureEdge hs trivial
  refine ⟨hr.linked hlinked, ?_⟩
  simp only [ensureEdge, bind_eq_ok] at hs
  obtain ⟨b, hb, hs⟩ := hs
  cases b with
  | true =>
    cases pure_eq_ok.1 hs
    exact hg
  | false =>
    obtain ⟨r, hc, hs⟩ := bind_eq_ok.1 hs
    cases pure_eq_ok.1 hs
    exact hg.connect (not_arc_of_hasEdge hlinked hb) hc

theorem simple_of_drawOperation (hlinked : g.Linked) (hf : g.Formed machine)
    (hnodup : ∀ {op}, g.op? o = some op → op.inputs.Nodup) (hg : g.Simple)
    (hnew : ∀ t h, Stages g o t h → ¬ g.Arc t h .operation) (hs : drawOperation g o = .ok g') :
    g'.Simple := by
  obtain ⟨op, hop, ⟨rfl, -⟩ | ⟨t, -, g1, -, -, -, h₁, h2, hin, hout⟩⟩ := drawOperation_eq_ok hf hs
  · exact hg
  · obtain ⟨hlinked1, -, harc⟩ := arc_iff_of_connects (fun n => n) (fun _ => t) hlinked h₁
    have hg1 : g1.Simple := hg.connects (fun n => n) (fun _ => t) (fun _ _ h _ => h)
      ((hnodup hop).filter _) hlinked (fun n hn => hnew n t (hin n hn)) h₁
    refine hg1.connects (fun _ => t) (fun n => n) (fun _ _ _ h => h) (hf.outputs_nodup hop) hlinked1
      (fun n hn ha => ?_) h2
    rcases (harc _ _ _).1 ha with ha | ⟨n', hn', htn, -⟩
    · exact hnew t n (hout n hn) ha
    · rw [List.mem_filter, decide_eq_true_eq] at hn'
      exact hn'.2 htn.symm

theorem simple_of_drawOperations {os : List OpId} (hos : os.Nodup) (hlinked : g.Linked)
    (hf : g.Formed machine) (hfresh : g.Fresh)
    (hnodup : ∀ {o op}, g.op? o = some op → op.inputs.Nodup) (hg : g.Simple)
    (hnew : ∀ o ∈ os, ∀ t h, Stages g o t h → ¬ g.Arc t h .operation)
    (hs : os.foldlM drawOperation g = .ok g') : g'.Simple := by
  induction os generalizing g with
  | nil =>
    exact pure_eq_ok.1 hs ▸ hg
  | cons o os ih =>
    obtain ⟨g1, h₁, hs⟩ := foldlM_cons_eq_ok.1 hs
    obtain ⟨hnot, hos⟩ := List.nodup_cons.1 hos
    have hk := keeps_of_drawOperation h₁
    obtain ⟨hlinked1, hsame, harc⟩ := arc_iff_of_drawOperation hlinked hf hfresh h₁
    refine ih hos hlinked1 (hf.congr hk.toSameShapes) (hk.fresh hfresh) ?_
      (simple_of_drawOperation hlinked hf hnodup hg (hnew o (.head _)) h₁) ?_ hs
    · intro o' op' ho'
      obtain ⟨op, hop, he⟩ := exists_of_map_eq (hk.ops o') ho'
      exact (Operation.Shape.mk.inj he).2.1 ▸ hnodup hop
    · intro o' ho' t h hstage ha
      have hstage := hstage.congr hsame.symm
      rcases (harc t h _).1 ha with ha | ⟨-, hstage'⟩
      · exact hnew o' (.tail _ ho') t h hstage ha
      · obtain ⟨a, -, hma, -, hd, -⟩ := hstage
        obtain ⟨a', -, hma', -, hd', -⟩ := hstage'
        rw [hma] at hma'
        cases hma'
        rw [hd] at hd'
        cases hd'
        exact hnot ho'

/-- The walk finds no dependence between the moves of an operation as such. -/
theorem draws_ne_operation {es : List (Flow.Access × Flow.Effect)} {s : Flow.State} {t h : MoveId} :
    ¬ Flow.Draws es s t h .operation := by
  intro hd
  obtain ⟨pre, a, e, post, -, -, hd⟩ := Flow.draws_iff.1 hd
  have hreason {q : Flow.Place} {hazard : Hazard} {guardUse : Bool} {pass : Nat} :
      Dependence.operation ≠ q.dep hazard guardUse pass := by
    cases q <;> simp [Flow.Place.dep, Dependence.operation, Dependence.register]
  obtain ⟨w, hs, -⟩ := Flow.mem_run.1 hd
  generalize hd' : Flow.inner .operation = d at hs
  have hd' : Dependence.operation = d := hd'
  cases hs with
  | raw => exact hreason hd'
  | war => exact hreason hd'
  | waw => exact hreason hd'

theorem simple_of_graph (h : p.graph machine = .ok g) : g.Simple := by
  obtain ⟨hf, -⟩ := graph_formed h
  obtain ⟨g2, g3, hp, -, hfresh, h3, h4⟩ := prepared_of_graph h
  have hk4 := (keeps_of_drawOperations h4).toSameShapes
  obtain ⟨hlinked, hsimple⟩ := simple_of_drawFlow hp.linked (fun _ _ _ he => by simp [hp.link?] at he) h3
  refine simple_of_drawOperations Id.nodup_below hlinked (hf.congr hk4.symm) hfresh ?_ hsimple ?_ h4
  · intro o op ho
    obtain ⟨op1, hop1, heq⟩ := exists_of_map_eq (hk4.ops o).symm ho
    rw [← (Operation.Shape.mk.inj heq).2.1, inputs_of_graph h hop1]
    exact feeding_nodup _ _
  · rintro o - t h - ha
    rcases ((arc_iff_of_drawFlow hp.linked h3).2.2 t h _).1 ha with ⟨e, he⟩ | hd
    · simp [hp.link?] at he
    · exact draws_ne_operation (Flow.mem_edges.1 hd)

end Program

/-- The graph `g` of a loop whose body has `n` moves, and the graph `g'` of a block that holds the
body twice: the edges of the loop inside an iteration are those inside either copy, and its edges
from one iteration to the next are those from the first copy to the second. -/
structure Graph.UnrollsTo (n : Nat) (g g' : Graph) : Prop where
  inside (t h : MoveId) (d : Dependence) : d.loopDepth = 0 →
    (g.Arc t h d ↔ g'.Arc t h d ∧ t.val < n ∧ h.val < n)
  copies (t h : MoveId) (d : Dependence) : t.val < n → h.val < n →
    (g'.Arc t h d ↔ g'.Arc ⟨t.val + n⟩ ⟨h.val + n⟩ d)
  across (t h : MoveId) (d : Dependence) : d.loopDepth = 1 → (g.Arc t h d ↔
    t ≠ h ∧ t.val < n ∧ h.val < n ∧ g'.Arc t ⟨h.val + n⟩ { d with loopDepth := 0 })
  depth {t h : MoveId} {d : Dependence} : g.Arc t h d → d.loopDepth ≤ 1
  forward {t h : MoveId} {d : Dependence} : g'.Arc t h d →
    d.loopDepth = 0 ∧ t.val < 2 * n ∧ h.val < 2 * n ∧ (n ≤ t.val → n ≤ h.val)

namespace Program

variable {machine : Machine} {p : Program} {g g' : Graph}

theorem arc_loop (hg : p.loop.Drawn machine g) (t h : MoveId) (d : Dependence) :
    g.Arc t h d ↔ Flow.Draws (Flow.timeline true (p.flow machine)) {} t h d ∨
      d = .operation ∧ p.Precedes t.val h.val := by
  rw [← Flow.mem_edges]
  exact hg.arc t h d

theorem arc_twice (hp : p.Buildable machine) (hg : p.twice.Drawn machine g) (t h : MoveId) (d : Dependence) :
    g.Arc t h d ↔ Flow.Draws (Flow.unrolled p.moves.size (p.flow machine)) {} t h d ∨
      d = .operation ∧ p.twice.Precedes t.val h.val := by
  have htime : Flow.timeline false (p.twice.flow machine) =
      Flow.unrolled p.moves.size (p.flow machine) := by
    simp [Flow.timeline, events_twice hp]
  rw [← htime, ← Flow.mem_edges]
  exact hg.arc t h d

theorem unrollsTo (hp : p.Buildable machine) (hg : p.loop.Drawn machine g)
    (hg' : p.twice.Drawn machine g') : g.UnrollsTo p.moves.size g' where
  inside t h d hd := by
    rw [arc_loop hg, arc_twice hp hg', Flow.draws_inside (fun _ => flow_lt) hd]
    constructor
    · rintro (⟨hdraw, ht, hh⟩ | ⟨rfl, hpre⟩)
      · exact ⟨.inl hdraw, ht, hh⟩
      · exact ⟨.inr ⟨rfl, (precedes_first hpre.lt.1 hpre.lt.2).2 hpre⟩, hpre.lt⟩
    · rintro ⟨hdraw | ⟨rfl, hpre⟩, ht, hh⟩
      · exact .inl ⟨hdraw, ht, hh⟩
      · exact .inr ⟨rfl, (precedes_first ht hh).1 hpre⟩
  copies t h d ht hh := by
    rw [arc_twice hp hg', arc_twice hp hg', precedes_first ht hh, precedes_second,
      Flow.draws_copies (fun _ => flow_lt) ht hh]
  across t h d hd := by
    have hop : d ≠ .operation := by
      rintro rfl
      cases hd
    rw [arc_loop hg, arc_twice hp hg', Flow.draws_across (fun _ => flow_lt) hd]
    constructor
    · rintro (⟨hne, ht, hh, hdraw⟩ | ⟨rfl, -⟩)
      · exact ⟨hne, ht, hh, .inl hdraw⟩
      · exact (hop rfl).elim
    · rintro ⟨hne, ht, hh, hdraw | ⟨-, hpre⟩⟩
      · exact .inl ⟨hne, ht, hh, hdraw⟩
      · exact ((not_precedes_across hp ht).1 hpre).elim
  depth {t h d} ha := by
    rcases (arc_loop hg t h d).1 ha with hdraw | ⟨rfl, -⟩
    · exact (Flow.depth_of_draws (fun _ => flow_lt) hdraw).2.2
    · exact Nat.zero_le 1
  forward {t h d} ha := by
    rcases (arc_twice hp hg' t h d).1 ha with hdraw | ⟨rfl, hpre⟩
    · exact Flow.draws_unrolled_forward (fun _ => flow_lt) hdraw
    · have hsize : p.twice.moves.size = 2 * p.moves.size := by
        simp [twice]
        omega
      exact ⟨rfl, hsize ▸ hpre.lt.1, hsize ▸ hpre.lt.2, hpre.forward hp⟩

/-- A loop and the block that holds its body twice can both be built, and the edges of the one are
those of the other. -/
theorem loop_unrolls (h : p.graph machine = .ok g) (hmoves : 2 * p.moves.size ≤ 4294967295)
    (hops : 2 * p.operations.size ≤ 4294967295) :
    ∃ g₁ g₂, p.loop.graph machine = .ok g₁ ∧ p.twice.graph machine = .ok g₂ ∧
      g₁.UnrollsTo p.moves.size g₂ ∧ g₁.Simple ∧ g₂.Simple := by
  have hp := buildable_of_graph h
  have hsize : p.twice.moves.size = 2 * p.moves.size ∧
      p.twice.operations.size = 2 * p.operations.size := by
    constructor <;> simp [twice] <;> omega
  obtain ⟨g₁, h₁⟩ := exists_graph hp.loop (show p.moves.size ≤ _ by omega)
    (show p.operations.size ≤ _ by omega)
  obtain ⟨g₂, h₂⟩ := exists_graph hp.twice (hsize.1 ▸ hmoves) (hsize.2 ▸ hops)
  exact ⟨g₁, g₂, h₁, h₂, unrollsTo hp (graph_drawn h₁) (graph_drawn h₂), simple_of_graph h₁,
    simple_of_graph h₂⟩

/-- A register is added to once in each iteration. -/
def accumulation : Program where
  operations := #[{ opcode := "add" }]
  moves := #[{ src := .register ⟨⟨0⟩, 0⟩, dst := .input 1 true, dstOp := some 0 },
    { src := .output 2, dst := .register ⟨⟨0⟩, 0⟩, srcOp := some 0 }]

/-- The sum of one iteration is what the next one reads: the result of the first copy is read by the
second. -/
theorem loop_unrolls_accumulation : ∃ g g₁ g₂, accumulation.graph copyMachine = .ok g ∧
    accumulation.loop.graph copyMachine = .ok g₁ ∧ accumulation.twice.graph copyMachine = .ok g₂ ∧
    g₁.UnrollsTo 2 g₂ ∧
    g₁.Arc ⟨1⟩ ⟨0⟩ { Dependence.register .raw ⟨⟨0⟩, 0⟩ with loopDepth := 1 } ∧
    g₂.Arc ⟨1⟩ ⟨2⟩ (.register .raw ⟨⟨0⟩, 0⟩) := by
  obtain ⟨g, hg, -⟩ := exists_ok_of_any (x := accumulation.graph copyMachine) (p := fun _ => true)
    (by decide +kernel)
  obtain ⟨g₁, g₂, h₁, h₂, hu, -, -⟩ := loop_unrolls hg (by decide) (by decide)
  obtain ⟨g₁', h₁', he⟩ := exists_ok_of_any (x := accumulation.loop.graph copyMachine)
    (p := fun g => g.link? ⟨1⟩ = some
      { tail := ⟨1⟩, head := ⟨0⟩, dep := { Dependence.register .raw ⟨⟨0⟩, 0⟩ with loopDepth := 1 } })
    (by decide +kernel)
  cases h₁.symm.trans h₁'
  have ha : g₁.Arc ⟨1⟩ ⟨0⟩ { Dependence.register .raw ⟨⟨0⟩, 0⟩ with loopDepth := 1 } :=
    ⟨⟨1⟩, of_decide_eq_true he⟩
  exact ⟨g, g₁, g₂, hg, h₁, h₂, hu, ha, ((hu.across _ _ _ rfl).1 ha).2.2.2⟩

end Program

end Transport
