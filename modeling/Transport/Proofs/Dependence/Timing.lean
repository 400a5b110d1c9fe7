import Transport.Proofs.Dependence.MoveChange
import Transport.Proofs.Resource.Placing

/-!
# Latencies between placed moves

`Apart` says that an edge between two placed moves is given its latency. The bound that `earliest`
computes keeps a move apart from every placed move before it.
-/

namespace Transport

variable {c : Cycle} {p : Cycle → Checked Bool}

namespace Graph

/-- The cycle of a move, if it is placed. -/
abbrev cycleOf (g : Graph) (n : MoveId) : Option Cycle := (g.move? n).bind Move.cycle?

/-- A distance of `d` cycles from `t` to `h`. -/
def Apart (d : Checked Cycle) (t h : Cycle) : Prop :=
  ∃ latency sum, d = .ok latency ∧ Cycle.add t latency = .ok sum ∧ sum ≤ h

variable {g g' : Graph} {n : MoveId} {l : Link} {t h : Cycle}

theorem cycleOf_eq_some : g.cycleOf n = some c ↔ ∃ m, g.move? n = some m ∧ m.cycle? = some c :=
  Option.bind_eq_some_iff

theorem Apart.mono {d : Checked Cycle} {h' : Cycle} (ha : Apart d t h) (hh : h ≤ h') : Apart d t h' := by
  obtain ⟨latency, sum, hd, hsum, hle⟩ := ha
  exact ⟨latency, sum, hd, hsum, Int.le_trans hle hh⟩

/-! ## Latencies -/

theorem linkLatency_eq (hlat : g'.guardLatencies = g.guardLatencies)
    (hop : l.dep.reason = .operation → g'.operationLatency l = g.operationLatency l) :
    g'.linkLatency l = g.linkLatency l := by
  have hguard : g'.guardDelay l.dep = g.guardDelay l.dep := by
    simp only [guardDelay, guardLatency, hlat]
  unfold linkLatency
  rw [hguard]
  split
  · rename_i hreason; rw [hop hreason]
  all_goals rfl

end Graph

/-! ## The bound -/

/-- What each element asks for holds at the end of a walk that only ever tightens its state. -/
theorem foldlM_tightens {σ α : Type} {f : σ → α → Checked σ} {R : σ → σ → Prop} {P : α → σ → Prop}
    (hrefl : ∀ a, R a a) (htrans : ∀ a b c, R a b → R b c → R a c)
    (hmono : ∀ x a b, P x a → R a b → P x b) (hf : ∀ a x b, f a x = .ok b → R a b ∧ P x b)
    {xs : List α} {a c : σ} (h : xs.foldlM f a = .ok c) : R a c ∧ ∀ x ∈ xs, P x c := by
  induction xs generalizing a with
  | nil =>
    simp only [List.foldlM_nil, pure_eq_ok] at h
    exact ⟨h ▸ hrefl a, by simp⟩
  | cons x xs ih =>
    obtain ⟨b, hb, h⟩ := foldlM_cons_eq_ok.1 h
    obtain ⟨hab, hx⟩ := hf a x b hb
    obtain ⟨hbc, hxs⟩ := ih h
    refine ⟨htrans a b c hab hbc, fun y hy => ?_⟩
    rcases List.mem_cons.1 hy with rfl | hy
    · exact hmono _ _ _ hx hbc
    · exact hxs y hy

namespace Graph

variable {g : Graph} {n : MoveId}

theorem earliest_le (hg : g.Linked) (hc : g.earliest n = .ok c) : 0 ≤ c ∧ ∀ e l, g.link? e = some l →
    l.live → l.dep.isBack = false → l.head = n → ∀ t, g.cycleOf l.tail = some t →
      Apart (g.linkLatency l) t c := by
  simp only [earliest, earliestOver, bind_eq_ok] at hc
  obtain ⟨m, hm, hc⟩ := hc
  obtain ⟨h0, hall⟩ := foldlM_tightens (R := (· ≤ ·))
    (P := fun (x : EdgeId × Link) c => ∀ t, g.cycleOf x.2.tail = some t → Apart (g.linkLatency x.2) t c)
    Int.le_refl (fun _ _ _ => Int.le_trans) (fun x a b hx hab t ht => (hx t ht).mono hab)
    (fun a x b hb => by
      cases hx : g.cycleOf x.2.tail with
      | none =>
        simp only [cycleOf] at hx
        simp only [hx, pure_eq_ok] at hb
        exact ⟨Int.le_of_eq hb, by simp⟩
      | some t =>
        simp only [cycleOf] at hx
        simp only [hx, bind_eq_ok, pure_eq_ok] at hb
        obtain ⟨d, hd, s, hs, rfl⟩ := hb
        refine ⟨Int.le_max_left _ _, ?_⟩
        rintro _ ⟨⟩
        exact ⟨d, s, hd, hs, Int.le_max_right _ _⟩) hc
  refine ⟨h0, fun e l hl hlive hback hh => hall (e, l) ?_⟩
  rw [List.mem_filter, ← entering_eq (move?_of_move hm), hg.mem_entering]
  exact ⟨⟨hl, hlive, hh⟩, by simp [boundsCycles, hback]⟩

end Graph

/-! ## The searches -/

theorem of_searchUp {k : Nat} {c' : Cycle} (h : searchUp p k c = .ok (some c')) : c ≤ c' ∧ c' < c + k := by
  induction k generalizing c with
  | zero => simp [searchUp] at h
  | succ k ih =>
    simp only [searchUp, bind_eq_ok] at h
    obtain ⟨b, -, h⟩ := h
    split at h
    · simp only [pure_eq_ok, Option.some.injEq] at h
      lia
    · have := ih h
      lia

theorem of_searchDown {k : Nat} (h : searchDown p k = .ok (some c)) : 0 ≤ c ∧ c < k := by
  induction k with
  | zero => simp [searchDown] at h
  | succ k ih =>
    simp only [searchDown, bind_eq_ok] at h
    obtain ⟨b, -, h⟩ := h
    split at h
    · simp only [pure_eq_ok, Option.some.injEq] at h
      lia
    · have := ih h
      lia

end Transport
