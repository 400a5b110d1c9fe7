import Transport.Proofs.Renaming.Registers

/-!
# How far an operand looks back

The distance is an unsigned number that is added to the cycle of the producer. While the sum is a cycle, an operand
looks back exactly that far, and a greater distance admits more. From there on the test fails, and a distance that is
read as a negative number admits hardly any producer: `looksBack_iff`.
-/

namespace Transport

namespace RegionM

variable {r r' : Region} {n source : MoveId} {c p : Cycle} {reg : Reg} {k : Nat}

/-- A distance from `2 ^ 31` on is read as a negative number. -/
theorem ofLatency_of_le (hlow : 2147483648 ≤ k) (hk : k < 4294967296) : Cycle.ofLatency k = (k : Int) - 4294967296 := by
  unfold Cycle.ofLatency
  rw [← Int.sub_bmod_right]
  apply Int.bmod_eq_of_le <;> omega

/-- The window test, with the distance as a natural number. -/
theorem withinLookBack_eq (hp : 0 ≤ p ∧ p < 2147483648) (hk : r.bypasser.lookBack < 4294967296) :
    withinLookBack reg p c r =
      if r.graph.isForced reg then .ok true r
      else if 2147483648 ≤ r.bypasser.lookBack then .ok (c + 4294967296 ≤ p + r.bypasser.lookBack) r
      else if p + r.bypasser.lookBack < 2147483648 then .ok (c - p ≤ r.bypasser.lookBack) r
      else .error (.fault .overflow) r := by
  change (if r.graph.isForced reg then _ else _ : RegionM Bool) r = _
  split
  · rfl
  change (ofChecked (Cycle.check (p + Cycle.ofLatency r.bypasser.lookBack)) >>= fun last =>
    pure (decide (c ≤ last))) r = _
  rw [Cycle.check]
  by_cases hneg : 2147483648 ≤ r.bypasser.lookBack
  · rw [ofLatency_of_le hneg hk, if_pos hneg, if_pos ⟨by lia, by lia⟩]
    exact congrArg (EStateM.Result.ok · r) (decide_eq_decide.2 (by lia))
  rw [Cycle.ofLatency_of_lt (by lia), if_neg hneg]
  by_cases hfit : p + r.bypasser.lookBack < 2147483648
  · rw [if_pos hfit, if_pos ⟨by lia, hfit⟩]
    exact congrArg (EStateM.Result.ok · r) (decide_eq_decide.2 (by lia))
  · rw [if_neg hfit, if_neg fun h => hfit h.2]
    rfl

/-- Nothing but the window depends on the distance. -/
theorem bypassSource?_of_near (hg : r'.graph = r.graph) (hrun : bypassSource? n r = .ok (some (source, c)) r)
    (hnear : ∀ m reg p, r.graph.move n = .ok m → m.src.reg? = some reg → r.graph.cycleOf source = some p →
      withinLookBack reg p c r = .ok true r → withinLookBack reg p c r' = .ok true r') :
    bypassSource? n r' = .ok (some (source, c)) r' := by
  obtain ⟨m, reg, ms, p, hm, hreg, hc, hsole, hms, hp, hwithin, hok⟩ := (bypassSource?_ok hrun).2 source c rfl
  have hnear := hnear m reg p hm hreg (by simp [Graph.cycleOf, Graph.move?_of_move hms, hp]) hwithin
  rw [← hg] at hm hsole hms hok
  refine run_bind_ok.2 ⟨m, r', move_ok.2 ⟨hm, rfl⟩, ?_⟩
  simp only [hreg]
  refine run_bind_ok.2 ⟨c, r', lift_ok.2 ⟨hc, rfl⟩, run_bind_ok.2 ⟨_, r', graph_ok.2 ⟨rfl, rfl⟩, ?_⟩⟩
  simp only [hsole]
  refine run_bind_ok.2 ⟨ms, r', move_ok.2 ⟨hms, rfl⟩, ?_⟩
  simp only [hp]
  refine run_bind_ok.2 ⟨true, r', hnear, run_bind_ok.2 ⟨_, r', graph_ok.2 ⟨rfl, rfl⟩, ?_⟩⟩
  simp only [hok, if_true]
  rfl

/-- A distance says how far an operand looks back exactly if the sum with the cycle of the producer is a cycle, or the
producer comes that much later; then a greater distance admits what a lesser one does. -/
theorem looksBack_iff (hp : 0 ≤ p ∧ p < 2147483648) (hc : 0 ≤ c ∧ c < 2147483648)
    (hk : r.bypasser.lookBack < 4294967296) :
    (withinLookBack reg p c r = .ok (r.graph.isForced reg || c - p ≤ r.bypasser.lookBack) r ↔
      r.graph.isForced reg ∨ p + r.bypasser.lookBack < 2147483648 ∨ c + 4294967296 ≤ p + r.bypasser.lookBack) ∧
    (withinLookBack reg p c r = .error (.fault .overflow) r ↔ ¬ r.graph.isForced reg ∧
      r.bypasser.lookBack < 2147483648 ∧ 2147483648 ≤ p + r.bypasser.lookBack) ∧
    ∀ r' n m source, r'.graph = r.graph → r.bypasser.lookBack ≤ r'.bypasser.lookBack →
      r'.bypasser.lookBack < 4294967296 → r.graph.move n = .ok m → m.src.reg? = some reg →
      r.graph.cycleOf source = some p →
      r.graph.isForced reg ∨ p + r'.bypasser.lookBack < 2147483648 →
      bypassSource? n r = .ok (some (source, c)) r → bypassSource? n r' = .ok (some (source, c)) r' := by
  rw [withinLookBack_eq hp hk]
  refine ⟨?_, ?_, fun r' n m source hg hle hk' hm hreg hsource hfit hrun => bypassSource?_of_near hg hrun ?_⟩
  · split_ifs with hforced hneg hfit
    · simp [hforced]
    · simp [hforced]
      lia
    · simp [hforced, hfit]
    · simp [hforced, hfit]
      lia
  · split_ifs with hforced hneg hfit
    · simp [hforced]
    · simp [Nat.not_lt.2 hneg]
    · simp [hfit]
    · simp [hforced]
      lia
  · intro m' reg' p' hm' hreg' hp' hnear
    cases hm.symm.trans hm'
    cases hreg.symm.trans hreg'
    cases hsource.symm.trans hp'
    rw [withinLookBack_eq hp hk] at hnear
    rw [withinLookBack_eq hp hk', hg]
    by_cases hforced : r.graph.isForced reg
    · simp [hforced]
    have hlt := hfit.resolve_left hforced
    rw [if_neg hforced, if_neg (by lia), if_pos (by lia)] at hnear ⊢
    simp only [EStateM.Result.ok.injEq, decide_eq_true_eq, and_true] at hnear ⊢
    lia

end RegionM

namespace Program

/-- The constant is loaded in cycle 1 and used in cycle 4. -/
def spaced : Built Graph := do
  let g ← loadThenUse.graph hastyWired
  let g ← g.setPlacement ⟨0⟩ (some ⟨1, ⟨0⟩⟩)
  g.setPlacement ⟨1⟩ (some ⟨4, ⟨0⟩⟩)

def lookingBack (g : Graph) (k : Nat) : Region := { machine := hastyWired, graph := g, bypasser := { lookBack := k } }

/-- From cycle 1 on, a distance of `2 ^ 31 - 1` leaves the width. -/
theorem looksBack_iff_spaced : ∃ g, spaced = .ok g ∧
    RegionM.withinLookBack ⟨⟨0⟩, 0⟩ 1 4 (lookingBack g 2147483647) =
      .error (.fault .overflow) (lookingBack g 2147483647) := by
  obtain ⟨g, hg, hfree⟩ := exists_ok_of_any (x := spaced) (p := fun g => !g.isForced ⟨⟨0⟩, 0⟩) (by decide +kernel)
  refine ⟨g, hg, (RegionM.looksBack_iff (by decide) (by decide) ?_).2.1.2 ⟨by simpa [lookingBack] using hfree, ?_, ?_⟩⟩
  all_goals simp only [lookingBack]; decide

/-- A distance of 3 admits the constant. One that leaves the width fails, and one that is read as a negative number
admits nothing. -/
theorem greater_distance_admits_less : ∃ g, spaced = .ok g ∧
    (RegionM.bypassSource? ⟨1⟩).run' (lookingBack g 3) = some (some (⟨0⟩, 4)) ∧
    (RegionM.bypassSource? ⟨1⟩).run' (lookingBack g 2147483647) = none ∧
    (RegionM.bypassSource? ⟨1⟩).run' (lookingBack g 2147483648) = some none := by
  obtain ⟨g, hg, h⟩ := exists_ok_of_any (x := spaced) (p := fun g =>
    (RegionM.bypassSource? ⟨1⟩).run' (lookingBack g 3) = some (some (⟨0⟩, 4)) ∧
    (RegionM.bypassSource? ⟨1⟩).run' (lookingBack g 2147483647) = none ∧
    (RegionM.bypassSource? ⟨1⟩).run' (lookingBack g 2147483648) = some none) (by decide +kernel)
  exact ⟨g, hg, of_decide_eq_true h⟩

end Program

end Transport
