import Mathlib.Data.List.Nodup
import Transport.Proofs.Dependence.Tables
import Transport.Scheduling.Units

/-!
# Groups fall into units

The units of a group are its moves sorted by what they are placed with: each move is in one unit, and
moves of one unit belong together. `Group.mem_orderedUnits` says so of the units in the order in which
they are placed.
-/

namespace Transport

variable {g : Graph} {n : MoveId} {group : Group} {k : UnitTag} {us ns : List MoveId}
  {units : List (UnitTag × List MoveId)}

/-- What a move is placed with, if it is known. -/
def Graph.tagOf (g : Graph) (n : MoveId) : Option UnitTag := (g.move? n).map (·.unitTag n)

namespace Group

theorem keys_addToUnit (units : List (UnitTag × List MoveId)) (k : UnitTag) (n : MoveId) :
    (addToUnit units k n).map Prod.fst =
      units.map Prod.fst ++ if k ∈ units.map Prod.fst then [] else [k] := by
  induction units with
  | nil => rfl
  | cons u units ih =>
    obtain ⟨k', ns⟩ := u
    simp only [addToUnit]
    split
    · rename_i hk
      simp [hk]
    · rename_i hk
      rw [List.map_cons, ih]
      simp only [List.map_cons, List.cons_append, List.mem_cons, Ne.symm hk, false_or]

theorem mem_addToUnit {k' : UnitTag} (hkeys : (units.map Prod.fst).Nodup) :
    (k', us) ∈ addToUnit units k n ↔ if k' = k then
      (∃ ns, (k, ns) ∈ units ∧ us = ns ++ [n]) ∨ k ∉ units.map Prod.fst ∧ us = [n]
      else (k', us) ∈ units := by
  induction units with
  | nil =>
    by_cases hk : k' = k <;> simp [addToUnit, hk]
  | cons u units ih =>
    obtain ⟨k1, ns1⟩ := u
    obtain ⟨hfresh, hkeys⟩ := List.nodup_cons.1 hkeys
    have hfresh (ns : List MoveId) : (k1, ns) ∉ units := fun h => hfresh (List.mem_map.2 ⟨_, h, rfl⟩)
    simp only [addToUnit]
    by_cases hk1 : k1 = k
    · subst hk1
      by_cases hk : k' = k1 <;> simp [hk, hfresh]
    · rw [if_neg hk1, List.mem_cons, ih hkeys]
      by_cases hk : k' = k
      · subst hk
        simp [Ne.symm hk1]
      · simp [hk]

/-- The moves `ns` of a group, sorted by what they are placed with. -/
structure Keyed (g : Graph) (ns : List MoveId) (units : List (UnitTag × List MoveId)) : Prop where
  keys : (units.map Prod.fst).Nodup
  mem (k : UnitTag) (us : List MoveId) :
    (k, us) ∈ units ↔ us ≠ [] ∧ us = ns.filter (g.tagOf · = some k)
  known {n : MoveId} : n ∈ ns → ∃ k, g.tagOf n = some k

theorem Keyed.add {m : Move} (h : Keyed g ns units) (hm : g.move? n = some m) :
    Keyed g (ns ++ [n]) (addToUnit units (m.unitTag n) n) := by
  have htag : g.tagOf n = some (m.unitTag n) := by simp [Graph.tagOf, hm]
  have hkey (k : UnitTag) : k ∈ units.map Prod.fst ↔ ns.filter (g.tagOf · = some k) ≠ [] := by
    rw [List.mem_map]
    constructor
    · rintro ⟨⟨_, us⟩, hu, rfl⟩
      obtain ⟨hne, rfl⟩ := (h.mem _ _).1 hu
      exact hne
    · intro hne
      exact ⟨(k, _), (h.mem _ _).2 ⟨hne, rfl⟩, rfl⟩
  refine ⟨?_, fun k us => ?_, fun hn => ?_⟩
  · rw [keys_addToUnit]
    split
    · simpa using h.keys
    · rename_i hk
      exact List.nodup_append.2 ⟨h.keys, by simp, fun a ha b hb hab => hk (by simp_all)⟩
  · rw [mem_addToUnit h.keys, List.filter_append]
    by_cases hk : k = m.unitTag n
    · subst hk
      rw [if_pos rfl, hkey]
      simp only [htag, List.filter_cons, decide_true, if_true, List.filter_nil, h.mem]
      constructor
      · rintro (⟨_, ⟨-, rfl⟩, rfl⟩ | ⟨hno, rfl⟩)
        · simp
        · rw [not_not.1 hno]
          simp
      · rintro ⟨-, rfl⟩
        by_cases hno : ns.filter (g.tagOf · = some (m.unitTag n)) = []
        · exact .inr ⟨not_not.2 hno, by rw [hno]; rfl⟩
        · exact .inl ⟨_, ⟨hno, rfl⟩, rfl⟩
    · have hother : g.tagOf n ≠ some k := fun h => hk (Option.some.inj (h.symm.trans htag))
      simp [hk, h.mem, hother]
  · rcases List.mem_append.1 hn with hn | hn
    · exact h.known hn
    · exact ⟨_, List.mem_singleton.1 hn ▸ htag⟩

theorem keyed_of_foldlM {units' : List (UnitTag × List MoveId)} (h : Keyed g ns units)
    (hrun : group.foldlM (fun units n => do return addToUnit units ((← g.move n).unitTag n) n) units =
      (.ok units' : Checked _)) : Keyed g (ns ++ group) units' := by
  induction group generalizing ns units with
  | nil =>
    cases hrun
    rwa [List.append_nil]
  | cons n group ih =>
    obtain ⟨units1, hstep, hrest⟩ := foldlM_cons_eq_ok.1 hrun
    simp only [bind_eq_ok, pure_eq_ok] at hstep
    obtain ⟨m, hm, rfl⟩ := hstep
    have := ih (h.add (Graph.move?_of_move hm)) hrest
    rwa [List.append_assoc] at this

/-- The units are the classes of moves that are placed together. -/
theorem mem_units {us : List (List MoveId)} (h : group.units g = .ok us) :
    (∀ u, u ∈ us ↔ u ≠ [] ∧ ∃ k, u = group.filter (g.tagOf · = some k)) ∧
      ∀ n ∈ group, ∃ k, g.tagOf n = some k := by
  simp only [units, bind_eq_ok, pure_eq_ok] at h
  obtain ⟨keyed, hkeyed, rfl⟩ := h
  have hk : Keyed g group keyed := by
    have hnil : Keyed g [] [] := ⟨List.nodup_nil, by simp, by simp⟩
    simpa using keyed_of_foldlM hnil hkeyed
  refine ⟨fun u => ?_, fun _ => hk.known⟩
  simp [hk.mem]

theorem orderUnits_perm {fuel : Nat} {us : List (List MoveId)} (hfuel : us.length ≤ fuel) :
    (orderUnits g fuel us).Perm us := by
  induction fuel generalizing us with
  | zero => exact .refl _
  | succ fuel ih =>
    simp only [orderUnits]
    cases hnext : nextUnit? g us with
    | none =>
      have hnone : us = [] := by
        simp only [nextUnit?, Option.or_eq_none_iff, List.head?_eq_none_iff] at hnext
        exact hnext.2
      simp [hnone]
    | some u =>
      have hu : u ∈ us := by
        simp only [nextUnit?, Option.or_eq_some_iff] at hnext
        rcases hnext with hnext | ⟨-, hnext⟩
        · exact List.mem_of_find?_eq_some hnext
        · exact List.mem_of_head? hnext
      have hlen : (us.erase u).length ≤ fuel := by
        rw [List.length_erase_of_mem hu]
        omega
      exact ((ih hlen).cons u).trans (List.perm_cons_erase hu).symm

/-- So are the units in the order they are placed. -/
theorem mem_orderedUnits {us : List (List MoveId)} {direction : Direction}
    (h : group.orderedUnits g direction = .ok us) :
    (∀ u, u ∈ us ↔ u ≠ [] ∧ ∃ k, u = group.filter (g.tagOf · = some k)) ∧
      ∀ n ∈ group, ∃ k, g.tagOf n = some k := by
  simp only [orderedUnits, bind_eq_ok] at h
  obtain ⟨us', hus', h⟩ := h
  have hperm : us.Perm us' := by
    cases direction with
    | topDown => exact pure_eq_ok.1 h ▸ orderUnits_perm (Nat.le_refl _)
    | bottomUp => exact pure_eq_ok.1 h ▸ (List.reverse_perm _).trans (orderUnits_perm (Nat.le_refl _))
  obtain ⟨hmem, hknown⟩ := mem_units hus'
  exact ⟨fun u => hperm.mem_iff.trans (hmem u), hknown⟩

end Group

end Transport
