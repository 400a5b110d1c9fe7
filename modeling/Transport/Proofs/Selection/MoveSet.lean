import Mathlib.Data.Finset.Card
import Mathlib.Order.Bounds.Defs
import Transport.MoveSet
import Transport.Proofs.Dependence.Tables

/-!
# Rows of bits as sets

A set of moves is a row of frames, and its members are the bits in them. Whatever was put in and taken out before,
it answers as the mathematical set does, and a walk over its frames meets each member once, in order:
`mirrors_of_edits`.
-/

namespace Transport.MoveSet

variable {s : MoveSet} {i : Nat}

theorem has_eq : s.has i = (s.frames[i / 64]?.getD 0).getLsbD (i % 64) := by
  unfold has
  cases s.frames[i / 64]? <;> simp

/-- The row is padded with empty frames, and the frame of `i` gets one more bit. -/
theorem frame_add {k : Nat} : (s.add i).frames[k]?.getD 0 =
    if k = i / 64 then s.frames[k]?.getD 0 ||| bit i else s.frames[k]?.getD 0 := by
  have hpad : (s.frames ++ Array.replicate (i / 64 + 1 - s.frames.size) 0)[k]?.getD 0 =
      s.frames[k]?.getD 0 := by
    rw [Array.getElem?_append]
    split
    · rfl
    · rename_i hout
      rw [Array.getElem?_replicate, Array.getElem?_eq_none (Nat.le_of_not_lt hout)]
      split <;> rfl
  simp only [add, Array.getElem?_modify]
  by_cases hk : i / 64 = k
  · rw [if_pos hk, if_pos hk.symm, ← hpad]
    have hin : k < (s.frames ++ Array.replicate (i / 64 + 1 - s.frames.size) 0).size := by
      simp only [Array.size_append, Array.size_replicate]
      omega
    rw [Array.getElem?_eq_getElem hin]
    rfl
  · rw [if_neg hk, if_neg (Ne.symm hk), hpad]

theorem has_add {j : Nat} : (s.add i).has j ↔ j = i ∨ s.has j := by
  rw [has_eq, has_eq, frame_add]
  split
  · rename_i hrow
    rw [BitVec.getLsbD_or, Bool.or_eq_true, getLsbD_bit, or_comm]
    have hbit : j % 64 = i % 64 ↔ j = i := by omega
    rw [hbit]
  · rename_i hrow
    have hne : j ≠ i := fun h => hrow (by rw [h])
    simp [hne]

theorem has_empty : empty.has i = false := by
  simp [has, empty]

theorem has_drop {j : Nat} : (s.drop i).has j ↔ s.has j ∧ j ≠ i := by
  rw [has_eq, has_eq, drop, Array.getElem?_modify]
  by_cases hrow : i / 64 = j / 64
  · have hsame : j % 64 = i % 64 ↔ j = i := by omega
    rw [if_pos hrow, Ne, ← hsame]
    cases s.frames[j / 64]? with
    | none => simp
    | some frame => exact getLsbD_without frame i j
  · have hne : j ≠ i := fun h => hrow (by rw [h])
    simp [hrow, hne]

theorem has_clear : s.clear.has i = false := by
  rw [has_eq, clear, Array.getElem?_map]
  cases s.frames[i / 64]? <;> simp

theorem has_withCapacity {n : Nat} : (withCapacity n).has i = false := by
  rw [has_eq, withCapacity, Array.getElem?_replicate]
  split <;> simp

/-! ## The walk over the members -/

section Walk

variable {taken : Nat} {current frame : BitVec 64} {rest : List (BitVec 64)}

/-- The walk has `i` before it: in what is left of the current frame or in a frame to come. -/
def Ahead (taken : Nat) (current : BitVec 64) (rest : List (BitVec 64)) (i : Nat) : Prop :=
  i / 64 + 1 = taken ∧ current.getLsbD (i % 64) ∨
    taken ≤ i / 64 ∧ (rest[i / 64 - taken]?.getD 0).getLsbD (i % 64)

/-- A frame that is taken up stands for the same members as before. -/
theorem ahead_cons : Ahead (taken + 1) frame rest i ↔ Ahead taken 0 (frame :: rest) i := by
  unfold Ahead
  rcases Nat.lt_trichotomy (i / 64) taken with h | h | h
  · simp [h.ne, Nat.not_le.2 h, Nat.not_le.2 (Nat.lt_succ_of_lt h)]
  · simp [h]
  · have hrow : i / 64 - taken = i / 64 - (taken + 1) + 1 := by omega
    simp [h.ne', h.le, Nat.succ_le_of_lt h, hrow]

/-- The lowest bit of the current frame is the least member before the walk, and the only one that is passed. -/
theorem ahead_lowest (htaken : 0 < taken) (h : current ≠ 0) (rest : List (BitVec 64)) :
    IsLeast {i | Ahead taken current rest i} ((taken - 1) * 64 + current.ctz.toNat) ∧
      ∀ i, Ahead taken (dropLowest current) rest i ↔
        Ahead taken current rest i ∧ i ≠ (taken - 1) * 64 + current.ctz.toNat := by
  have hlowest : current.ctz.toNat < 64 := BitVec.ctz_lt_iff_ne_zero.2 h
  refine ⟨⟨.inl ⟨by omega, ?_⟩, fun i hi => ?_⟩, fun i => ?_⟩
  · rw [Nat.mul_add_mod_of_lt hlowest]
    exact BitVec.getLsbD_true_ctz_of_ne_zero h
  · rcases hi with ⟨hi, hbit⟩ | ⟨hi, -⟩
    · have hle : current.ctz.toNat ≤ i % 64 := by
        by_contra hlt
        rw [BitVec.getLsbD_false_of_lt_ctz (Nat.lt_of_not_le hlt)] at hbit
        cases hbit
      omega
    · omega
  · have hother : taken ≤ i / 64 → i ≠ (taken - 1) * 64 + current.ctz.toNat := by omega
    have hsame : i / 64 + 1 = taken → (i % 64 ≠ current.ctz.toNat ↔ i ≠ (taken - 1) * 64 + current.ctz.toNat) := by
      omega
    rw [Ahead, Ahead, getLsbD_dropLowest h (Nat.mod_lt _ (by decide))]
    tauto

theorem walk_spec (hbegun : current ≠ 0 → 0 < taken) (hfit : ∀ i, Ahead taken current rest i → i < 4294967296) :
    (walk taken current rest).Pairwise (·.val < ·.val) ∧
      ∀ n, n ∈ walk taken current rest ↔ Ahead taken current rest n.val := by
  fun_induction walk taken current rest with
  | case1 => exact ⟨.nil, by simp [Ahead]⟩
  | case2 taken frame rest ih =>
    simp only [ahead_cons] at ih
    exact ih (fun _ => Nat.succ_pos _) hfit
  | case3 taken current rest h ih =>
    obtain ⟨⟨hin, hleast⟩, hrest⟩ := ahead_lowest (hbegun h) h rest
    obtain ⟨hsorted, hmem⟩ := ih (fun _ => hbegun h) fun i hi => hfit i ((hrest i).1 hi).1
    have hval : (Id.ofNat ((taken - 1) * 64 + current.ctz.toNat) : MoveId).val = _ := Nat.mod_eq_of_lt (hfit _ hin)
    refine ⟨List.pairwise_cons.2 ⟨fun n hn => ?_, hsorted⟩, fun n => ?_⟩
    · obtain ⟨hn, hne⟩ := (hrest _).1 ((hmem n).1 hn)
      rw [hval]
      exact (hleast hn).lt_of_ne hne.symm
    · rw [List.mem_cons, hmem, hrest, ← Id.val_inj, hval]
      constructor
      · rintro (hn | hn)
        · exact hn ▸ hin
        · exact hn.1
      · exact fun hn => or_iff_not_imp_left.2 fun hne => ⟨hn, hne⟩

theorem count_dropLowest (h : current ≠ 0) : count current = count (dropLowest current) + 1 := by
  have hlowest : current.ctz.toNat < 64 := BitVec.ctz_lt_iff_ne_zero.2 h
  have hbits (i : Nat) : i ∈ (List.range 64).filter (dropLowest current).getLsbD ↔
      i ∈ (List.range 64).filter current.getLsbD ∧ i ≠ current.ctz.toNat := by
    simp only [List.mem_filter, List.mem_range, and_assoc]
    exact and_congr_right (getLsbD_dropLowest h)
  have hperm : ((List.range 64).filter current.getLsbD).Perm
      (current.ctz.toNat :: (List.range 64).filter (dropLowest current).getLsbD) := by
    refine (List.perm_ext_iff_of_nodup (List.nodup_range.filter _) (List.nodup_cons.2
      ⟨fun hin => ((hbits _).1 hin).2 rfl, List.nodup_range.filter _⟩)).2 fun i => ?_
    have hin := List.mem_filter.2 ⟨List.mem_range.2 hlowest, BitVec.getLsbD_true_ctz_of_ne_zero h⟩
    rw [List.mem_cons, hbits]
    grind
  rw [count, count, List.countP_eq_length_filter, List.countP_eq_length_filter, hperm.length_eq, List.length_cons]

theorem length_walk : (walk taken current rest).length =
    count current + rest.foldr (fun frame k => count frame + k) 0 := by
  have hzero : count 0 = 0 := rfl
  fun_induction walk taken current rest with
  | case1 => rfl
  | case2 taken frame rest ih => rw [ih, hzero, List.foldr_cons, Nat.zero_add]
  | case3 taken current rest h ih => rw [List.length_cons, ih, count_dropLowest h, Nat.add_right_comm]

theorem walk_eq_nil : walk taken current rest = [] ↔ current = 0 ∧ ∀ frame ∈ rest, frame = 0 := by
  fun_induction walk taken current rest with
  | case1 => simp
  | case2 taken frame rest ih => simp [ih]
  | case3 taken current rest h ih => exact iff_of_false (by simp) fun hzero => h hzero.1

end Walk

/-! ## Any history -/

/-- How a set begins. -/
inductive Start
  | new
  | room (n : Nat)
  | listed (ns : List MoveId)

/-- A change of a set. -/
inductive Edit
  | insert (n : MoveId)
  | erase (n : MoveId)
  | clear

def Start.build : Start → Checked MoveSet
  | .new => return .empty
  | .room n => return .withCapacity n
  | .listed ns => MoveSet.ofList ns

def Edit.run (s : MoveSet) : Edit → Checked MoveSet
  | .insert n => return (← s.insert n).2
  | .erase n => s.erase n
  | .clear => return s.clear

/-- The members that a set begins with. -/
def Start.members : Start → Finset MoveId
  | .listed ns => ns.toFinset
  | _ => ∅

/-- What a change does to the members. -/
def Edit.revise (S : Finset MoveId) : Edit → Finset MoveId
  | .insert n => Insert.insert n S
  | .erase n => S.erase n
  | .clear => ∅

/-- The identifiers that a change names stand for moves. -/
def Edit.Valid : Edit → Prop
  | .insert n | .erase n => n.val < 4294967295
  | .clear => True

/-- The set answers as `S` does. -/
structure Mirrors (s : MoveSet) (S : Finset MoveId) : Prop where
  contains {n : MoveId} : n.val < 4294967295 → s.contains n = .ok (decide (n ∈ S))
  insert {n : MoveId} : n.val < 4294967295 → ∃ s', s.insert n = .ok (decide (n ∉ S), s')
  isEmpty : s.isEmpty ↔ S = ∅
  size : s.size = S.card
  sorted : s.toList.Pairwise (·.val < ·.val)
  mem_toList (n : MoveId) : n ∈ s.toList ↔ n ∈ S

/-- The bits of the set are the members of `S`, and these stand for moves. -/
structure Holds (s : MoveSet) (S : Finset MoveId) : Prop where
  has (n : MoveId) : s.has n.val ↔ n ∈ S
  valid {n : MoveId} : n ∈ S → n.val < 4294967295

variable {S : Finset MoveId} {n : MoveId} {e : Edit} {es : List Edit}

theorem revise_inserts (ns : List MoveId) : (ns.map Edit.insert).foldl Edit.revise S = S ∪ ns.toFinset := by
  induction ns generalizing S with
  | nil => simp
  | cons n ns ih => rw [List.map_cons, List.foldl_cons, ih, Edit.revise, List.toFinset_cons, Finset.insert_union_comm]

theorem index_of_lt (h : n.val < 4294967295) : n.index = .ok n.val :=
  if_neg (Id.ne_invalid (Nat.le_refl _) h)

namespace Holds

theorem of_no_bits (h : ∀ i, s.has i = false) : s.Holds ∅ :=
  ⟨fun n => by simp [h], fun hn => absurd hn (Finset.notMem_empty _)⟩

/-- One change keeps the set and the members in step. -/
theorem run (h : s.Holds S) (he : e.Valid) : ∃ s', e.run s = .ok s' ∧ s'.Holds (e.revise S) := by
  cases e with
  | insert n =>
    refine ⟨s.add n.val, by simp only [Edit.run, MoveSet.insert, index_of_lt he, ok_bind]; rfl, ?_, ?_⟩
    · intro m
      rw [has_add, Id.val_inj, h.has, Edit.revise, Finset.mem_insert]
    · intro m hm
      rcases Finset.mem_insert.1 hm with rfl | hm
      · exact he
      · exact h.valid hm
  | erase n =>
    refine ⟨s.drop n.val, by simp only [Edit.run, MoveSet.erase, index_of_lt he, ok_bind]; rfl, ?_, ?_⟩
    · intro m
      rw [has_drop, Ne, Id.val_inj, h.has, Edit.revise, Finset.mem_erase, and_comm]
    · exact fun hm => h.valid (Finset.mem_of_mem_erase hm)
  | clear => exact ⟨s.clear, rfl, of_no_bits fun _ => has_clear⟩

theorem runs (h : s.Holds S) (hes : ∀ e ∈ es, e.Valid) :
    ∃ s', es.foldlM Edit.run s = .ok s' ∧ s'.Holds (es.foldl Edit.revise S) := by
  induction es generalizing s S with
  | nil => exact ⟨s, rfl, h⟩
  | cons e es ih =>
    obtain ⟨s₁, hrun, h₁⟩ := h.run (hes e List.mem_cons_self)
    obtain ⟨s', hruns, h'⟩ := ih h₁ fun x hx => hes x (List.mem_cons_of_mem _ hx)
    exact ⟨s', by rw [List.foldlM_cons, hrun]; exact hruns, h'⟩

theorem mirrors (h : s.Holds S) : s.Mirrors S := by
  have hhas (n : MoveId) : s.has n.val = decide (n ∈ S) := Bool.eq_iff_iff.2 (by simp [h.has])
  have hahead (i : Nat) : Ahead 0 0 s.frames.toList i ↔ s.has i := by simp [Ahead, has_eq]
  obtain ⟨hsorted, hmem⟩ : s.toList.Pairwise (·.val < ·.val) ∧ ∀ n, n ∈ s.toList ↔ n ∈ S := by
    simp only [← h.has, ← hahead]
    exact walk_spec (fun hne => absurd rfl hne) fun i hi =>
      Nat.lt_succ_of_lt (h.valid ((h.has ⟨i⟩).1 ((hahead i).1 hi)))
  have hset : s.toList.toFinset = S := Finset.ext fun n => List.mem_toFinset.trans (hmem n)
  refine ⟨fun {n} hn => ?_, fun {n} hn => ⟨s.add n.val, ?_⟩, ?_, ?_, hsorted, hmem⟩
  · rw [MoveSet.contains, index_of_lt hn, ok_bind, hhas]
    rfl
  · rw [MoveSet.insert, index_of_lt hn, ok_bind, hhas, decide_not]
    rfl
  · rw [← hset, List.toFinset_eq_empty_iff, toList, walk_eq_nil, isEmpty, Array.all_eq_true_iff_forall_mem]
    simp
  · have hnodup : s.toList.Nodup := hsorted.imp fun hlt heq => hlt.ne (congrArg Id.val heq)
    rw [← hset, List.toFinset_card_of_nodup hnodup, toList, length_walk]
    exact (Nat.zero_add _).symm

end Holds

/-- A set that begins in any way and is changed in any way answers as the mathematical set does. -/
theorem mirrors_of_edits (start : Start) (es : List Edit)
    (hstart : ∀ n ∈ start.members, n.val < 4294967295) (hes : ∀ e ∈ es, e.Valid) :
    ∃ s, (start.build >>= es.foldlM Edit.run) = .ok s ∧ s.Mirrors (es.foldl Edit.revise start.members) := by
  obtain ⟨s₀, hbuild, h₀⟩ : ∃ s₀, start.build = .ok s₀ ∧ s₀.Holds start.members := by
    cases start with
    | new => exact ⟨_, rfl, .of_no_bits fun _ => has_empty⟩
    | room n => exact ⟨_, rfl, .of_no_bits fun _ => has_withCapacity⟩
    | listed ns =>
      -- Collecting a list is inserting its members one after the other.
      have hvalid : ∀ e ∈ ns.map Edit.insert, e.Valid := by
        rw [List.forall_mem_map]
        exact fun n hn => hstart n (List.mem_toFinset.2 hn)
      obtain ⟨s₀, hruns, h₀⟩ := (Holds.of_no_bits fun _ => has_withCapacity (n := 0)).runs hvalid
      rw [List.foldlM_map] at hruns
      refine ⟨s₀, hruns, ?_⟩
      rwa [revise_inserts, Finset.empty_union] at h₀
  obtain ⟨s, hruns, h⟩ := h₀.runs hes
  exact ⟨s, by rw [hbuild, ok_bind, hruns], h.mirrors⟩

theorem mirrors_of_edits_twice : ∃ s, (Start.build (.listed [⟨64⟩, ⟨3⟩, ⟨64⟩]) >>=
    [Edit.erase ⟨3⟩, .insert ⟨63⟩].foldlM Edit.run) = .ok s ∧ s.Mirrors {⟨63⟩, ⟨64⟩} := by
  have h := mirrors_of_edits (.listed [⟨64⟩, ⟨3⟩, ⟨64⟩]) [.erase ⟨3⟩, .insert ⟨63⟩] (by decide) (by simp [Edit.Valid])
  exact h

end Transport.MoveSet
