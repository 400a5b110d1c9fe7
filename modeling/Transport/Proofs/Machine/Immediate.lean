import Mathlib.Algebra.Order.Ring.Int
import Transport.Machine

/-!
# Which constants travel inline

A field carries the words that sign extension gives back. They are those no wider than the field, as counted by the
leading zeros of the word: `immediateWidth_isExact`.
-/

namespace Transport

theorem bitLength_le_iff {n k : Nat} : bitLength n ≤ k ↔ n < 2 ^ k := by
  unfold bitLength
  split
  · exact iff_of_true (Nat.zero_le k) (‹n = 0› ▸ Nat.two_pow_pos k)
  · exact Nat.log2_lt ‹_›

theorem bitLength_toNat {w : Nat} (x : BitVec w) : bitLength x.toNat = w - x.clz.toNat := by
  refine Nat.le_antisymm (bitLength_le_iff.2 BitVec.toNat_lt_two_pow_sub_clz) (Nat.le_of_not_lt fun hlt => ?_)
  have hx : x ≠ 0#w := fun hx => by simp [BitVec.clz_eq_iff_eq_zero.2 hx] at hlt
  have hlow := BitVec.two_pow_sub_clz_le_toNat_of_ne_zero (by omega) hx
  rw [Nat.sub_right_comm] at hlow
  exact Nat.not_lt.2 hlow (bitLength_le_iff.1 (Nat.le_sub_one_of_lt hlt))

theorem immediateWidth_le_iff {v : Int} {k : Nat} :
    immediateWidth v ≤ k ↔ 0 < k ∧ -2 ^ (k - 1) ≤ v ∧ v < 2 ^ (k - 1) := by
  cases k with
  | zero => simp [immediateWidth]
  | succ j =>
    have hcast : ((2 ^ j : Nat) : Int) = 2 ^ j := Int.natCast_pow 2 j
    rw [immediateWidth, Nat.add_le_add_iff_right, bitLength_le_iff, Nat.add_sub_cancel]
    split <;> omega

variable {v : Int64} {k : Nat}

/-- Exclusive or with the sign folds a negative word onto the others. -/
theorem toNat_xor_sign :
    (v ^^^ v >>> 63).toBitVec.toNat = (if v.toInt < 0 then -v.toInt - 1 else v.toInt).toNat := by
  have hlow := v.le_toInt
  have hhigh := v.toInt_lt
  have hsign : (v >>> 63).toBitVec = if v.toInt < 0 then BitVec.allOnes 64 else 0#64 := by
    apply BitVec.eq_of_toInt_eq
    change (v.toBitVec.sshiftRight 63).toInt = _
    rw [BitVec.toInt_sshiftRight, Int64.toInt_toBitVec, Int.shiftRight_eq_div_pow]
    split <;> simp <;> omega
  have hnat := v.toBitVec.toInt_eq_toNat_cond
  rw [Int64.toInt_toBitVec] at hnat
  rw [Int64.toBitVec_xor, hsign]
  split
  · rw [BitVec.xor_allOnes, BitVec.toNat_not]
    omega
  · rw [BitVec.xor_zero]
    omega

/-- Cut to `k` bits, at least one, and extended by its sign, the word is itself again. -/
def Survives (v : Int64) (k : Nat) : Prop := 0 < k ∧ (v.toBitVec.setWidth k).signExtend 64 = v.toBitVec

theorem survives_iff : Survives v k ↔ 0 < k ∧ -2 ^ (k - 1) ≤ v.toInt ∧ v.toInt < 2 ^ (k - 1) := by
  refine and_congr_right fun hk => ?_
  obtain ⟨j, rfl⟩ := Nat.exists_eq_add_one.2 hk
  have hcast : ((2 ^ j : Nat) : Int) = 2 ^ j := Int.natCast_pow 2 j
  rw [Nat.add_sub_cancel, ← hcast]
  by_cases hj : 64 ≤ j
  -- A field wider than the word cuts nothing off, and its range has every word.
  · have hpow := Nat.pow_le_pow_right Nat.two_pos hj
    have hlow := v.le_toInt
    have hhigh := v.toInt_lt
    have hcut : 64 ≤ j + 1 := by omega
    exact iff_of_true (by simp [BitVec.signExtend_eq_setWidth_of_le _ hcut, hcut]) (by omega)
  · have hdvd : ((2 ^ (j + 1) : Nat) : Int) ∣ v.toInt - v.toBitVec.toNat := by
      refine Int.dvd_trans (Int.natCast_dvd_natCast.2 (Nat.pow_dvd_pow 2 (Nat.not_le.1 hj))) ?_
      rw [← Int64.toInt_toBitVec, BitVec.toInt_eq_toNat_bmod]
      exact Int.dvd_bmod_sub_self
    have hdouble := Nat.pow_succ 2 j
    rw [← BitVec.toInt_inj, BitVec.toInt_signExtend_of_le (Nat.not_le.1 hj), BitVec.toInt_setWidth,
      Int.bmod_eq_iff (Nat.two_pow_pos _), Int64.toInt_toBitVec, and_iff_left hdvd]
    omega

/-- The leading zeros of a word give the width of the least field that carries it. So a port takes a constant inline
exactly if some bus with a socket on it has a field that carries the constant. -/
theorem immediateWidth_isExact (v : Int64) :
    immediateWidth v.toInt = 64 - (v ^^^ v >>> 63).toBitVec.clz.toNat + 1 ∧
    (∀ k, (immediateWidth v.toInt ≤ k ↔ Survives v k) ∧
      (Survives v k ↔ 0 < k ∧ -2 ^ (k - 1) ≤ v.toInt ∧ v.toInt < 2 ^ (k - 1))) ∧
    ∀ (m : Machine) (p : Port), m.takesShortImmediate v.toInt p ↔
      ∃ b ∈ m.buses, p ∈ b.sockets ∧ Survives v b.immediateWidth := by
  have hwidth {k : Nat} : immediateWidth v.toInt ≤ k ↔ Survives v k := immediateWidth_le_iff.trans survives_iff.symm
  refine ⟨?_, fun k => ⟨hwidth, survives_iff⟩, fun m p => ?_⟩
  · rw [immediateWidth, ← toNat_xor_sign, bitLength_toNat]
  · simp [Machine.takesShortImmediate, Bus.attaches, hwidth, ← Array.any_toList, and_comm]

end Transport
