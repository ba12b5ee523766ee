import ClauseLisp.Builtin.Compute

/-! Signed words, the unsigned words with the same bits, and the integers that both stand for. -/

namespace ClauseLisp.Builtin

theorem toInt_cases (n : Int64) :
    0 ≤ n.toInt ∧ n.toInt = n.toUInt64.toNat ∨
      n.toInt < 0 ∧ n.toInt + UInt64.size = n.toUInt64.toNat := by
  have hbits : n.toBitVec.toNat = n.toUInt64.toNat := n.toNat_toBitVec
  have hword : n.toUInt64.toNat < UInt64.size := n.toUInt64.toNat_lt_size
  have hsigned := BitVec.toInt_eq_toNat_cond n.toBitVec
  rw [Int64.toInt_toBitVec, hbits] at hsigned
  unfold UInt64.size at hword ⊢
  split at hsigned
  · left
    omega
  · right
    omega

theorem toNat_magnitude (n : Int64) : (magnitude n).toNat = n.toInt.natAbs := by
  have hsign : n < 0 ↔ n.toInt < 0 := Int64.lt_iff_toInt_lt
  unfold magnitude
  rcases toInt_cases n with ⟨hn, hword⟩ | ⟨hn, hword⟩
  · rw [if_neg (by rw [hsign]; omega)]
    omega
  · -- The unsigned word is not zero, so that taking it from zero wraps around.
    have hlow := n.le_toInt
    have hzero : (0 : UInt64).toNat = 0 := rfl
    rw [if_pos (hsign.mpr hn), UInt64.toNat_sub, hzero]
    unfold UInt64.size at hword
    omega

theorem toInt_toInt64 {d : UInt64} (h : d.toNat < Nat.pow 2 63) : d.toInt64.toInt = d.toNat := by
  have hbits : d.toInt64.toUInt64 = d := rfl
  have hlow := d.toInt64.le_toInt
  have hpow : Nat.pow 2 63 = 9223372036854775808 := rfl
  rcases toInt_cases d.toInt64 with ⟨-, hword⟩ | ⟨-, hword⟩
  · rw [hword, hbits]
  · rw [hbits] at hword
    unfold UInt64.size at hword
    omega

end ClauseLisp.Builtin
