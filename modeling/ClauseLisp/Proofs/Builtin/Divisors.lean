import ClauseLisp.Proofs.Builtin.Results
import ClauseLisp.Proofs.Builtin.Words

/-! Greatest common divisors. They are found by division of the absolute values, which are unsigned
words. The result is exact, and it is an overflow only if the divisor itself is too large for a
signed word. -/

namespace ClauseLisp.Builtin

theorem gcd_mod (a b : Nat) : Nat.gcd b (a % b) = Nat.gcd a b := by
  rw [Nat.gcd_comm a b, Nat.gcd_rec b a, Nat.gcd_comm b]

theorem toNat_euclid (a b : UInt64) : (euclid a b).toNat = Nat.gcd a.toNat b.toNat := by
  fun_induction euclid a b with
  | case1 a => exact (Nat.gcd_zero_right a.toNat).symm
  | case2 a b _ _ ih => rw [ih, UInt64.toNat_mod, gcd_mod]

theorem toNat_euclid_magnitude (x y : Int64) :
    (euclid (magnitude x) (magnitude y)).toNat = Int.gcd x.toInt y.toInt := by
  rw [toNat_euclid, toNat_magnitude, toNat_magnitude]
  rfl

theorem natAbs_toInt_le (x : Int64) : x.toInt.natAbs ≤ Nat.pow 2 63 := by
  have hlow := x.le_toInt
  have hhigh := x.toInt_lt
  have hpow : Nat.pow 2 63 = 9223372036854775808 := rfl
  omega

theorem gcd_toInt_le (x y : Int64) : Int.gcd x.toInt y.toInt ≤ Nat.pow 2 63 := by
  by_cases hy : y.toInt.natAbs = 0
  · have hgcd : Int.gcd x.toInt y.toInt = x.toInt.natAbs := by
      rw [Int.gcd, hy, Nat.gcd_zero_right]
    rw [hgcd]
    exact natAbs_toInt_le x
  · have hdvd := Nat.gcd_le_right x.toInt.natAbs (Nat.pos_of_ne_zero hy)
    exact Nat.le_trans hdvd (natAbs_toInt_le y)

section Call

variable {x y : Int64}

theorem onlyComputes_gcd (x y : Int64) : gcd.OnlyComputes [.integer x, .integer y] :=
  fun _ _ => rfl

theorem maxValue_lt_iff {d : UInt64} : Int64.maxValue.toUInt64 < d ↔ Nat.pow 2 63 ≤ d.toNat :=
  UInt64.lt_iff_toNat_lt

theorem raises_gcd (h : Int.gcd x.toInt y.toInt = Nat.pow 2 63) :
    gcd.Raises [.integer x, .integer y] .integerOverflow := by
  rw [(onlyComputes_gcd x y).raises_iff]
  refine if_pos (maxValue_lt_iff.mpr (Nat.le_of_eq ?_))
  rw [toNat_euclid_magnitude, h]

theorem returns_gcd (h : Int.gcd x.toInt y.toInt ≠ Nat.pow 2 63) :
    ∃ i : Int64, i.toInt = Int.gcd x.toInt y.toInt ∧
      gcd.Returns [.integer x, .integer y] (.integer i) := by
  have hword : (euclid (magnitude x) (magnitude y)).toNat < Nat.pow 2 63 := by
    rw [toNat_euclid_magnitude]
    exact Nat.lt_of_le_of_ne (gcd_toInt_le x y) h
  refine ⟨(euclid (magnitude x) (magnitude y)).toInt64, ?_, ?_⟩
  · rw [toInt_toInt64 hword, toNat_euclid_magnitude]
  · rw [(onlyComputes_gcd x y).returns_iff]
    exact if_neg fun hlarge => Nat.not_le.mpr hword (maxValue_lt_iff.mp hlarge)

theorem returns_gcd_iff {i : Int64} : gcd.Returns [.integer x, .integer y] (.integer i) ↔
    i.toInt = Int.gcd x.toInt y.toInt := by
  by_cases hd : Int.gcd x.toInt y.toInt = Nat.pow 2 63
  · constructor
    · intro hreturns
      exact absurd (raises_gcd hd) hreturns.not_raises
    · intro hi
      have hhigh := i.toInt_lt
      rw [hi, hd] at hhigh
      exact absurd hhigh (by decide)
  · obtain ⟨d, htoInt, hreturns⟩ := returns_gcd hd
    constructor
    · intro hi
      obtain rfl : i = d := Value.integer.inj (hi.unique hreturns)
      exact htoInt
    · intro hi
      obtain rfl : i = d := Int64.toInt_inj.mp (hi.trans htoInt.symm)
      exact hreturns

theorem raises_gcd_iff {f : Fault} : gcd.Raises [.integer x, .integer y] f ↔
    f = .integerOverflow ∧ Int.gcd x.toInt y.toInt = Nat.pow 2 63 := by
  constructor
  · intro hraises
    by_cases hd : Int.gcd x.toInt y.toInt = Nat.pow 2 63
    · exact ⟨hraises.unique (raises_gcd hd), hd⟩
    · obtain ⟨d, -, hreturns⟩ := returns_gcd hd
      exact absurd hraises hreturns.not_raises
  · rintro ⟨rfl, hd⟩
    exact raises_gcd hd

/-- For any two integers the call ends. It returns their greatest common divisor, which is zero for
zero and zero, or raises an overflow; and it does the latter just if that divisor is `2 ^ 63`. -/
theorem gcd_exact_or_overflow (x y : Int64) :
    ((∃ i, gcd.Returns [.integer x, .integer y] (.integer i)) ∨
      ∃ f, gcd.Raises [.integer x, .integer y] f) ∧
    (∀ i : Int64, gcd.Returns [.integer x, .integer y] (.integer i) ↔
      i.toInt = Int.gcd x.toInt y.toInt) ∧
    (∀ f, gcd.Raises [.integer x, .integer y] f ↔
      f = .integerOverflow ∧ Int.gcd x.toInt y.toInt = Nat.pow 2 63) ∧
    Fault.integerOverflow.message = utf8 "Integer overflow" := by
  refine ⟨?_, fun _ => returns_gcd_iff, fun _ => raises_gcd_iff, by decide⟩
  by_cases hd : Int.gcd x.toInt y.toInt = Nat.pow 2 63
  · exact Or.inr ⟨_, raises_gcd hd⟩
  · obtain ⟨d, -, hreturns⟩ := returns_gcd hd
    exact Or.inl ⟨d, hreturns⟩

end Call

end ClauseLisp.Builtin
