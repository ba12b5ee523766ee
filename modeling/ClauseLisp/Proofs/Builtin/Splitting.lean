import ClauseLisp.Proofs.Builtin.Results
import ClauseLisp.Proofs.Builtin.Words

/-! Taking and dropping a number of elements. Whatever the count, what is taken and what is dropped
make up the list: a count takes as many elements as it says, or all of them, and a negative one
takes them from the end. -/

namespace ClauseLisp.Builtin

variable {xs : List Value} {n : Int64}

theorem clampedCount_eq (xs : List Value) (n : Int64) :
    clampedCount xs n = min n.toInt.natAbs xs.length := by
  rw [clampedCount, toNat_magnitude]

theorem length_takeCount (xs : List Value) (n : Int64) :
    (takeCount xs n).length = min n.toInt.natAbs xs.length := by
  have hcount : clampedCount xs n ≤ xs.length := Nat.min_le_right _ _
  rw [← clampedCount_eq]
  unfold takeCount
  split
  · rw [List.length_take, Nat.min_eq_left hcount]
  · rw [List.length_drop]
    omega

theorem takeCount_append_dropCount (hn : 0 ≤ n) : takeCount xs n ++ dropCount xs n = xs := by
  rw [takeCount, dropCount, if_pos hn, if_pos hn, List.take_append_drop]

theorem dropCount_append_takeCount (hn : ¬ 0 ≤ n) : dropCount xs n ++ takeCount xs n = xs := by
  rw [takeCount, dropCount, if_neg hn, if_neg hn, List.take_append_drop]

theorem returns_take (xs : List Value) (n : Int64) :
    take.Returns [.list xs, .integer n] (.list (takeCount xs n)) :=
  fun _ _ => rfl

theorem returns_drop (xs : List Value) (n : Int64) :
    drop.Returns [.list xs, .integer n] (.list (dropCount xs n)) :=
  fun _ _ => rfl

theorem returns_append (xs ys : List Value) :
    append.Returns [.list xs, .list ys] (.list (xs ++ ys)) :=
  fun _ _ => rfl

/-- Taking and dropping never fail, whatever the count. As many elements are taken as the count
says, without its sign, or all of them if there are fewer. What is dropped stands behind what is
taken, and in front of it if the count is negative. -/
theorem take_drop_split (xs : List Value) (n : Int64) :
    ∃ taken dropped, take.Returns [.list xs, .integer n] (.list taken) ∧
      drop.Returns [.list xs, .integer n] (.list dropped) ∧
      taken.length = min n.toInt.natAbs xs.length ∧
      (0 ≤ n.toInt → append.Returns [.list taken, .list dropped] (.list xs)) ∧
      (n.toInt < 0 → append.Returns [.list dropped, .list taken] (.list xs)) := by
  have hsign : 0 ≤ n ↔ 0 ≤ n.toInt := Int64.le_iff_toInt_le
  refine ⟨_, _, returns_take xs n, returns_drop xs n, length_takeCount xs n, ?_, ?_⟩
  · intro hn
    have happend := returns_append (takeCount xs n) (dropCount xs n)
    rwa [takeCount_append_dropCount (hsign.mpr hn)] at happend
  · intro hn
    have hn : ¬ 0 ≤ n := fun h => Int.not_le.mpr hn (hsign.mp h)
    have happend := returns_append (dropCount xs n) (takeCount xs n)
    rwa [dropCount_append_takeCount hn] at happend

theorem take_drop_split_least :
    let xs : List Value := [.integer 1, .nil, .list []]
    ∃ taken dropped, take.Returns [.list xs, .integer Int64.minValue] (.list taken) ∧
      drop.Returns [.list xs, .integer Int64.minValue] (.list dropped) ∧ taken.length = 3 ∧
      append.Returns [.list dropped, .list taken] (.list xs) := by
  intro xs
  obtain ⟨taken, dropped, htake, hdrop, hlength, -, happend⟩ := take_drop_split xs Int64.minValue
  exact ⟨taken, dropped, htake, hdrop, hlength, happend (by decide)⟩

end ClauseLisp.Builtin
