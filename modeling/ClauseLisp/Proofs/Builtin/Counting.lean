import ClauseLisp.Proofs.Builtin.Results
import Mathlib.Data.List.Basic

/-! Counting from one integer to another. A count stops as soon as it has counted its end, before it
takes another step. So it never leaves the integers between its start and its end, whichever of them
is the greater one and even if they are the least and the greatest word. -/

namespace ClauseLisp.Builtin

/-- A whole count that starts with `i`: each integer is the one that is counted after the integer
before it, and none is counted after the last one. -/
inductive Counts (upward : Bool) (stop : Int64) : Int64 → List Int64 → Prop
  | last {i : Int64} : nextCount? upward stop i = none → Counts upward stop i [i]
  | next {i j : Int64} {is : List Int64} : nextCount? upward stop i = some j →
      Counts upward stop j is → Counts upward stop i (i :: is)

theorem exists_counts (upward : Bool) (stop i : Int64) (counted : Array Value) :
    ∃ is, Counts upward stop i is ∧
      (countFrom upward stop i counted).toList = counted.toList ++ is.map .integer := by
  fun_induction countFrom upward stop i counted with
  | case1 i counted hlast => exact ⟨[i], .last hlast, by simp⟩
  | case2 i counted j hnext _ ih =>
    obtain ⟨is, hcounts, hlist⟩ := ih
    exact ⟨i :: is, .next hnext hcounts, by simp [hlist]⟩

theorem exists_counts_rangeOf (a b : Int64) :
    ∃ is, Counts (a ≤ b) b a is ∧ rangeOf a b = is.map .integer := by
  obtain ⟨is, hcounts, hlist⟩ := exists_counts (a ≤ b) b a #[]
  exact ⟨is, hcounts, hlist⟩

def along (upward : Bool) (i : Int) (k : Nat) : Int := if upward then i + k else i - k

theorem along_zero (upward : Bool) (i : Int) : along upward i 0 = i := by
  cases upward <;> simp [along]

theorem along_along (upward : Bool) (i : Int) (k n : Nat) :
    along upward (along upward i k) n = along upward i (k + n) := by
  cases upward <;> simp only [along, Bool.false_eq_true, if_false, if_true] <;> omega

theorem along_eq_self_iff {upward : Bool} {i : Int} {k : Nat} : along upward i k = i ↔ k = 0 := by
  cases upward <;> simp only [along, Bool.false_eq_true, if_false, if_true] <;> omega

section Steps

variable {upward : Bool} {stop i j : Int64} {is : List Int64} {n : Nat}

theorem nextCount?_eq_none_iff : nextCount? upward stop i = none ↔ i = stop := by
  unfold nextCount?
  split <;> simp_all

theorem toInt_nextCount? (hj : nextCount? upward stop i = some j)
    (hstop : stop.toInt = along upward i.toInt (n + 1)) : j.toInt = along upward i.toInt 1 := by
  have hlow := stop.le_toInt
  have hhigh := stop.toInt_lt
  have hilow := i.le_toInt
  have hihigh := i.toInt_lt
  have hone : (1 : Int64).toInt = 1 := rfl
  have hne : i ≠ stop := fun h => by simp [nextCount?_eq_none_iff.mpr h] at hj
  obtain rfl := Option.some.inj ((if_neg hne).symm.trans hj)
  -- The next integer is not past the end, which is a word, so that it is one as well.
  cases upward with
  | false =>
    simp only [along, Bool.false_eq_true, if_false, Int64.toInt_sub, hone] at hstop ⊢
    exact Int.bmod_eq_of_le (by omega) (by omega)
  | true =>
    simp only [along, if_true, Int64.toInt_add, hone] at hstop ⊢
    exact Int.bmod_eq_of_le (by omega) (by omega)

theorem Counts.toInt (h : Counts upward stop i is) (hstop : stop.toInt = along upward i.toInt n) :
    is.length = n + 1 ∧ ∀ (k : Nat) x, is[k]? = some x → x.toInt = along upward i.toInt k := by
  -- The induction is on the count, with `n` steps left.
  induction h generalizing n with
  | @last i hlast =>
    obtain rfl := nextCount?_eq_none_iff.mp hlast
    obtain rfl := along_eq_self_iff.mp hstop.symm
    refine ⟨rfl, fun k x hk => ?_⟩
    cases k with
    | zero =>
      obtain rfl := Option.some.inj hk
      rw [along_zero]
    | succ k => cases hk
  | @next i j is hnext _ ih =>
    cases n with
    | zero =>
      rw [along_zero] at hstop
      have hnone : nextCount? upward stop i = none :=
        nextCount?_eq_none_iff.mpr (Int64.toInt_inj.mp hstop).symm
      rw [hnone] at hnext
      cases hnext
    | succ n =>
      have hj := toInt_nextCount? hnext hstop
      have hrest : stop.toInt = along upward j.toInt n := by
        rw [hstop, hj, along_along, Nat.add_comm]
      obtain ⟨hlength, helements⟩ := ih hrest
      refine ⟨congrArg (· + 1) hlength, fun k x hk => ?_⟩
      cases k with
      | zero =>
        obtain rfl := Option.some.inj hk
        rw [along_zero]
      | succ k => rw [helements k x hk, hj, along_along, Nat.add_comm]

end Steps

section Range

variable {a b x : Int64} {is js : List Int64}

theorem along_of_le (a b : Int64) (i : Int) (k : Nat) :
    along (a ≤ b) i k = if a.toInt ≤ b.toInt then i + k else i - k := by
  simp [along, Int64.le_iff_toInt_le]

theorem toInt_eq_along (a b : Int64) :
    b.toInt = along (a ≤ b) a.toInt (b.toInt - a.toInt).natAbs := by
  rw [along_of_le]
  split <;> omega

def Between (a b x : Int64) : Prop :=
  a.toInt ≤ x.toInt ∧ x.toInt ≤ b.toInt ∨ b.toInt ≤ x.toInt ∧ x.toInt ≤ a.toInt

theorem Counts.between (h : Counts (a ≤ b) b a is) (hx : x ∈ is) : Between a b x := by
  obtain ⟨hlength, helements⟩ := h.toInt (toInt_eq_along a b)
  obtain ⟨k, hk⟩ := List.mem_iff_getElem?.mp hx
  have hbound : k < is.length := (List.getElem?_eq_some_iff.mp hk).1
  have hxk := helements k x hk
  rw [along_of_le] at hxk
  unfold Between
  split at hxk
  · left
    omega
  · right
    omega

theorem Counts.eq_reverse (his : Counts (a ≤ b) b a is) (hjs : Counts (b ≤ a) a b js) :
    js = is.reverse := by
  obtain ⟨hlength, helements⟩ := his.toInt (toInt_eq_along a b)
  obtain ⟨hlength', helements'⟩ := hjs.toInt (toInt_eq_along b a)
  -- Both counts are known element by element, from their ends.
  refine List.ext_getElem (by rw [List.length_reverse]; omega) fun k hk hk' => ?_
  have hfront := helements' k _ (List.getElem?_eq_getElem hk)
  have hback := helements (is.length - 1 - k) _ (List.getElem?_eq_getElem (by omega))
  rw [along_of_le] at hfront hback
  rw [List.getElem_reverse]
  apply Int64.toInt_inj.mp
  rw [hfront, hback]
  split <;> split <;> omega

theorem returns_range (a b : Int64) :
    range.Returns [.integer a, .integer b] (.list (rangeOf a b)) :=
  fun _ _ => rfl

theorem returns_reverse (xs : List Value) : reverse.Returns [.list xs] (.list xs.reverse) :=
  fun _ _ => rfl

/-- A range of any two integers ends, with the list of the integers of one count. None of them lies
outside the two. There are as many as the two are apart, and one more, and they go up or down by one.
The range the other way round is the reversed list. -/
theorem range_counts_between (a b : Int64) :
    ∃ is, Counts (a ≤ b) b a is ∧ (∀ x ∈ is, Between a b x) ∧
      range.Returns [.integer a, .integer b] (.list (is.map .integer)) ∧
      is.length = (b.toInt - a.toInt).natAbs + 1 ∧
      (∀ (k : Nat) x, is[k]? = some x →
        x.toInt = if a.toInt ≤ b.toInt then a.toInt + k else a.toInt - k) ∧
      ∃ reversed, reverse.Returns [.list (is.map .integer)] (.list reversed) ∧
        range.Returns [.integer b, .integer a] (.list reversed) := by
  obtain ⟨is, hcounts, hrange⟩ := exists_counts_rangeOf a b
  obtain ⟨js, hcounts', hrange'⟩ := exists_counts_rangeOf b a
  obtain ⟨hlength, helements⟩ := hcounts.toInt (toInt_eq_along a b)
  refine ⟨is, hcounts, fun x => hcounts.between, hrange ▸ returns_range a b, hlength, ?_,
    _, returns_reverse _, ?_⟩
  · intro k x hk
    rw [← along_of_le]
    exact helements k x hk
  · rw [← List.map_reverse, ← hcounts.eq_reverse hcounts', ← hrange']
    exact returns_range b a

theorem range_counts_between_least :
    let least := Int64.minValue
    let is := [least + 2, least + 1, least]
    Counts false least (least + 2) is ∧ (∀ x ∈ is, Between (least + 2) least x) ∧
      range.Returns [.integer (least + 2), .integer least] (.list (is.map .integer)) ∧
      range.Returns [.integer least, .integer (least + 2)] (.list (is.map .integer).reverse) := by
  intro least is
  obtain ⟨js, hcounts, hbetween, hrange, hlength, helements, reversed, hreverse, hback⟩ :=
    range_counts_between (least + 2) least
  obtain ⟨x, y, z, rfl⟩ : ∃ x y z, js = [x, y, z] := List.length_eq_three.mp hlength
  obtain rfl : x = least + 2 := Int64.toInt_inj.mp (helements 0 x rfl)
  obtain rfl : y = least + 1 := Int64.toInt_inj.mp (helements 1 y rfl)
  obtain rfl : z = least := Int64.toInt_inj.mp (helements 2 z rfl)
  have hsame := hreverse.unique (returns_reverse (is.map .integer))
  rw [hsame] at hback
  exact ⟨hcounts, hbetween, hrange, hback⟩

end Range

end ClauseLisp.Builtin
