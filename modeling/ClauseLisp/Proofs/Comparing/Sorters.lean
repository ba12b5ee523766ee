import ClauseLisp.Proofs.Comparing.Sort

/-! Whatever sorts by comparisons. Elements fall into groups, and only those of the same group can be
compared. The answers of a run then fit an order of the groups as well as the reversed one, and no
list is in order for both unless there is a single group. -/

namespace ClauseLisp.Comparing

variable {α ε : Type}

section Groups

variable (group : α → Int) (lt : α → α → Bool)

def inGroups (x y : α) : Bool :=
  decide (group x < group y) || (decide (group x = group y) && lt x y)

variable {x y : α}

theorem inGroups_of_lt (h : group x < group y) : inGroups group lt x y = true := by
  simp [inGroups, h]

theorem inGroups_of_eq (h : group x = group y) : inGroups group lt x y = lt x y := by
  simp [inGroups, h]

theorem inGroups_of_gt (h : group y < group x) : inGroups group lt x y = false := by
  simp [inGroups, Int.not_lt.mpr (Int.le_of_lt h), (Int.ne_of_lt h).symm]

structure OrdersGroups (before : α → α → Except ε Bool) : Prop where
  same : ∀ {x y b}, before x y = .ok b → group x = group y
  asymm : ∀ {x y}, before x y = .ok true → before y x = .ok false
  between : ∀ {x z} (y), group x = group y → before x z = .ok true →
    before x y = .ok true ∨ before y z = .ok true

variable {group} {before : α → α → Except ε Bool} (h : OrdersGroups group before)

include h

theorem OrdersGroups.neg : OrdersGroups (-group ·) before where
  same hxy := congrArg Neg.neg (h.same hxy)
  asymm := h.asymm
  between y hxy := h.between y (Int.neg_inj.mp hxy)

theorem OrdersGroups.orders : Orders (inGroups group (answered before)) where
  asymm {x y} hxy := by
    rcases Int.lt_trichotomy (group x) (group y) with hlt | heq | hgt
    · exact inGroups_of_gt _ _ hlt
    · rw [inGroups_of_eq _ _ heq, answered_eq_true] at hxy
      rw [inGroups_of_eq _ _ heq.symm]
      exact agrees_answered before y x false (h.asymm hxy)
    · rw [inGroups_of_gt _ _ hgt] at hxy
      cases hxy
  between {x z} y hxz := by
    rcases Int.lt_trichotomy (group x) (group y) with hlt | heq | hgt
    · exact Or.inl (inGroups_of_lt _ _ hlt)
    · rcases Int.lt_trichotomy (group y) (group z) with hlt' | heq' | hgt'
      · exact Or.inr (inGroups_of_lt _ _ hlt')
      · rw [inGroups_of_eq _ _ (heq.trans heq'), answered_eq_true] at hxz
        rw [inGroups_of_eq _ _ heq, inGroups_of_eq _ _ heq', answered_eq_true, answered_eq_true]
        exact h.between y heq hxz
      · rw [inGroups_of_gt _ _ (heq ▸ hgt')] at hxz
        cases hxz
    · by_cases hyz : group y < group z
      · exact Or.inr (inGroups_of_lt _ _ hyz)
      · rw [inGroups_of_gt _ _ (by omega)] at hxz
        cases hxz

theorem OrdersGroups.agrees : Agrees before (inGroups group (answered before)) := by
  intro x y b hxy
  rw [inGroups_of_eq _ _ (h.same hxy)]
  exact agrees_answered before x y b hxy

end Groups

section Sorters

variable {n : Nat} {p : Comparing (Fin n) (List (Fin n))}

/-- Puts `n` elements in order whatever their order is, and asks nothing about a single one. -/
structure Sorts (p : Comparing (Fin n) (List (Fin n))) : Prop where
  idle : n ≤ 1 → ∃ r, p = done r
  perm : ∀ {lt}, Orders lt → (p.answer lt).Perm (List.finRange n)
  sorted : ∀ {lt}, Orders lt → (p.answer lt).Pairwise (NotBehind lt)

variable {before : Fin n → Fin n → Except ε Bool} {r : List (Fin n)} {group : Fin n → Int}
  {lt lt' : Fin n → Fin n → Bool} (hp : p.Sorts) (hrun : p.run before = .ok r)

include hp hrun

theorem Sorts.not_contrary (hlt : Orders lt) (hlt' : Orders lt') (hagree : Agrees before lt)
    (hagree' : Agrees before lt') {i j : Fin n} (hij : lt i j = true) : lt' j i = false := by
  have hr : p.answer lt = r := hagree.answer_eq hrun
  have hr' : p.answer lt' = r := hagree'.answer_eq hrun
  have hmem (k : Fin n) : k ∈ r := by
    rw [← hr, (hp.perm hlt).mem_iff]
    exact List.mem_finRange k
  have hne : i ≠ j := by
    rintro rfl
    rw [hlt.asymm hij] at hij
    cases hij
  have hsorted := List.pairwise_iff_get.mp (hr ▸ hp.sorted hlt)
  have hsorted' := List.pairwise_iff_get.mp (hr' ▸ hp.sorted hlt')
  obtain ⟨a, ha⟩ := List.get_of_mem (hmem i)
  obtain ⟨b, hb⟩ := List.get_of_mem (hmem j)
  -- Of two elements of the result, the one behind comes first in neither order.
  rcases Nat.lt_trichotomy a b with hab | hab | hab
  · exact ha ▸ hb ▸ hsorted' a b hab
  · exact absurd (ha.symm.trans ((congrArg r.get (Fin.ext hab)).trans hb)) hne
  · have hbehind : lt i j = false := ha ▸ hb ▸ hsorted b a hab
    rw [hij] at hbehind
    cases hbehind

variable (h : OrdersGroups group before)

include h

/-- No run tells which of two groups comes first, so none comes to an end with more than one. -/
theorem Sorts.same_group (i j : Fin n) : group i = group j := by
  -- The groups can come in either order: no answer is against it.
  have hcontrary {a b : Fin n} (hab : group a < group b) : False := by
    have hba : inGroups (-group ·) (answered before) b a = true :=
      inGroups_of_lt (-group ·) _ (Int.neg_lt_neg hab)
    rw [hp.not_contrary hrun h.orders h.neg.orders h.agrees h.neg.agrees
      (inGroups_of_lt _ _ hab)] at hba
    cases hba
  rcases Int.lt_trichotomy (group i) (group j) with hlt | heq | hgt
  · exact (hcontrary hlt).elim
  · exact heq
  · exact (hcontrary hgt).elim

theorem Sorts.perm_of_run : r.Perm (List.finRange n) := by
  rw [← h.agrees.answer_eq hrun]
  exact hp.perm h.orders

theorem Sorts.sorted_of_run : r.Pairwise fun i j => before j i ≠ .ok true := by
  have hsorted := hp.sorted h.orders
  rw [h.agrees.answer_eq hrun] at hsorted
  refine hsorted.imp fun {i j} hij hji => ?_
  rw [NotBehind, inGroups_of_eq _ _ (hp.same_group hrun h j i), answered_eq_true.mpr hji] at hij
  cases hij

end Sorters

theorem sort_sorts (n : Nat) : (sort (List.finRange n)).Sorts where
  idle h := ⟨_, sort_of_length_le_one (by rwa [List.length_finRange])⟩
  perm _ := sort_perm _ _
  sorted hlt := sort_sorted hlt _

end ClauseLisp.Comparing
