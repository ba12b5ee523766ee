import ClauseLisp.Proofs.Builtin.Results
import ClauseLisp.Proofs.Comparing.Sorters
import Mathlib.Data.List.Pairwise

/-! Sorting. Integers are sorted by value and strings bytewise. A list that mixes them, or holds
anything else beside another element, is refused in whatever order its elements are compared: as
long as only values of one kind are compared, nothing tells which kind comes first. -/

namespace ClauseLisp

namespace Bytes

theorem not_append_lt (s t : Bytes) : ¬ s ++ t < s := List.not_lt.mpr List.le_append_left

theorem differ_lt {a b : UInt8} (h : a.toNat < b.toNat) (common s t : Bytes) :
    common ++ a :: s < common ++ b :: t :=
  List.append_left_lt (List.cons_lt_cons_iff.mpr (Or.inl (UInt8.lt_iff_toNat_lt.mpr h)))

theorem cases_of_not_lt {s t : Bytes} (h : ¬ t < s) :
    (∃ r, t = s ++ r) ∨ ∃ common a b s' t', a.toNat < b.toNat ∧ s = common ++ a :: s' ∧
      t = common ++ b :: t' := by
  induction s generalizing t with
  | nil => exact Or.inl ⟨t, rfl⟩
  | cons c s ih =>
    cases t with
    | nil => exact absurd (List.nil_lt_cons c s) h
    | cons d t =>
      rw [List.cons_lt_cons_iff, not_or, not_and] at h
      by_cases hcd : c = d
      · subst hcd
        rcases ih (h.2 rfl) with ⟨r, rfl⟩ | ⟨common, a, b, s', t', hab, rfl, rfl⟩
        · exact Or.inl ⟨r, rfl⟩
        · exact Or.inr ⟨c :: common, a, b, s', t', hab, rfl, rfl⟩
      · have hne : c.toNat ≠ d.toNat := fun heq => hcd (UInt8.toNat_inj.mp heq)
        have hle : ¬ d.toNat < c.toNat := fun hlt => h.1 (UInt8.lt_iff_toNat_lt.mpr hlt)
        exact Or.inr ⟨[], c, d, s, t, by omega, rfl, rfl⟩

end Bytes

namespace Value

variable {x y z : Value}

section Order

inductive Comparable : Value → Value → Prop
  | integer (i j : Int64) : Comparable (integer i) (integer j)
  | string (s t : Bytes) : Comparable (string s) (string t)

/-- Integers are in order by value. Strings are in order by the first byte in which they differ, and
a string is in order with those that it is an initial part of. -/
inductive NotAfter : Value → Value → Prop
  | integer {i j : Int64} : i.toInt ≤ j.toInt → NotAfter (integer i) (integer j)
  | initial (s t : Bytes) : NotAfter (string s) (string (s ++ t))
  | differ (common s t : Bytes) {a b : UInt8} : a.toNat < b.toNat →
      NotAfter (string (common ++ a :: s)) (string (common ++ b :: t))

theorem Comparable.symm (h : Comparable x y) : Comparable y x := by
  cases h with
  | integer i j => exact .integer j i
  | string s t => exact .string t s

theorem Comparable.trans (hxy : Comparable x y) (hyz : Comparable y z) : Comparable x z := by
  cases hxy with
  | integer i j =>
    cases hyz with
    | integer _ k => exact .integer i k
  | string s t =>
    cases hyz with
    | string _ u => exact .string s u

theorem NotAfter.comparable (h : NotAfter x y) : Comparable x y := by
  cases h with
  | integer _ => exact .integer _ _
  | initial s t => exact .string _ _
  | differ common s t _ => exact .string _ _

theorem notAfter_integer {i j : Int64} :
    NotAfter (integer i) (integer j) ↔ i.toInt ≤ j.toInt := by
  constructor
  · intro h
    cases h with
    | integer hle => exact hle
  · exact .integer

theorem notAfter_string {s t : Bytes} : NotAfter (string s) (string t) ↔ ¬ t < s := by
  constructor
  · intro h
    cases h with
    | initial _ r => exact Bytes.not_append_lt s r
    | differ common s' t' hab => exact List.lt_asymm (Bytes.differ_lt hab common s' t')
  · intro h
    rcases Bytes.cases_of_not_lt h with ⟨r, rfl⟩ | ⟨common, a, b, s', t', hab, rfl, rfl⟩
    · exact .initial s r
    · exact .differ common s' t' hab

theorem NotAfter.trans (hxy : NotAfter x y) (hyz : NotAfter y z) : NotAfter x z := by
  cases hxy.comparable with
  | integer i j =>
    cases hyz.comparable with
    | integer _ k =>
      have hij : i.toInt ≤ j.toInt := notAfter_integer.mp hxy
      have hjk : j.toInt ≤ k.toInt := notAfter_integer.mp hyz
      exact .integer (Int.le_trans hij hjk)
  | string s t =>
    cases hyz.comparable with
    | string _ u =>
      have hst : s ≤ t := List.not_lt.mp (notAfter_string.mp hxy)
      have htu : t ≤ u := List.not_lt.mp (notAfter_string.mp hyz)
      exact notAfter_string.mpr (List.not_lt.mpr (List.le_trans hst htu))

theorem Comparable.order (h : Comparable x y) :
    ∃ o, x.order y = .ok o ∧ (o.isLE = true ↔ NotAfter x y) ∧ (o = .lt ↔ ¬ NotAfter y x) := by
  cases h with
  | integer i j =>
    refine ⟨compare i.toInt j.toInt, rfl, ?_, ?_⟩
    · rw [notAfter_integer, Int.isLE_compare]
    · rw [notAfter_integer, Int.compare_eq_lt, Int.not_le]
  | string s t =>
    refine ⟨Bytes.order s t, rfl, ?_, ?_⟩
    · rw [notAfter_string]
      unfold Bytes.order
      by_cases hst : s < t
      · have hts : ¬ t < s := List.lt_asymm hst
        simp [hst, hts]
      · by_cases hts : t < s <;> simp [hst, hts]
    · rw [notAfter_string, Decidable.not_not]
      unfold Bytes.order
      by_cases hst : s < t
      · simp [hst]
      · by_cases hts : t < s <;> simp [hst, hts]

theorem order_of_not_comparable (hx : x.kind ≠ .float) (hy : y.kind ≠ .float)
    (h : ¬ Comparable x y) : ∃ f, x.order y = .error f ∧ f.isTypeFault = true := by
  cases x with
  | integer i =>
    cases y with
    | integer j => exact absurd (.integer i j) h
    | float e => exact absurd rfl hy
    | _ => exact ⟨_, rfl, rfl⟩
  | string s =>
    cases y with
    | string t => exact absurd (.string s t) h
    | _ => exact ⟨_, rfl, rfl⟩
  | float d => exact absurd rfl hx
  | _ => exact ⟨_, rfl, rfl⟩

theorem Comparable.notAfter_of_not (h : Comparable x y) (hyx : ¬ NotAfter y x) : NotAfter x y := by
  obtain ⟨o, -, hle, hlt⟩ := h.order
  rw [← hle, hlt.mpr hyx]
  rfl

end Order

section Lists

variable {xs : List Value}

def Sortable (xs : List Value) : Prop :=
  xs.length ≤ 1 ∨ (∀ x ∈ xs, x.kind = .integer) ∨ ∀ x ∈ xs, x.kind = .string

instance (xs : List Value) : Decidable (Sortable xs) := inferInstanceAs (Decidable (_ ∨ _ ∨ _))

theorem comparable_of_integers (hx : x.kind = .integer) (hy : y.kind = .integer) :
    Comparable x y := by
  cases x <;> cases hx
  cases y <;> cases hy
  exact .integer _ _

theorem comparable_of_strings (hx : x.kind = .string) (hy : y.kind = .string) :
    Comparable x y := by
  cases x <;> cases hx
  cases y <;> cases hy
  exact .string _ _

theorem pairwise_comparable_of_sortable (h : Sortable xs) : xs.Pairwise Comparable := by
  rcases h with hlength | hintegers | hstrings
  · cases xs with
    | nil => exact .nil
    | cons x rest =>
      have hrest : rest = [] := by simpa using hlength
      rw [hrest]
      exact List.pairwise_singleton _ _
  · refine List.pairwise_of_forall_mem_list fun x hx y hy => ?_
    exact comparable_of_integers (hintegers x hx) (hintegers y hy)
  · refine List.pairwise_of_forall_mem_list fun x hx y hy => ?_
    exact comparable_of_strings (hstrings x hx) (hstrings y hy)

theorem sortable_of_pairwise_comparable (h : xs.Pairwise Comparable) : Sortable xs := by
  rcases xs with _ | ⟨x, _ | ⟨y, rest⟩⟩
  · exact Or.inl (Nat.zero_le 1)
  · exact Or.inl (Nat.le_refl 1)
  · -- Every element has the kind of the first one, which can be compared with the second.
    have hfirst : ∀ z ∈ y :: rest, Comparable x z := (List.pairwise_cons.mp h).1
    right
    cases hfirst y (by simp) with
    | integer i j =>
      left
      refine List.forall_mem_cons.mpr ⟨rfl, fun z hz => ?_⟩
      cases hfirst z hz with
      | integer _ k => rfl
    | string s t =>
      right
      refine List.forall_mem_cons.mpr ⟨rfl, fun z hz => ?_⟩
      cases hfirst z hz with
      | string _ u => rfl

theorem sortable_iff : Sortable xs ↔ xs.Pairwise Comparable :=
  ⟨pairwise_comparable_of_sortable, sortable_of_pairwise_comparable⟩

theorem sortable_of_sorted {ys : List Value} (hperm : ys.Perm xs) (h : ys.Pairwise NotAfter) :
    Sortable xs := by
  rw [sortable_iff, ← hperm.pairwise_iff Comparable.symm]
  exact h.imp NotAfter.comparable

end Lists

end Value

namespace Builtin

open Value (Comparable NotAfter Sortable sortable_of_sorted)

variable {x y : Value} {xs ys : List Value}

section Precedence

theorem precedes_of_comparable (h : Comparable x y) :
    ∃ b, precedes x y = .ok b ∧ (b = true ↔ ¬ NotAfter y x) := by
  obtain ⟨o, ho, -, hlt⟩ := h.order
  refine ⟨o = .lt, ?_, by rw [decide_eq_true_iff, hlt]⟩
  rw [precedes, ho]
  rfl

theorem precedes_of_not_comparable (hx : x.kind ≠ .float) (hy : y.kind ≠ .float)
    (h : ¬ Comparable x y) : ∃ f, precedes x y = .error f ∧ f.isTypeFault = true := by
  obtain ⟨f, hf, htype⟩ := Value.order_of_not_comparable hx hy h
  refine ⟨f, ?_, htype⟩
  rw [precedes, hf]
  rfl

theorem comparable_of_precedes {b : Bool} (hx : x.kind ≠ .float) (hy : y.kind ≠ .float)
    (h : precedes x y = .ok b) : Comparable x y := by
  by_contra hxy
  obtain ⟨f, hf, -⟩ := precedes_of_not_comparable hx hy hxy
  rw [h] at hf
  cases hf

theorem precedes_iff (h : Comparable x y) : precedes x y = .ok true ↔ ¬ NotAfter y x := by
  obtain ⟨b, hb, hiff⟩ := precedes_of_comparable h
  rw [← hiff, hb, Except.ok.injEq]

theorem not_precedes_iff (h : Comparable x y) : precedes x y = .ok false ↔ NotAfter y x := by
  obtain ⟨b, hb, hiff⟩ := precedes_of_comparable h
  rw [hb, Except.ok.injEq, ← Bool.not_eq_true, hiff, Classical.not_not]

end Precedence

section Groups

def precedesAt (xs : List Value) (i j : Fin xs.length) : Except Fault Bool :=
  precedes (xs.get i) (xs.get j)

/-- One group of all integers, one of all strings, and one of each other element. -/
def groupAt (xs : List Value) (i : Fin xs.length) : Int :=
  match xs.get i with
  | .integer _ => 0
  | .string _ => 1
  | _ => i + 2

theorem groupAt_of_comparable {i j : Fin xs.length} (h : Comparable (xs.get i) (xs.get j)) :
    groupAt xs i = groupAt xs j := by
  unfold groupAt
  generalize xs.get i = x at *
  generalize xs.get j = y at *
  cases h with
  | integer _ _ => rfl
  | string _ _ => rfl

theorem comparable_of_groupAt {i j : Fin xs.length} (h : groupAt xs i = groupAt xs j)
    (hij : i ≠ j) : Comparable (xs.get i) (xs.get j) := by
  have hplaces : (i : Int) ≠ j := fun hplace => hij (Fin.ext (Int.ofNat_inj.mp hplace))
  unfold groupAt at h
  generalize xs.get i = x at *
  generalize xs.get j = y at *
  cases x with
  | integer a =>
    cases y with
    | integer b => exact .integer a b
    | _ => simp at h <;> omega
  | string a =>
    cases y with
    | string b => exact .string a b
    | _ => simp at h <;> omega
  | _ => cases y <;> simp at h <;> omega

theorem ordersGroups_groupAt (hfloat : ∀ x ∈ xs, x.kind ≠ .float) :
    Comparing.OrdersGroups (groupAt xs) (precedesAt xs) := by
  have hcomparable {i j b} (h : precedesAt xs i j = .ok b) : Comparable (xs.get i) (xs.get j) :=
    comparable_of_precedes (hfloat _ (xs.get_mem i)) (hfloat _ (xs.get_mem j)) h
  constructor
  case same => exact fun h => groupAt_of_comparable (hcomparable h)
  case asymm =>
    intro i j h
    have hij := hcomparable h
    have hbefore : ¬ NotAfter (xs.get j) (xs.get i) := (precedes_iff hij).mp h
    exact (not_precedes_iff hij.symm).mpr (hij.notAfter_of_not hbefore)
  case between =>
    intro i k j hgroup h
    -- Two elements of one group can be compared, but one alone need not be comparable with itself.
    by_cases heq : i = j
    · exact Or.inr (heq ▸ h)
    · have hik := hcomparable h
      have hij : Comparable (xs.get i) (xs.get j) := comparable_of_groupAt hgroup heq
      have hjk : Comparable (xs.get j) (xs.get k) := hij.symm.trans hik
      by_contra hneither
      rw [not_or, precedesAt, precedesAt, precedes_iff hij, precedes_iff hjk, Classical.not_not,
        Classical.not_not] at hneither
      exact (precedes_iff hik).mp h (hneither.2.trans hneither.1)

end Groups

section Sorters

variable {p : Comparing (Fin xs.length) (List (Fin xs.length))}

/-- Whatever puts lists of this length in order sorts this one, if it is sortable, and is refused
otherwise. -/
theorem sorts_or_refuses (hp : p.Sorts) (hfloat : ∀ x ∈ xs, x.kind ≠ .float) :
    (∃ r, p.run (precedesAt xs) = .ok r ∧ (r.map xs.get).Perm xs ∧
      (r.map xs.get).Pairwise NotAfter) ∨
      ¬ Sortable xs ∧ ∃ f, p.run (precedesAt xs) = .error f ∧ f.isTypeFault = true := by
  have hgroups := ordersGroups_groupAt hfloat
  cases hrun : p.run (precedesAt xs) with
  | ok r =>
    left
    have hperm := hp.perm_of_run hrun hgroups
    have hnodup : r.Nodup := hperm.nodup_iff.mpr (List.nodup_finRange _)
    refine ⟨r, rfl, ?_, List.pairwise_map.mpr ?_⟩
    · have hvalues := hperm.map xs.get
      rwa [List.map_get_finRange] at hvalues
    · refine ((hp.sorted_of_run hrun hgroups).and hnodup).imp ?_
      rintro i j ⟨hji, hne⟩
      have hcomparable : Comparable (xs.get j) (xs.get i) :=
        comparable_of_groupAt (hp.same_group hrun hgroups j i) hne.symm
      exact Classical.not_not.mp (mt (precedes_iff hcomparable).mpr hji)
  | error f =>
    right
    obtain ⟨i, j, hij⟩ := Comparing.exists_error_of_run hrun
    have hnot : ¬ Comparable (xs.get i) (xs.get j) := by
      intro h
      obtain ⟨b, hb, -⟩ := precedes_of_comparable h
      rw [precedesAt, hb] at hij
      cases hij
    refine ⟨?_, f, rfl, ?_⟩
    · rintro (hlength | hintegers | hstrings)
      · obtain ⟨r, rfl⟩ := hp.idle hlength
        cases hrun
      · exact hnot (Value.comparable_of_integers (hintegers _ (xs.get_mem i))
          (hintegers _ (xs.get_mem j)))
      · exact hnot (Value.comparable_of_strings (hstrings _ (xs.get_mem i))
          (hstrings _ (xs.get_mem j)))
    · obtain ⟨f', hf', htype⟩ :=
        precedes_of_not_comparable (hfloat _ (xs.get_mem i)) (hfloat _ (xs.get_mem j)) hnot
      rw [precedesAt, hf'] at hij
      cases hij
      exact htype

theorem refuses_of_not_sortable (hp : p.Sorts) (hfloat : ∀ x ∈ xs, x.kind ≠ .float)
    (hmixed : ¬ Sortable xs) : ∃ f, p.run (precedesAt xs) = .error f ∧ f.isTypeFault = true := by
  rcases sorts_or_refuses hp hfloat with ⟨r, -, hperm, hinorder⟩ | ⟨-, hfault⟩
  · exact absurd (sortable_of_sorted hperm hinorder) hmixed
  · exact hfault

theorem sorted_eq_run (xs : List Value) :
    sorted xs = ((Comparing.sort (List.finRange xs.length)).run (precedesAt xs)).map
      (List.map xs.get) := by
  have hprecedes (i j : Fin xs.length) :
      precedes (xs.get i) (xs.get j) = (precedesAt xs i j).mapError id := by
    unfold precedesAt
    cases precedes (xs.get i) (xs.get j) <;> rfl
  have hrun := Comparing.run_rename hprecedes (List.map xs.get)
    (Comparing.sort (List.finRange xs.length))
  rw [Comparing.rename_sort, List.map_get_finRange, ← sorted] at hrun
  rw [hrun]
  cases (Comparing.sort (List.finRange xs.length)).run (precedesAt xs) <;> rfl

end Sorters

theorem onlyComputes_sort (xs : List Value) : sort.OnlyComputes [.list xs] := fun _ _ => rfl

theorem compute_sort (xs : List Value) :
    sort.compute [.list xs] = (sorted xs).map Value.list := by
  show (do return Value.list (← sorted xs)) = _
  cases sorted xs <;> rfl

theorem returns_sort (h : sorted xs = .ok ys) : sort.Returns [.list xs] (.list ys) := by
  rw [(onlyComputes_sort xs).returns_iff, compute_sort, h]
  rfl

theorem raises_sort {f : Fault} (h : sorted xs = .error f) : sort.Raises [.list xs] f := by
  rw [(onlyComputes_sort xs).raises_iff, compute_sort, h]
  rfl

/-- A list without floats is sorted if it has at most one element, or consists of integers or of
strings: the result has the same elements, each of them in order with all later ones. Any other
list is refused with a type fault, and would be by whatever else puts elements in order by comparing
them. -/
theorem sort_sorts_or_refuses (xs : List Value) (hxs : ∀ x ∈ xs, x.kind ≠ .float) :
    ((∃ v, sort.Returns [.list xs] v) ↔ Sortable xs) ∧
      (∀ v, sort.Returns [.list xs] v → ∃ ys, v = .list ys ∧ ys.Perm xs ∧
        ys.Pairwise fun x y => (∃ o, x.order y = .ok o ∧ o.isLE = true) ∧ x.NotAfter y) ∧
      (¬ Sortable xs → ∃ f, sort.Raises [.list xs] f ∧ f.isTypeFault = true) ∧
      ∀ p : Comparing (Fin xs.length) (List (Fin xs.length)), p.Sorts → ¬ Sortable xs →
        ∃ f, p.run (precedesAt xs) = .error f ∧ f.isTypeFault = true := by
  have hany := fun p (hp : Comparing.Sorts p) => refuses_of_not_sortable hp hxs
  rcases sorts_or_refuses (Comparing.sort_sorts xs.length) hxs with
    ⟨r, hr, hperm, hinorder⟩ | ⟨hmixed, f, hf, htype⟩
  · have hreturns : sort.Returns [.list xs] (.list (r.map xs.get)) := by
      refine returns_sort ?_
      rw [sorted_eq_run, hr]
      rfl
    have hsortable : Sortable xs := sortable_of_sorted hperm hinorder
    refine ⟨⟨fun _ => hsortable, fun _ => ⟨_, hreturns⟩⟩, ?_, fun h => absurd hsortable h, hany⟩
    intro v hv
    refine ⟨_, hv.unique hreturns, hperm, hinorder.imp fun {x y} hxy => ⟨?_, hxy⟩⟩
    obtain ⟨o, ho, hle, -⟩ := hxy.comparable.order
    exact ⟨o, ho, hle.mpr hxy⟩
  · have hraises : sort.Raises [.list xs] f := by
      refine raises_sort ?_
      rw [sorted_eq_run, hf]
      rfl
    have hnever : ∀ v, ¬ sort.Returns [.list xs] v := fun v hv => hv.not_raises hraises
    refine ⟨⟨?_, fun h => absurd h hmixed⟩, ?_, fun _ => ⟨f, hraises, htype⟩, hany⟩
    · rintro ⟨v, hv⟩
      exact absurd hv (hnever v)
    · intro v hv
      exact absurd hv (hnever v)

theorem sort_sorts_or_refuses_strings :
    let strings : List Value := [.string (utf8 "ab"), .string (utf8 "\u00e9"), .string [],
      .string (utf8 "a"), .string (utf8 "b")]
    let mixed : List Value := [.integer 2, .string (utf8 "a"), .integer 1]
    (∀ x ∈ strings, x.kind ≠ .float) ∧ (∀ x ∈ mixed, x.kind ≠ .float) ∧
      (∃ ys, sort.Returns [.list strings] (.list ys) ∧ ys.Perm strings ∧
        ys.Pairwise fun x y => (∃ o, x.order y = .ok o ∧ o.isLE = true) ∧ x.NotAfter y) ∧
      (∃ f, sort.Raises [.list mixed] f ∧ f.isTypeFault = true) ∧
      ∃ p : Comparing (Fin mixed.length) (List (Fin mixed.length)), p.Sorts ∧
        ∃ f, p.run (precedesAt mixed) = .error f ∧ f.isTypeFault = true := by
  intro strings mixed
  have hstrings : ∀ x ∈ strings, x.kind ≠ .float := by decide
  have hmixed : ∀ x ∈ mixed, x.kind ≠ .float := by decide
  obtain ⟨hiff, hsorts, -⟩ := sort_sorts_or_refuses strings hstrings
  obtain ⟨v, hv⟩ := hiff.mpr (by decide)
  obtain ⟨ys, rfl, hperm, hinorder⟩ := hsorts v hv
  obtain ⟨-, -, hrefuses, hany⟩ := sort_sorts_or_refuses mixed hmixed
  have hp := Comparing.sort_sorts mixed.length
  exact ⟨hstrings, hmixed, ⟨ys, hv, hperm, hinorder⟩, hrefuses (by decide), _, hp,
    hany _ hp (by decide)⟩

end Builtin
end ClauseLisp
