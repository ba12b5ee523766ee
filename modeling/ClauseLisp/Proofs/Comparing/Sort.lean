import ClauseLisp.Comparing
import Mathlib.Data.List.Pairwise

/-! Sorting by comparisons. `Comparing.sort` keeps the elements whatever the answers are, puts them
in order if the answers come from an order, and does not look at them otherwise: elements that are
renamed are sorted in the same way. -/

namespace ClauseLisp.Comparing

variable {α α' β β' γ γ' ε ε' : Type}

@[simp] theorem done_bind (b : β) (f : β → Comparing α γ) : pure b >>= f = f b := rfl

section Answers

def answer (lt : α → α → Bool) : Comparing α β → β
  | done b => b
  | ask x y next => (next (lt x y)).answer lt

variable {lt : α → α → Bool}

@[simp] theorem answer_pure (b : β) : (pure b : Comparing α β).answer lt = b := rfl

@[simp] theorem answer_bind (p : Comparing α β) (f : β → Comparing α γ) :
    (p >>= f).answer lt = (f (p.answer lt)).answer lt := by
  show (p.bind f).answer lt = _
  induction p with
  | done b => rfl
  | ask x y next ih => exact ih (lt x y)

@[simp] theorem answer_before (x y : α) : (before x y).answer lt = lt x y := rfl

theorem answer_merge (backward : Bool) (x y : α) (xs ys : List α) :
    (merge backward (x :: xs) (y :: ys)).answer lt =
      if lt y x = backward then x :: (merge backward xs (y :: ys)).answer lt
      else y :: (merge backward (x :: xs) ys).answer lt := by
  rw [merge, answer_bind, answer_before]
  split
  · rw [answer_bind, answer_pure]
  · rw [answer_bind, answer_pure]

end Answers

section Permutations

variable (lt : α → α → Bool)

theorem merge_perm (backward : Bool) (xs ys : List α) :
    ((merge backward xs ys).answer lt).Perm (xs ++ ys) := by
  induction xs, ys using merge.induct with
  | case1 ys => simp [merge]
  | case2 xs => simp [merge]
  | case3 x xs y ys ihx ihy =>
    rw [answer_merge]
    split
    · exact ihx.cons x
    · exact (ihy.cons y).trans List.perm_middle.symm

theorem mergeFromEnd_perm (xs ys : List α) :
    ((mergeFromEnd xs ys).answer lt).Perm (xs ++ ys) := by
  rw [mergeFromEnd, answer_bind, answer_pure]
  have hmerge := merge_perm lt true xs.reverse ys.reverse
  have happend : (xs.reverse ++ ys.reverse).Perm (xs ++ ys) :=
    (List.reverse_perm xs).append (List.reverse_perm ys)
  exact (List.reverse_perm _).trans (hmerge.trans happend)

theorem insert_perm (x : α) (ys : List α) : ((insert x ys).answer lt).Perm (x :: ys) := by
  cases ys with
  | nil => exact .refl _
  | cons y ys =>
    rw [insert, answer_bind, answer_before]
    split
    · exact .refl _
    · exact (mergeFromEnd_perm lt (y :: ys) [x]).trans List.perm_append_comm

theorem insertAll_perm (sorted xs : List α) :
    ((insertAll sorted xs).answer lt).Perm (sorted ++ xs) := by
  induction xs generalizing sorted with
  | nil =>
    rw [List.append_nil]
    exact .refl _
  | cons x xs ih =>
    rw [insertAll, answer_bind]
    have hinsert : ((insert x sorted).answer lt ++ xs).Perm (x :: sorted ++ xs) :=
      (insert_perm lt x sorted).append_right xs
    exact (ih _).trans (hinsert.trans List.perm_middle.symm)

theorem sortRuns_perm (xs : List α) : ((sortRuns xs).answer lt).flatten.Perm xs := by
  induction xs using sortRuns.induct with
  | case1 =>
    rw [sortRuns]
    exact .refl _
  | case2 x xs ih =>
    rw [sortRuns]
    simp only [answer_bind, answer_pure, List.flatten_cons]
    have hfirst := insertAll_perm lt [] ((x :: xs).take runLength)
    rw [List.nil_append] at hfirst
    have hboth := hfirst.append ih
    rwa [List.take_append_drop] at hboth

theorem mergePairs_perm (runs : List (List α)) :
    ((mergePairs runs).answer lt).flatten.Perm runs.flatten := by
  induction runs using mergePairs.induct with
  | case1 xs ys runs ih =>
    rw [mergePairs]
    simp only [answer_bind, answer_pure, List.flatten_cons]
    rw [← List.append_assoc]
    exact (merge_perm lt false xs ys).append ih
  | case2 runs hruns =>
    rw [mergePairs]
    · exact .refl _
    · exact hruns

theorem mergeRuns_perm (length step : Nat) (runs : List (List α)) :
    ((mergeRuns length step runs).answer lt).Perm runs.flatten := by
  induction step, runs using mergeRuns.induct length with
  | case1 step runs hstep ih =>
    rw [mergeRuns, if_pos hstep, answer_bind]
    exact (ih _).trans (mergePairs_perm lt runs)
  | case2 step runs hstep =>
    rw [mergeRuns, if_neg hstep]
    exact .refl _

theorem sortByRuns_perm (xs : List α) : ((sortByRuns xs).answer lt).Perm xs := by
  rw [sortByRuns, answer_bind]
  exact (mergeRuns_perm lt _ _ _).trans (sortRuns_perm lt xs)

theorem sort_perm (xs : List α) : ((sort xs).answer lt).Perm xs := by
  have hhalves : ((sortByRuns (xs.take ((xs.length + 1) / 2))).answer lt ++
      (sortByRuns (xs.drop ((xs.length + 1) / 2))).answer lt).Perm xs := by
    have hboth := (sortByRuns_perm lt (xs.take ((xs.length + 1) / 2))).append
      (sortByRuns_perm lt (xs.drop ((xs.length + 1) / 2)))
    rwa [List.take_append_drop] at hboth
  rw [sort, answer_bind, answer_bind]
  split
  · exact (merge_perm lt false _ _).trans hhalves
  · exact (mergeFromEnd_perm lt _ _).trans hhalves

end Permutations

/-- Answers that come from an order in which different elements can have the same place. -/
structure Orders (lt : α → α → Bool) : Prop where
  asymm : ∀ {x y}, lt x y = true → lt y x = false
  between : ∀ {x z} (y), lt x z = true → lt x y = true ∨ lt y z = true

def NotBehind (lt : α → α → Bool) (x y : α) : Prop := lt y x = false

section Sortedness

variable {lt : α → α → Bool}

theorem Orders.trans (h : Orders lt) {x y z : α} (hxy : NotBehind lt x y)
    (hyz : NotBehind lt y z) : NotBehind lt x z := by
  unfold NotBehind at hxy hyz ⊢
  by_contra hzx
  rcases h.between y (eq_true_of_ne_false hzx) with hzy | hyx
  · rw [hyz] at hzy
    cases hzy
  · rw [hxy] at hyx
    cases hyx

theorem merge_pairwise {backward : Bool} {R : α → α → Prop}
    (htrans : ∀ {x y z}, R x y → R y z → R x z) (hfirst : ∀ {x y}, lt y x = backward → R x y)
    (hsecond : ∀ {x y}, lt y x ≠ backward → R y x) {xs ys : List α} (hxs : xs.Pairwise R)
    (hys : ys.Pairwise R) : ((merge backward xs ys).answer lt).Pairwise R := by
  induction xs, ys using merge.induct with
  | case1 ys => simpa [merge] using hys
  | case2 xs => simpa [merge] using hxs
  | case3 x xs y ys ihx ihy =>
    obtain ⟨hx, hxs'⟩ := List.pairwise_cons.mp hxs
    obtain ⟨hy, hys'⟩ := List.pairwise_cons.mp hys
    rw [answer_merge]
    -- The answer puts one first element in front of the other, and so of all that follow that one.
    split
    · rename_i hxy
      refine List.pairwise_cons.mpr ⟨fun z hz => ?_, ihx hxs' hys⟩
      rcases List.mem_append.mp ((merge_perm lt backward xs (y :: ys)).mem_iff.mp hz) with hz | hz
      · exact hx z hz
      · rcases List.mem_cons.mp hz with rfl | hz
        · exact hfirst hxy
        · exact htrans (hfirst hxy) (hy z hz)
    · rename_i hxy
      refine List.pairwise_cons.mpr ⟨fun z hz => ?_, ihy hxs hys'⟩
      rcases List.mem_append.mp ((merge_perm lt backward (x :: xs) ys).mem_iff.mp hz) with hz | hz
      · rcases List.mem_cons.mp hz with rfl | hz
        · exact hsecond hxy
        · exact htrans (hsecond hxy) (hx z hz)
      · exact hy z hz

theorem length_sortRuns (xs : List α) :
    ((sortRuns xs).answer lt).length = (xs.length + 6) / 7 := by
  induction xs using sortRuns.induct with
  | case1 => simp [sortRuns]
  | case2 x xs ih =>
    rw [sortRuns]
    simp only [answer_bind, answer_pure, List.length_cons, ih]
    rw [List.length_drop, List.length_cons, runLength]
    omega

theorem length_mergePairs (runs : List (List α)) :
    ((mergePairs runs).answer lt).length = (runs.length + 1) / 2 := by
  induction runs using mergePairs.induct with
  | case1 xs ys runs ih =>
    rw [mergePairs]
    simp only [answer_bind, answer_pure, List.length_cons, ih]
    omega
  | case2 runs hshort =>
    rw [mergePairs, answer_pure]
    · rcases runs with - | ⟨xs, - | ⟨ys, runs⟩⟩
      · simp
      · simp
      · exact (hshort xs ys runs rfl).elim
    · exact hshort

variable (h : Orders lt) {xs ys : List α} {runs : List (List α)}

include h

theorem merge_sorted (hxs : xs.Pairwise (NotBehind lt)) (hys : ys.Pairwise (NotBehind lt)) :
    ((merge false xs ys).answer lt).Pairwise (NotBehind lt) := by
  refine merge_pairwise (R := NotBehind lt) h.trans id (fun {x y} hyx => ?_) hxs hys
  exact h.asymm (eq_true_of_ne_false hyx)

theorem mergeFromEnd_sorted (hxs : xs.Pairwise (NotBehind lt))
    (hys : ys.Pairwise (NotBehind lt)) :
    ((mergeFromEnd xs ys).answer lt).Pairwise (NotBehind lt) := by
  rw [mergeFromEnd, answer_bind, answer_pure, List.pairwise_reverse]
  refine merge_pairwise (R := fun x y => NotBehind lt y x) (fun hxy hyz => h.trans hyz hxy)
    h.asymm (fun {x y} hyx => ?_)
    (List.pairwise_reverse.mpr hxs) (List.pairwise_reverse.mpr hys)
  exact eq_false_of_ne_true hyx

theorem insert_sorted {x : α} (hys : ys.Pairwise (NotBehind lt)) :
    ((insert x ys).answer lt).Pairwise (NotBehind lt) := by
  cases ys with
  | nil => exact List.pairwise_singleton _ _
  | cons y ys =>
    rw [insert, answer_bind, answer_before]
    split
    · rename_i hxy
      have hfirst : NotBehind lt x y := h.asymm hxy
      refine List.pairwise_cons.mpr ⟨fun z hz => ?_, hys⟩
      rcases List.mem_cons.mp hz with rfl | hz
      · exact hfirst
      · exact h.trans hfirst ((List.pairwise_cons.mp hys).1 z hz)
    · exact mergeFromEnd_sorted h hys (List.pairwise_singleton _ _)

theorem insertAll_sorted (hys : ys.Pairwise (NotBehind lt)) :
    ((insertAll ys xs).answer lt).Pairwise (NotBehind lt) := by
  induction xs generalizing ys with
  | nil => exact hys
  | cons x xs ih =>
    rw [insertAll, answer_bind]
    exact ih (insert_sorted h hys)

theorem sortRuns_sorted : ∀ run ∈ (sortRuns xs).answer lt, run.Pairwise (NotBehind lt) := by
  induction xs using sortRuns.induct with
  | case1 =>
    rw [sortRuns]
    exact List.forall_mem_nil _
  | case2 x xs ih =>
    rw [sortRuns]
    simp only [answer_bind, answer_pure]
    exact List.forall_mem_cons.mpr ⟨insertAll_sorted h .nil, ih⟩

theorem mergePairs_sorted (hruns : ∀ run ∈ runs, run.Pairwise (NotBehind lt)) :
    ∀ run ∈ (mergePairs runs).answer lt, run.Pairwise (NotBehind lt) := by
  induction runs using mergePairs.induct with
  | case1 xs ys runs ih =>
    simp only [List.forall_mem_cons] at hruns
    rw [mergePairs]
    simp only [answer_bind, answer_pure]
    exact List.forall_mem_cons.mpr ⟨merge_sorted h hruns.1 hruns.2.1, ih hruns.2.2⟩
  | case2 runs hshort =>
    rw [mergePairs]
    · exact hruns
    · exact hshort

-- There are never more runs than fill the list, so one that is as long as the list is alone.
theorem mergeRuns_sorted {length step : Nat} (hruns : ∀ run ∈ runs, run.Pairwise (NotBehind lt))
    (hstep : 0 < step) (hfill : runs.length * step < length + step) :
    ((mergeRuns length step runs).answer lt).Pairwise (NotBehind lt) := by
  induction step, runs using mergeRuns.induct length with
  | case1 step runs hgo ih =>
    rw [mergeRuns, if_pos hgo, answer_bind]
    refine ih _ (mergePairs_sorted h hruns) (by omega) ?_
    have hhalf : (runs.length + 1) / 2 * 2 ≤ runs.length + 1 := Nat.div_mul_le_self _ _
    calc ((mergePairs runs).answer lt).length * (2 * step)
        = (runs.length + 1) / 2 * 2 * step := by rw [length_mergePairs, Nat.mul_assoc]
      _ ≤ (runs.length + 1) * step := Nat.mul_le_mul_right step hhalf
      _ < length + 2 * step := by rw [Nat.succ_mul]; omega
  | case2 step runs hstop =>
    rw [mergeRuns, if_neg hstop, answer_pure]
    have hone : runs.length < 2 := by
      refine Nat.lt_of_mul_lt_mul_right (a := step) (Nat.lt_of_lt_of_le hfill ?_)
      omega
    rcases runs with - | ⟨run, - | ⟨run', runs⟩⟩
    · exact .nil
    · simpa using hruns run (List.mem_singleton_self run)
    · simp only [List.length_cons] at hone
      omega

theorem sortByRuns_sorted (xs : List α) :
    ((sortByRuns xs).answer lt).Pairwise (NotBehind lt) := by
  rw [sortByRuns, answer_bind]
  refine mergeRuns_sorted h (sortRuns_sorted h) (by decide) ?_
  rw [length_sortRuns, runLength]
  omega

theorem sort_sorted (xs : List α) : ((sort xs).answer lt).Pairwise (NotBehind lt) := by
  rw [sort]
  simp only [answer_bind]
  split
  · exact merge_sorted h (sortByRuns_sorted h _) (sortByRuns_sorted h _)
  · exact mergeFromEnd_sorted h (sortByRuns_sorted h _) (sortByRuns_sorted h _)

end Sortedness

section Runs

def Agrees (before : α → α → Except ε Bool) (lt : α → α → Bool) : Prop :=
  ∀ x y b, before x y = .ok b → lt x y = b

variable {before : α → α → Except ε Bool} {lt : α → α → Bool} {p : Comparing α β}

theorem Agrees.answer_eq {r : β} (hagree : Agrees before lt) (h : p.run before = .ok r) :
    p.answer lt = r := by
  induction p with
  | done b =>
    cases h
    rfl
  | ask x y next ih =>
    rw [run] at h
    cases hxy : before x y with
    | error e => simp [hxy] at h
    | ok b =>
      rw [hxy] at h
      rw [answer, hagree x y b hxy]
      exact ih b h

theorem exists_error_of_run {e : ε} (h : p.run before = .error e) :
    ∃ x y, before x y = .error e := by
  induction p with
  | done b => cases h
  | ask x y next ih =>
    rw [run] at h
    cases hxy : before x y with
    | error e' =>
      rw [hxy] at h
      cases h
      exact ⟨x, y, hxy⟩
    | ok b =>
      rw [hxy] at h
      exact ih b h

def answered (before : α → α → Except ε Bool) (x y : α) : Bool :=
  (before x y).toOption = some true

theorem agrees_answered (before : α → α → Except ε Bool) : Agrees before (answered before) := by
  intro x y b h
  rw [answered, h]
  cases b <;> rfl

theorem answered_eq_true {x y : α} : answered before x y = true ↔ before x y = .ok true := by
  constructor
  · intro h
    cases hxy : before x y with
    | error e => simp [answered, hxy, Except.toOption] at h
    | ok b => rw [← agrees_answered before x y b hxy, h]
  · exact agrees_answered before x y true

theorem run_sort_perm {xs ys : List α} (h : (sort xs).run before = .ok ys) : ys.Perm xs := by
  rw [← (agrees_answered before).answer_eq h]
  exact sort_perm _ xs

end Runs

section Renaming

def rename (f : α → α') (g : β → β') : Comparing α β → Comparing α' β'
  | done b => done (g b)
  | ask x y next => ask (f x) (f y) fun answer => (next answer).rename f g

variable {f : α → α'}

theorem rename_bind {g : β → β'} {h : γ → γ'} {k : β → Comparing α γ} {k' : β' → Comparing α' γ'}
    (p : Comparing α β) (hk : ∀ b, (k b).rename f h = k' (g b)) :
    (p >>= k).rename f h = p.rename f g >>= k' := by
  show (p.bind k).rename f h = (p.rename f g).bind k'
  induction p with
  | done b => exact hk b
  | ask x y next ih =>
    rw [bind, rename, rename, bind]
    congr 1
    funext answer
    exact ih answer

theorem run_rename {before : α → α → Except ε Bool} {before' : α' → α' → Except ε' Bool}
    {k : ε → ε'} (h : ∀ x y, before' (f x) (f y) = (before x y).mapError k) (g : β → β')
    (p : Comparing α β) : (p.rename f g).run before' = ((p.run before).map g).mapError k := by
  induction p with
  | done b => rfl
  | ask x y next ih =>
    rw [rename, run, run, h]
    cases before x y with
    | error e => rfl
    | ok b => exact ih b

theorem rename_merge (backward : Bool) (xs ys : List α) :
    (merge backward xs ys).rename f (List.map f) = merge backward (xs.map f) (ys.map f) := by
  induction xs, ys using merge.induct with
  | case1 ys =>
    rw [List.map_nil, merge, merge]
    rfl
  | case2 xs hxs =>
    rw [List.map_nil, merge, merge]
    · rfl
    · simpa using hxs
    · exact hxs
  | case3 x xs y ys ihx ihy =>
    rw [List.map_cons, List.map_cons, merge, merge]
    refine rename_bind (g := id) (Comparing.before y x) fun answer => ?_
    rw [id]
    split
    · rw [← List.map_cons, ← ihx]
      exact rename_bind _ fun _ => rfl
    · rw [← List.map_cons, ← ihy]
      exact rename_bind _ fun _ => rfl

theorem rename_mergeFromEnd (xs ys : List α) :
    (mergeFromEnd xs ys).rename f (List.map f) = mergeFromEnd (xs.map f) (ys.map f) := by
  rw [mergeFromEnd, mergeFromEnd, ← List.map_reverse, ← List.map_reverse, ← rename_merge]
  exact rename_bind _ fun zs => congrArg done List.map_reverse

theorem rename_insert (x : α) (ys : List α) :
    (insert x ys).rename f (List.map f) = insert (f x) (ys.map f) := by
  cases ys with
  | nil => rfl
  | cons y ys =>
    rw [List.map_cons, insert, insert]
    refine rename_bind (g := id) (Comparing.before x y) fun answer => ?_
    rw [id]
    split
    · rfl
    · exact rename_mergeFromEnd (y :: ys) [x]

theorem rename_insertAll (sorted xs : List α) :
    (insertAll sorted xs).rename f (List.map f) = insertAll (sorted.map f) (xs.map f) := by
  induction xs generalizing sorted with
  | nil => rfl
  | cons x xs ih =>
    rw [List.map_cons, insertAll, insertAll, ← rename_insert]
    exact rename_bind _ ih

theorem rename_sortRuns (xs : List α) :
    (sortRuns xs).rename f (List.map (List.map f)) = sortRuns (xs.map f) := by
  induction xs using sortRuns.induct with
  | case1 =>
    rw [List.map_nil, sortRuns, sortRuns]
    rfl
  | case2 x xs ih =>
    rw [List.map_cons, sortRuns, sortRuns, ← List.map_cons, ← List.map_take, ← List.map_drop, ← ih]
    have hfirst := rename_insertAll (f := f) [] ((x :: xs).take runLength)
    rw [List.map_nil] at hfirst
    rw [← hfirst]
    refine rename_bind _ fun first => ?_
    exact rename_bind _ fun _ => rfl

theorem rename_mergePairs (runs : List (List α)) :
    (mergePairs runs).rename f (List.map (List.map f)) = mergePairs (runs.map (List.map f)) := by
  induction runs using mergePairs.induct with
  | case1 xs ys runs ih =>
    rw [List.map_cons, List.map_cons, mergePairs, mergePairs, ← rename_merge, ← ih]
    refine rename_bind _ fun merged => ?_
    exact rename_bind _ fun _ => rfl
  | case2 runs hshort =>
    rcases runs with - | ⟨xs, - | ⟨ys, runs⟩⟩
    · rfl
    · rfl
    · exact (hshort xs ys runs rfl).elim

theorem rename_mergeRuns (length step : Nat) (runs : List (List α)) :
    (mergeRuns length step runs).rename f (List.map f) =
      mergeRuns length step (runs.map (List.map f)) := by
  induction step, runs using mergeRuns.induct length with
  | case1 step runs hgo ih =>
    rw [mergeRuns, if_pos hgo, mergeRuns, if_pos hgo, ← rename_mergePairs]
    exact rename_bind _ ih
  | case2 step runs hstop =>
    rw [mergeRuns, if_neg hstop, mergeRuns, if_neg hstop]
    exact congrArg done List.map_flatten

theorem rename_sortByRuns (xs : List α) :
    (sortByRuns xs).rename f (List.map f) = sortByRuns (xs.map f) := by
  rw [sortByRuns, sortByRuns, List.length_map, ← rename_sortRuns]
  exact rename_bind _ fun runs => rename_mergeRuns xs.length runLength runs

theorem rename_sort (xs : List α) : (sort xs).rename f (List.map f) = sort (xs.map f) := by
  rw [sort, sort, List.length_map, ← List.map_take, ← List.map_drop, ← rename_sortByRuns,
    ← rename_sortByRuns]
  refine rename_bind _ fun left => ?_
  refine rename_bind _ fun right => ?_
  split
  · exact rename_merge false left right
  · exact rename_mergeFromEnd left right

end Renaming

theorem sort_of_length_le_one {xs : List α} (h : xs.length ≤ 1) : sort xs = pure xs := by
  rcases xs with - | ⟨x, - | ⟨y, xs⟩⟩
  · simp [sort, sortByRuns, sortRuns, mergeRuns, merge]
  · simp [sort, sortByRuns, sortRuns, mergeRuns, runLength, insertAll, insert, mergeFromEnd, merge]
  · simp at h

end ClauseLisp.Comparing
