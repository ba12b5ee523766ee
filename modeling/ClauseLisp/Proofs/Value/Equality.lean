import ClauseLisp.Value.Equality
import Mathlib.Data.List.Find
import Mathlib.Data.List.Nodup
import Mathlib.Data.List.Pairwise
import Mathlib.Data.List.Perm.Subperm

/-! Structural equality of values. The height that bounds the comparison is enough, so that equality
satisfies the equation one would write without a bound. A NaN equals nothing, and a map in which two
keys are equal hides an entry; on all other values equality is reflexive. A map that has nil under
a key cannot be told from one that lacks the key. On values without such maps equality is symmetric
and transitive. -/

namespace ClauseLisp.Value

section Height

variable {n : Nat}

theorem height_pos (v : Value) : 0 < v.height := by
  cases v <;> simp [height]

theorem heightAll_le_iff {xs : List Value} : heightAll xs ≤ n ↔ ∀ x ∈ xs, x.height ≤ n := by
  induction xs with
  | nil => simp [heightAll]
  | cons x xs ih => rw [heightAll, Nat.max_le, ih, List.forall_mem_cons]

theorem heightEntries_le_iff {es : List (Value × Value)} :
    heightEntries es ≤ n ↔ ∀ e ∈ es, e.1.height ≤ n ∧ e.2.height ≤ n := by
  induction es with
  | nil => simp [heightEntries]
  | cons e es ih => rw [heightEntries, Nat.max_le, Nat.max_le, ih, List.forall_mem_cons]

theorem height_lt_list {xs : List Value} {x : Value} (h : x ∈ xs) : x.height < (list xs).height :=
  Nat.lt_succ_of_le (heightAll_le_iff.mp (Nat.le_refl _) x h)

theorem height_lt_tuple {xs : List Value} {x : Value} (h : x ∈ xs) : x.height < (tuple xs).height :=
  Nat.lt_succ_of_le (heightAll_le_iff.mp (Nat.le_refl _) x h)

theorem height_lt_map {es : List (Value × Value)} {e : Value × Value} (h : e ∈ es) :
    e.1.height < (map es).height ∧ e.2.height < (map es).height :=
  (heightEntries_le_iff.mp (Nat.le_refl _) e h).imp Nat.lt_succ_of_le Nat.lt_succ_of_le

end Height

section Unbounded

variable {keyEq keyEq' eq eq' : Value → Value → Bool}

theorem pairwise_mono {xs ys : List Value}
    (h : ∀ a ∈ xs, ∀ b ∈ ys, eq a b = true → eq' a b = true) (hxy : pairwise eq xs ys = true) :
    pairwise eq' xs ys = true := by
  fun_induction pairwise eq xs ys with
  | case1 => rfl
  | case2 x xs y ys ih =>
    rw [Bool.and_eq_true] at hxy
    have hrest := ih (fun a ha b hb => h a (by simp [ha]) b (by simp [hb])) hxy.2
    rw [pairwise, h x (by simp) y (by simp) hxy.1, hrest, Bool.and_self]
  | case3 => exact Bool.noConfusion hxy

theorem lookupBy_congr {es : List (Value × Value)} {key : Value}
    (h : ∀ e ∈ es, eq e.1 key = eq' e.1 key) : lookupBy eq es key = lookupBy eq' es key := by
  unfold lookupBy
  rw [List.find?_congr h]

theorem lookupBy_cases (eq : Value → Value → Bool) (es : List (Value × Value)) (key : Value) :
    lookupBy eq es key = nil ∨ ∃ e ∈ es, eq e.1 key = true ∧ lookupBy eq es key = e.2 := by
  unfold lookupBy
  cases hfind : es.find? fun e => eq e.1 key with
  | none => exact Or.inl rfl
  | some e =>
    have hkey : eq e.1 key = true := by simpa using List.find?_some hfind
    exact Or.inr ⟨e, List.mem_of_find?_eq_some hfind, hkey, rfl⟩

inductive Part (keyEq : Value → Value → Bool) : Value → Value → Value → Value → Prop
  | list {xs ys : List Value} {a b : Value} : a ∈ xs → b ∈ ys →
      Part keyEq (list xs) (list ys) a b
  | tuple {xs ys : List Value} {a b : Value} : a ∈ xs → b ∈ ys →
      Part keyEq (tuple xs) (tuple ys) a b
  | map {xs ys : List (Value × Value)} {e : Value × Value} : xs.length = ys.length → e ∈ xs →
      Part keyEq (map xs) (map ys) (lookupBy keyEq ys e.1) e.2

theorem Part.low {x y a b : Value} (h : Part keyEq x y a b) :
    min a.height b.height < min x.height y.height := by
  cases h with
  | list ha hb =>
    have hx := height_lt_list ha
    have hy := height_lt_list hb
    omega
  | tuple ha hb =>
    have hx := height_lt_tuple ha
    have hy := height_lt_tuple hb
    omega
  | @map xs ys e hlength he =>
    have hx := height_lt_map he
    rcases lookupBy_cases keyEq ys e.1 with hnil | ⟨f, hf, -, hfound⟩
    · -- Nothing was found, but there are as many entries as on the other side.
      have hys : 0 < ys.length := hlength ▸ List.length_pos_of_mem he
      obtain ⟨f, hf⟩ := List.exists_mem_of_length_pos hys
      have hy := height_lt_map hf
      have hpos := height_pos f.1
      have hone : nil.height = 1 := rfl
      rw [hnil]
      omega
    · have hy := height_lt_map hf
      rw [hfound]
      omega

theorem part_induction {P : Value → Value → Prop} (keyEq : Value → Value → Bool)
    (step : ∀ x y, (∀ a b, Part keyEq x y a b → P a b) → P x y) (x y : Value) : P x y := by
  induction hn : min x.height y.height using Nat.strongRecOn generalizing x y with
  | ind n ih => exact step x y fun a b hab => ih _ (hn ▸ hab.low) a b rfl

theorem layerEqual_mono {x y : Value}
    (h : ∀ a b, Part keyEq x y a b → eq a b = true → eq' a b = true)
    (hxy : layerEqual keyEq eq x y = true) : layerEqual keyEq eq' x y = true := by
  cases x with
  | list xs =>
    cases y with
    | list ys => exact pairwise_mono (fun a ha b hb => h a b (.list ha hb)) hxy
    | _ => exact Bool.noConfusion hxy
  | tuple xs =>
    cases y with
    | tuple ys => exact pairwise_mono (fun a ha b hb => h a b (.tuple ha hb)) hxy
    | _ => exact Bool.noConfusion hxy
  | map xs =>
    cases y with
    | map ys =>
      rw [layerEqual, Bool.and_eq_true, beq_iff_eq, List.all_eq_true] at hxy ⊢
      obtain ⟨hlength, hall⟩ := hxy
      exact ⟨hlength, fun e he => h _ _ (.map hlength he) (hall e he)⟩
    | _ => exact Bool.noConfusion hxy
  | _ => cases y <;> exact hxy

theorem layerEqual_keys {x y : Value}
    (h : ∀ a b : Value, min a.height b.height < min x.height y.height → keyEq a b = keyEq' a b) :
    layerEqual keyEq eq x y = layerEqual keyEq' eq x y := by
  cases x with
  | map xs =>
    cases y with
    | map ys =>
      rw [layerEqual, layerEqual]
      congr 1
      rw [Bool.eq_iff_iff, List.all_eq_true, List.all_eq_true]
      refine forall₂_congr fun e he => ?_
      have hlookup : lookupBy keyEq ys e.1 = lookupBy keyEq' ys e.1 := by
        refine lookupBy_congr fun f hf => h f.1 e.1 ?_
        have hx := height_lt_map he
        have hy := height_lt_map hf
        omega
      rw [hlookup]
    | _ => rfl
  | _ => cases y <;> rfl

theorem layerEqual_congr {x y : Value}
    (h : ∀ a b : Value, min a.height b.height < min x.height y.height →
      keyEq a b = keyEq' a b ∧ eq a b = eq' a b) :
    layerEqual keyEq eq x y = layerEqual keyEq' eq' x y := by
  rw [layerEqual_keys fun a b hlt => (h a b hlt).1, Bool.eq_iff_iff]
  constructor
  · exact layerEqual_mono fun a b hab => ((h a b hab.low).2 ▸ ·)
  · exact layerEqual_mono fun a b hab => ((h a b hab.low).2 ▸ ·)

/-- What is said of two values in terms of `eq` depends on values that are lower on one side or the
other. -/
def Descends (step : (Value → Value → Bool) → Value → Value → Bool) : Prop :=
  ∀ (eq eq' : Value → Value → Bool) (x y : Value),
    (∀ a b : Value, min a.height b.height < min x.height y.height → eq a b = eq' a b) →
    step eq x y = step eq' x y

section Bounds

variable {step : (Value → Value → Bool) → Value → Value → Bool}
  {within : Nat → Value → Value → Bool} {x y : Value}

theorem Descends.within_eq (hstep : Descends step)
    (hwithin : ∀ n x y, within (n + 1) x y = step (within n) x y) {m n : Nat}
    (hm : min x.height y.height ≤ m) (hn : min x.height y.height ≤ n) :
    within m x y = within n x y := by
  have hx := height_pos x
  have hy := height_pos y
  induction m generalizing n x y with
  | zero => omega
  | succ m ih =>
    obtain ⟨n, rfl⟩ : ∃ k, n = k + 1 := ⟨n - 1, by omega⟩
    rw [hwithin, hwithin]
    apply hstep
    intro a b hlt
    exact ih (by omega) (by omega) (height_pos a) (height_pos b)

theorem Descends.unbounded_eq (hstep : Descends step)
    (hwithin : ∀ n x y, within (n + 1) x y = step (within n) x y) (x y : Value) :
    within x.height x y = step (fun a b => within a.height a b) x y := by
  have hx := height_pos x
  obtain ⟨n, hn⟩ : ∃ n, x.height = n + 1 := ⟨x.height - 1, by omega⟩
  rw [hn, hwithin]
  apply hstep
  intro a b hlt
  exact hstep.within_eq hwithin (by omega) (Nat.min_le_left _ _)

end Bounds

theorem descends_layerEqual : Descends fun eq => layerEqual eq eq :=
  fun _ _ _ _ h => layerEqual_congr fun a b hlt => ⟨h a b hlt, h a b hlt⟩

theorem equal_eq (x y : Value) : equal x y = layerEqual equal equal x y :=
  descends_layerEqual.unbounded_eq (fun _ _ _ => rfl) x y

end Unbounded

section Everywhere

mutual

/-- Whether a value and all values inside it have a property. Procedures are compared by their
identity and not looked into. -/
def everywhere (P : Value → Bool) : Value → Bool
  | list xs => P (list xs) && everywhereAll P xs
  | tuple xs => P (tuple xs) && everywhereAll P xs
  | map es => P (map es) && everywhereEntries P es
  | v => P v

def everywhereAll (P : Value → Bool) : List Value → Bool
  | [] => true
  | x :: xs => everywhere P x && everywhereAll P xs

def everywhereEntries (P : Value → Bool) : List (Value × Value) → Bool
  | [] => true
  | (k, v) :: es => everywhere P k && everywhere P v && everywhereEntries P es

end

variable {P : Value → Bool}

theorem everywhereAll_iff {xs : List Value} :
    everywhereAll P xs = true ↔ ∀ x ∈ xs, everywhere P x = true := by
  induction xs with
  | nil => simp [everywhereAll]
  | cons x xs ih => rw [everywhereAll, Bool.and_eq_true, ih, List.forall_mem_cons]

theorem everywhereEntries_iff {es : List (Value × Value)} :
    everywhereEntries P es = true ↔
      ∀ e ∈ es, everywhere P e.1 = true ∧ everywhere P e.2 = true := by
  induction es with
  | nil => simp [everywhereEntries]
  | cons e es ih =>
    rw [everywhereEntries, Bool.and_eq_true, Bool.and_eq_true, ih, List.forall_mem_cons]

theorem everywhere_list {xs : List Value} :
    everywhere P (list xs) = true ↔ P (list xs) = true ∧ ∀ x ∈ xs, everywhere P x = true := by
  rw [everywhere, Bool.and_eq_true, everywhereAll_iff]

theorem everywhere_tuple {xs : List Value} :
    everywhere P (tuple xs) = true ↔ P (tuple xs) = true ∧ ∀ x ∈ xs, everywhere P x = true := by
  rw [everywhere, Bool.and_eq_true, everywhereAll_iff]

theorem everywhere_map {es : List (Value × Value)} :
    everywhere P (map es) = true ↔
      P (map es) = true ∧ ∀ e ∈ es, everywhere P e.1 = true ∧ everywhere P e.2 = true := by
  rw [everywhere, Bool.and_eq_true, everywhereEntries_iff]

end Everywhere

/-- No NaN, and no two equal keys in a map. -/
def regular (v : Value) : Bool :=
  v.everywhere fun
    | float d => !d.isNaN
    | map es => decide (es.Pairwise fun e f => e.1.equal f.1 = false)
    | _ => true

def nilFree (v : Value) : Bool :=
  v.everywhere fun
    | map es => es.all fun e => e.2.kind != .nil
    | _ => true

theorem regular_map {es : List (Value × Value)} (h : (map es).regular = true) :
    (es.Pairwise fun e f => e.1.equal f.1 = false) ∧
      ∀ e ∈ es, e.1.regular = true ∧ e.2.regular = true :=
  (everywhere_map.mp h).imp_left of_decide_eq_true

theorem nilFree_map {es : List (Value × Value)} (h : (map es).nilFree = true) :
    (∀ e ∈ es, e.2.kind ≠ .nil) ∧ ∀ e ∈ es, e.1.nilFree = true ∧ e.2.nilFree = true := by
  refine (everywhere_map.mp h).imp_left fun hvalues e he => ?_
  simpa using List.all_eq_true.mp hvalues e he

inductive Leaf where
  | nil
  | boolean (b : Bool)
  | integer (i : Int64)
  | float (rank : Int)
  | string (s : Bytes)
  | tag (name : Bytes)
  | procedure (identity : Procedure.Identity)

def leaf? : Value → Option Leaf
  | nil => some .nil
  | boolean b => some (.boolean b)
  | integer i => some (.integer i)
  | float d => some (.float d.rank)
  | string s => some (.string s)
  | tag name => some (.tag name)
  | procedure p => some (.procedure p.identity)
  | _ => none

inductive Alike : Value → Value → Prop
  | leaf {x y : Value} {a : Leaf} : x.leaf? = some a → y.leaf? = some a → Alike x y
  | list {xs ys : List Value} : pairwise equal xs ys = true → Alike (list xs) (list ys)
  | tuple {xs ys : List Value} : pairwise equal xs ys = true → Alike (tuple xs) (tuple ys)
  | map {xs ys : List (Value × Value)} : xs.length = ys.length →
      (∀ e ∈ xs, equal (lookup ys e.1) e.2 = true) → Alike (map xs) (map ys)

theorem layerEqual_leaf {keyEq eq : Value → Value → Bool} {x y : Value} {a : Leaf}
    (hx : x.regular = true) (hy : y.regular = true) (ha : x.leaf? = some a) :
    layerEqual keyEq eq x y = true ↔ y.leaf? = some a := by
  rw [← ha, eq_comm (a := y.leaf?)]
  cases x with
  | list => simp [leaf?] at ha
  | tuple => simp [leaf?] at ha
  | map => simp [leaf?] at ha
  | float d =>
    cases y with
    | float e =>
      have hd : d.isNaN = false := by simpa [regular, everywhere] using hx
      have he : e.isNaN = false := by simpa [regular, everywhere] using hy
      simp [layerEqual, leaf?, Binary64.same, hd, he]
    | _ => simp [layerEqual, leaf?]
  | _ => cases y <;> simp [layerEqual, leaf?]

theorem equal_iff_alike {x y : Value} (hx : x.regular = true) (hy : y.regular = true) :
    x.equal y = true ↔ Alike x y := by
  rw [equal_eq]
  constructor
  · intro h
    cases ha : x.leaf? with
    | some a => exact .leaf ha ((layerEqual_leaf hx hy ha).mp h)
    | none =>
      cases x with
      | list xs =>
        cases y with
        | list ys => exact .list h
        | _ => exact Bool.noConfusion h
      | tuple xs =>
        cases y with
        | tuple ys => exact .tuple h
        | _ => exact Bool.noConfusion h
      | map xs =>
        cases y with
        | map ys =>
          rw [layerEqual, Bool.and_eq_true, beq_iff_eq, List.all_eq_true] at h
          exact .map h.1 h.2
        | _ => exact Bool.noConfusion h
      | _ => simp [leaf?] at ha
  · intro h
    cases h with
    | leaf ha hb => exact (layerEqual_leaf hx hy ha).mpr hb
    | list h => exact h
    | tuple h => exact h
    | map hlength h =>
      rw [layerEqual, Bool.and_eq_true, beq_iff_eq, List.all_eq_true]
      exact ⟨hlength, h⟩

section Lists

variable {eq : Value → Value → Bool} {xs ys zs : List Value}

theorem pairwise_self (h : ∀ a ∈ xs, eq a a = true) : pairwise eq xs xs = true := by
  induction xs with
  | nil => rfl
  | cons x xs ih =>
    rw [List.forall_mem_cons] at h
    rw [pairwise, h.1, ih h.2, Bool.and_self]

theorem pairwise_symm (h : ∀ a ∈ xs, ∀ b ∈ ys, eq a b = true → eq b a = true)
    (hxy : pairwise eq xs ys = true) : pairwise eq ys xs = true := by
  fun_induction pairwise eq xs ys with
  | case1 => rfl
  | case2 x xs y ys ih =>
    rw [Bool.and_eq_true] at hxy
    rw [pairwise, h x (by simp) y (by simp) hxy.1, Bool.true_and]
    exact ih (fun a ha b hb => h a (by simp [ha]) b (by simp [hb])) hxy.2
  | case3 => exact Bool.noConfusion hxy

theorem pairwise_trans
    (h : ∀ a ∈ xs, ∀ b ∈ ys, ∀ c ∈ zs, eq a b = true → eq b c = true → eq a c = true)
    (hxy : pairwise eq xs ys = true) (hyz : pairwise eq ys zs = true) :
    pairwise eq xs zs = true := by
  fun_induction pairwise eq xs ys generalizing zs with
  | case1 => exact hyz
  | case2 x xs y ys ih =>
    cases zs with
    | nil => exact Bool.noConfusion hyz
    | cons z zs =>
      rw [pairwise] at hyz
      rw [Bool.and_eq_true] at hxy hyz
      rw [pairwise, h x (by simp) y (by simp) z (by simp) hxy.1 hyz.1, Bool.true_and]
      exact ih (fun a ha b hb c hc => h a (by simp [ha]) b (by simp [hb]) c (by simp [hc]))
        hxy.2 hyz.2
  | case3 => exact Bool.noConfusion hxy

theorem exists_partner {α β : Type} {r : α → β → Prop} {as : List α} {bs : List β}
    (hnodup : as.Nodup) (hlength : as.length = bs.length) (hr : ∀ a ∈ as, ∃ b ∈ bs, r a b)
    (hinj : ∀ a ∈ as, ∀ a' ∈ as, ∀ b, r a b → r a' b → a = a') : ∀ b ∈ bs, ∃ a ∈ as, r a b := by
  intro b hb
  have hne : Nonempty β := ⟨b⟩
  choose! g hg using hr
  -- The partners are all different, so that they are as many as the elements of `bs`.
  have hgnodup : (as.map g).Nodup := by
    refine (List.nodup_map_iff_inj_on hnodup).mpr fun a ha a' ha' heq => ?_
    exact hinj a ha a' ha' (g a) (hg a ha).2 (heq ▸ (hg a' ha').2)
  have hsubset : as.map g ⊆ bs := by
    intro b hb
    obtain ⟨a, ha, rfl⟩ := List.mem_map.mp hb
    exact (hg a ha).1
  have hperm : (as.map g).Perm bs := by
    refine (hgnodup.subperm hsubset).perm_of_length_le ?_
    rw [List.length_map, hlength]
  obtain ⟨a, ha, rfl⟩ := List.mem_map.mp (hperm.mem_iff.mpr hb)
  exact ⟨a, ha, (hg a ha).2⟩

end Lists

theorem lookup_self {es : List (Value × Value)} {e : Value × Value}
    (hkeys : es.Pairwise fun e f => e.1.equal f.1 = false) (he : e ∈ es)
    (hself : e.1.equal e.1 = true) : lookup es e.1 = e.2 := by
  obtain ⟨before, after, rfl⟩ := List.append_of_mem he
  have hfind : (before ++ e :: after).find? (fun f => f.1.equal e.1) = some e := by
    refine List.find?_eq_some_iff_append.mpr ⟨hself, before, after, rfl, fun f hf => ?_⟩
    rw [(List.pairwise_append.mp hkeys).2.2 f hf e (by simp)]
    rfl
  unfold lookup lookupBy
  rw [hfind]
  rfl

theorem equal_self_of_height {n : Nat} {x : Value} (hn : x.height ≤ n) (hx : x.regular = true) :
    x.equal x = true := by
  induction n generalizing x with
  | zero => exact absurd hn (Nat.not_le_of_lt x.height_pos)
  | succ n ih =>
    rw [equal_iff_alike hx hx]
    cases x with
    | list xs =>
      have hlow := heightAll_le_iff.mp (Nat.le_of_succ_le_succ hn)
      exact .list (pairwise_self fun a ha => ih (hlow a ha) ((everywhere_list.mp hx).2 a ha))
    | tuple xs =>
      have hlow := heightAll_le_iff.mp (Nat.le_of_succ_le_succ hn)
      exact .tuple (pairwise_self fun a ha => ih (hlow a ha) ((everywhere_tuple.mp hx).2 a ha))
    | map es =>
      obtain ⟨hkeys, hparts⟩ := regular_map hx
      have hlow := heightEntries_le_iff.mp (Nat.le_of_succ_le_succ hn)
      refine .map rfl fun e he => ?_
      rw [lookup_self hkeys he (ih (hlow e he).1 (hparts e he).1)]
      exact ih (hlow e he).2 (hparts e he).2
    | _ => exact .leaf rfl rfl

theorem equal_self {x : Value} (hx : x.regular = true) : x.equal x = true :=
  equal_self_of_height (Nat.le_refl _) hx

structure Low (n : Nat) (x : Value) : Prop where
  regular : x.regular = true
  nilFree : x.nilFree = true
  height : x.height ≤ n

theorem Low.list {n : Nat} {xs : List Value} (h : Low (n + 1) (list xs)) : ∀ x ∈ xs, Low n x :=
  fun x hx => ⟨(everywhere_list.mp h.regular).2 x hx, (everywhere_list.mp h.nilFree).2 x hx,
    Nat.le_of_lt_succ (Nat.lt_of_lt_of_le (height_lt_list hx) h.height)⟩

theorem Low.tuple {n : Nat} {xs : List Value} (h : Low (n + 1) (tuple xs)) : ∀ x ∈ xs, Low n x :=
  fun x hx => ⟨(everywhere_tuple.mp h.regular).2 x hx, (everywhere_tuple.mp h.nilFree).2 x hx,
    Nat.le_of_lt_succ (Nat.lt_of_lt_of_le (height_lt_tuple hx) h.height)⟩

theorem Low.map {n : Nat} {es : List (Value × Value)} (h : Low (n + 1) (map es)) :
    ∀ e ∈ es, Low n e.1 ∧ Low n e.2 := by
  intro e he
  have hregular := (regular_map h.regular).2 e he
  have hnilFree := (nilFree_map h.nilFree).2 e he
  have hheight := heightEntries_le_iff.mp (Nat.le_of_succ_le_succ h.height) e he
  exact ⟨⟨hregular.1, hnilFree.1, hheight.1⟩, ⟨hregular.2, hnilFree.2, hheight.2⟩⟩

structure EquivalentWithin (n : Nat) : Prop where
  symm : ∀ {x y : Value}, Low n x → Low n y → x.equal y = true → y.equal x = true
  trans : ∀ {x y z : Value}, Low n x → Low n y → Low n z → x.equal y = true →
    y.equal z = true → x.equal z = true

theorem kind_of_equal_nil {v : Value} (h : nil.equal v = true) : v.kind = .nil := by
  rw [equal_eq] at h
  cases v with
  | nil => rfl
  | _ => exact Bool.noConfusion h

section Maps

variable {n : Nat} {xs ys zs es : List (Value × Value)}

theorem Low.eq_of_equal (heq : EquivalentWithin n) (h : Low (n + 1) (Value.map es))
    {e f : Value × Value} (he : e ∈ es) (hf : f ∈ es) (hef : e.1.equal f.1 = true) : e = f := by
  -- Keys of a regular map differ in the order of the entries, and so in both orders.
  let differ (e f : Value × Value) : Prop := e.1.equal f.1 = false ∧ f.1.equal e.1 = false
  have hsymm : Std.Symm differ := ⟨fun _ _ h => ⟨h.2, h.1⟩⟩
  have hdiffer : es.Pairwise differ := by
    refine (regular_map h.regular).1.imp_of_mem fun {a b} ha hb hab => ⟨hab, ?_⟩
    refine Bool.eq_false_iff.mpr fun hba => ?_
    rw [heq.symm (h.map b hb).1 (h.map a ha).1 hba] at hab
    exact Bool.noConfusion hab
  by_contra hne
  rw [(hdiffer.forall he hf hne).1] at hef
  exact Bool.noConfusion hef

theorem Low.nodup (h : Low (n + 1) (Value.map es)) : es.Nodup := by
  refine (regular_map h.regular).1.imp_of_mem fun {a b} ha _ hab heq => ?_
  rw [← heq, equal_self (h.map a ha).1.regular] at hab
  exact Bool.noConfusion hab

theorem forall_lookup_iff (heq : EquivalentWithin n) (hx : Low (n + 1) (map xs))
    (hy : Low (n + 1) (map ys)) :
    (∀ e ∈ xs, equal (lookup ys e.1) e.2 = true) ↔
      ∀ e ∈ xs, ∃ f ∈ ys, f.1.equal e.1 = true ∧ f.2.equal e.2 = true := by
  refine forall₂_congr fun e he => ⟨fun h => ?_, ?_⟩
  · rcases lookupBy_cases equal ys e.1 with hnil | ⟨f, hf, hkey, hfound⟩
    · -- A key that is missing is taken for one with nil, and no entry has that.
      have hkind : e.2.kind = .nil := kind_of_equal_nil (hnil ▸ h)
      exact absurd hkind ((nilFree_map hx.nilFree).1 e he)
    · exact ⟨f, hf, hkey, hfound ▸ h⟩
  · rintro ⟨f, hf, hkey, hvalue⟩
    have hlow := (hx.map e he).1
    -- The key that is found first is equal to the key of `f`, and so it is that of `f`.
    have hfirst : ∀ g ∈ ys, g.1.equal e.1 = true → g = f := by
      intro g hg hgkey
      have hback := heq.symm (hy.map f hf).1 hlow hkey
      exact hy.eq_of_equal heq hg hf (heq.trans (hy.map g hg).1 hlow (hy.map f hf).1 hgkey hback)
    cases hfind : ys.find? fun g => g.1.equal e.1 with
    | none => exact absurd hkey (by simpa using List.find?_eq_none.mp hfind f hf)
    | some g =>
      have hgf : g = f :=
        hfirst g (List.mem_of_find?_eq_some hfind) (by simpa using List.find?_some hfind)
      have hlookup : lookup ys e.1 = f.2 := by
        unfold lookup lookupBy
        rw [hfind, hgf]
        rfl
      rw [hlookup]
      exact hvalue

theorem lookup_symm (heq : EquivalentWithin n) (hx : Low (n + 1) (map xs))
    (hy : Low (n + 1) (map ys)) (hlength : xs.length = ys.length)
    (h : ∀ e ∈ xs, equal (lookup ys e.1) e.2 = true) :
    ∀ f ∈ ys, equal (lookup xs f.1) f.2 = true := by
  -- The keys of one map are different, so there are enough of them for the other.
  rw [forall_lookup_iff heq hx hy] at h
  rw [forall_lookup_iff heq hy hx]
  have hpartner : ∀ f ∈ ys, ∃ e ∈ xs, f ∈ ys ∧ f.1.equal e.1 = true ∧ f.2.equal e.2 = true := by
    refine exists_partner hx.nodup hlength ?_ ?_
    · intro e he
      obtain ⟨f, hf, hequal⟩ := h e he
      exact ⟨f, hf, hf, hequal⟩
    · rintro e he e' he' f ⟨hf, hkey, -⟩ ⟨-, hkey', -⟩
      have hback := heq.symm (hy.map f hf).1 (hx.map e he).1 hkey
      have hkeys := heq.trans (hx.map e he).1 (hy.map f hf).1 (hx.map e' he').1 hback hkey'
      exact hx.eq_of_equal heq he he' hkeys
  intro f hf
  obtain ⟨e, he, -, hkey, hvalue⟩ := hpartner f hf
  exact ⟨e, he, heq.symm (hy.map f hf).1 (hx.map e he).1 hkey,
    heq.symm (hy.map f hf).2 (hx.map e he).2 hvalue⟩

theorem lookup_trans (heq : EquivalentWithin n) (hx : Low (n + 1) (map xs))
    (hy : Low (n + 1) (map ys)) (hz : Low (n + 1) (map zs))
    (hxy : ∀ e ∈ xs, equal (lookup ys e.1) e.2 = true)
    (hyz : ∀ f ∈ ys, equal (lookup zs f.1) f.2 = true) :
    ∀ e ∈ xs, equal (lookup zs e.1) e.2 = true := by
  rw [forall_lookup_iff heq hx hy] at hxy
  rw [forall_lookup_iff heq hy hz] at hyz
  rw [forall_lookup_iff heq hx hz]
  intro e he
  obtain ⟨f, hf, hkey, hvalue⟩ := hxy e he
  obtain ⟨g, hg, hkey', hvalue'⟩ := hyz f hf
  exact ⟨g, hg, heq.trans (hz.map g hg).1 (hy.map f hf).1 (hx.map e he).1 hkey' hkey,
    heq.trans (hz.map g hg).2 (hy.map f hf).2 (hx.map e he).2 hvalue' hvalue⟩

end Maps

-- Both laws go up together, since the order of arguments changes below maps.
theorem equivalentWithin_succ {n : Nat} (heq : EquivalentWithin n) : EquivalentWithin (n + 1) := by
  constructor
  · intro x y hx hy h
    rw [equal_iff_alike hx.regular hy.regular] at h
    rw [equal_iff_alike hy.regular hx.regular]
    cases h with
    | leaf ha hb => exact .leaf hb ha
    | list h =>
      exact .list (pairwise_symm (fun a ha b hb => heq.symm (hx.list a ha) (hy.list b hb)) h)
    | tuple h =>
      exact .tuple (pairwise_symm (fun a ha b hb => heq.symm (hx.tuple a ha) (hy.tuple b hb)) h)
    | map hlength h => exact .map hlength.symm (lookup_symm heq hx hy hlength h)
  · intro x y z hx hy hz hxy hyz
    rw [equal_iff_alike hx.regular hy.regular] at hxy
    rw [equal_iff_alike hy.regular hz.regular] at hyz
    rw [equal_iff_alike hx.regular hz.regular]
    -- The second comparison is of the same kind as the first, since they share a value.
    cases hxy with
    | leaf ha hb =>
      cases hyz with
      | leaf hb' hc =>
        rw [hb] at hb'
        exact .leaf (ha.trans hb') hc
      | _ => exact absurd hb (Option.some_ne_none _).symm
    | list h =>
      cases hyz with
      | leaf hb => exact absurd hb (Option.some_ne_none _).symm
      | list h' =>
        exact .list (pairwise_trans (fun a ha b hb c hc =>
          heq.trans (hx.list a ha) (hy.list b hb) (hz.list c hc)) h h')
    | tuple h =>
      cases hyz with
      | leaf hb => exact absurd hb (Option.some_ne_none _).symm
      | tuple h' =>
        exact .tuple (pairwise_trans (fun a ha b hb c hc =>
          heq.trans (hx.tuple a ha) (hy.tuple b hb) (hz.tuple c hc)) h h')
    | map hlength h =>
      cases hyz with
      | leaf hb => exact absurd hb (Option.some_ne_none _).symm
      | map hlength' h' =>
        exact .map (hlength.trans hlength') (lookup_trans heq hx hy hz h h')

theorem equivalentWithin (n : Nat) : EquivalentWithin n := by
  induction n with
  | zero =>
    have hnone : ∀ x : Value, ¬ Low 0 x := fun x h => Nat.not_le_of_lt x.height_pos h.height
    exact ⟨fun hx => absurd hx (hnone _), fun hx => absurd hx (hnone _)⟩
  | succ n ih => exact equivalentWithin_succ ih

/-- Equality is reflexive on all values without NaN whose maps have different keys. Where moreover
no map has nil under a key, it is symmetric and transitive. -/
theorem equal_equivalence (x y z : Value) (hx : x.regular = true) (hy : y.regular = true)
    (hz : z.regular = true) :
    x.equal x = true ∧
      (x.nilFree = true → y.nilFree = true → x.equal y = true → y.equal x = true) ∧
      (x.nilFree = true → y.nilFree = true → z.nilFree = true →
        x.equal y = true → y.equal z = true → x.equal z = true) := by
  refine ⟨equal_self hx, ?_, ?_⟩
  · intro hx' hy'
    have heq := equivalentWithin (max x.height y.height)
    exact heq.symm ⟨hx, hx', by omega⟩ ⟨hy, hy', by omega⟩
  · intro hx' hy' hz'
    have heq := equivalentWithin (max x.height (max y.height z.height))
    exact heq.trans ⟨hx, hx', by omega⟩ ⟨hy, hy', by omega⟩ ⟨hz, hz', by omega⟩

theorem equal_equivalence_reordered :
    let key := map [(tag (utf8 "k"), integer 1), (tag (utf8 "l"), integer 2)]
    let key' := map [(tag (utf8 "l"), integer 2), (tag (utf8 "k"), integer 1)]
    let x := map [(key, list [integer 2]), (integer 3, map [])]
    let y := map [(integer 3, map []), (key, list [integer 2])]
    let z := map [(integer 3, map []), (key', list [integer 2])]
    x.regular = true ∧ y.regular = true ∧ z.regular = true ∧
      x.nilFree = true ∧ y.nilFree = true ∧ z.nilFree = true ∧
      x.equal x = true ∧ (x.equal y = true ∧ y.equal x = true) ∧
      y.equal z = true ∧ x.equal z = true := by
  intro key key' x y z
  have hx : x.regular = true := by decide
  have hy : y.regular = true := by decide
  have hz : z.regular = true := by decide
  have hx' : x.nilFree = true := by decide
  have hy' : y.nilFree = true := by decide
  have hz' : z.nilFree = true := by decide
  have hxy : x.equal y = true := by decide
  have hyz : y.equal z = true := by decide
  obtain ⟨hself, hsymm, htrans⟩ := equal_equivalence x y z hx hy hz
  exact ⟨hx, hy, hz, hx', hy', hz', hself, ⟨hxy, hsymm hx' hy' hxy⟩, hyz,
    htrans hx' hy' hz' hxy hyz⟩

/-- A key with nil is taken for a key that is missing, and so equality is neither symmetric nor
transitive. -/
theorem equal_not_equivalence_nil :
    let x := map [(tag (utf8 "a"), nil)]
    let y := map [(tag (utf8 "b"), integer 1)]
    let z := map [(tag (utf8 "b"), nil)]
    let u := map [(tag (utf8 "a"), integer 5)]
    x.regular = true ∧ y.regular = true ∧ z.regular = true ∧ u.regular = true ∧
      (x.equal y = true ∧ y.equal x = false) ∧
      x.equal z = true ∧ z.equal u = true ∧ x.equal u = false := by
  decide

end ClauseLisp.Value
