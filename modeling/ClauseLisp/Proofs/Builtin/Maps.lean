import ClauseLisp.Proofs.Builtin.Results
import ClauseLisp.Proofs.Value.Equality

/-! Maps as finite maps in the order in which their keys were added. Values without floats and maps
inside them are compared by an equivalence relation, so that a map with such keys has each key once,
and what is found under a key is what was put there last. -/

namespace ClauseLisp

namespace Value

/-- No float and no map, at any depth. -/
def plain (v : Value) : Bool :=
  v.everywhere fun
    | float _ => false
    | map _ => false
    | _ => true

theorem everywhere_mono_of_height {P Q : Value → Bool} (hPQ : ∀ v, P v = true → Q v = true)
    {n : Nat} {v : Value} (hn : v.height ≤ n) (h : v.everywhere P = true) :
    v.everywhere Q = true := by
  induction n generalizing v with
  | zero => exact absurd hn (Nat.not_le_of_lt v.height_pos)
  | succ n ih =>
    cases v with
    | list xs =>
      obtain ⟨hself, hxs⟩ := everywhere_list.mp h
      have hlow := heightAll_le_iff.mp (Nat.le_of_succ_le_succ hn)
      exact everywhere_list.mpr ⟨hPQ _ hself, fun x hx => ih (hlow x hx) (hxs x hx)⟩
    | tuple xs =>
      obtain ⟨hself, hxs⟩ := everywhere_tuple.mp h
      have hlow := heightAll_le_iff.mp (Nat.le_of_succ_le_succ hn)
      exact everywhere_tuple.mpr ⟨hPQ _ hself, fun x hx => ih (hlow x hx) (hxs x hx)⟩
    | map es =>
      obtain ⟨hself, hes⟩ := everywhere_map.mp h
      have hlow := heightEntries_le_iff.mp (Nat.le_of_succ_le_succ hn)
      refine everywhere_map.mpr ⟨hPQ _ hself, fun e he => ⟨?_, ?_⟩⟩
      · exact ih (hlow e he).1 (hes e he).1
      · exact ih (hlow e he).2 (hes e he).2
    | _ => exact hPQ _ h

theorem everywhere_mono {P Q : Value → Bool} (hPQ : ∀ v, P v = true → Q v = true) {v : Value}
    (h : v.everywhere P = true) : v.everywhere Q = true :=
  everywhere_mono_of_height hPQ (Nat.le_refl _) h

variable {x y z : Value}

theorem regular_of_plain (hx : x.plain = true) : x.regular = true := by
  refine everywhere_mono (fun v hv => ?_) hx
  cases v with
  | float _ => exact Bool.noConfusion hv
  | map _ => exact Bool.noConfusion hv
  | _ => rfl

theorem nilFree_of_plain (hx : x.plain = true) : x.nilFree = true := by
  refine everywhere_mono (fun v hv => ?_) hx
  cases v with
  | map _ => exact Bool.noConfusion hv
  | _ => rfl

theorem low_of_plain {n : Nat} (hx : x.plain = true) (hn : x.height ≤ n) : Low n x :=
  ⟨regular_of_plain hx, nilFree_of_plain hx, hn⟩

theorem equal_self_of_plain (hx : x.plain = true) : x.equal x = true :=
  equal_self (regular_of_plain hx)

theorem equal_comm_of_plain (hx : x.plain = true) (hy : y.plain = true) :
    x.equal y = y.equal x := by
  have hequal := equivalentWithin (max x.height y.height)
  have hx := low_of_plain hx (Nat.le_max_left x.height y.height)
  have hy := low_of_plain hy (Nat.le_max_right x.height y.height)
  exact Bool.eq_iff_iff.mpr ⟨hequal.symm hx hy, hequal.symm hy hx⟩

theorem equal_trans_of_plain (hx : x.plain = true) (hy : y.plain = true) (hz : z.plain = true)
    (hxy : x.equal y = true) (hyz : y.equal z = true) : x.equal z = true := by
  have hequal := equivalentWithin (max x.height (max y.height z.height))
  have hx := low_of_plain hx (by omega : x.height ≤ max x.height (max y.height z.height))
  have hy := low_of_plain hy (by omega : y.height ≤ max x.height (max y.height z.height))
  have hz := low_of_plain hz (by omega : z.height ≤ max x.height (max y.height z.height))
  exact hequal.trans hx hy hz hxy hyz

theorem equal_eq_false_of_plain (hx : x.plain = true) (hy : y.plain = true) (hz : z.plain = true)
    (hxy : x.equal y = true) (hyz : y.equal z = false) : x.equal z = false := by
  refine Bool.eq_false_iff.mpr fun hxz => ?_
  rw [equal_comm_of_plain hx hy] at hxy
  rw [equal_trans_of_plain hy hx hz hxy hxz] at hyz
  exact Bool.noConfusion hyz

end Value

namespace Builtin

variable {es : List (Value × Value)} {k k' v : Value}

section Entries

abbrev keysOf (es : List (Value × Value)) : List Value := es.map (·.1)

theorem keysOf_putEntry_of_mem (h : ∃ a ∈ keysOf es, a.equal k = true) :
    keysOf (putEntry es k v) = keysOf es := by
  induction es with
  | nil => exact absurd h (by simp)
  | cons e es ih =>
    rw [putEntry]
    by_cases hfirst : e.1.equal k = true
    · rw [if_pos hfirst]
      rfl
    · rw [if_neg hfirst]
      have hrest : ∃ a ∈ keysOf es, a.equal k = true := by simpa [hfirst] using h
      exact congrArg (e.1 :: ·) (ih hrest)

theorem putEntry_of_not_mem (h : ∀ a ∈ keysOf es, a.equal k = false) :
    putEntry es k v = es ++ [(k, v)] := by
  induction es with
  | nil => rfl
  | cons e es ih =>
    obtain ⟨hfirst, hrest⟩ := List.forall_mem_cons.mp h
    rw [putEntry, if_neg (by simp [hfirst]), ih hrest]
    rfl

theorem keysOf_putEntry_of_not_mem (h : ∀ a ∈ keysOf es, a.equal k = false) :
    keysOf (putEntry es k v) = keysOf es ++ [k] := by
  rw [putEntry_of_not_mem h, keysOf, List.map_append, List.map_singleton]

theorem lookup_cons (e : Value × Value) (es : List (Value × Value)) (k : Value) :
    Value.lookup (e :: es) k = if e.1.equal k then e.2 else Value.lookup es k := by
  unfold Value.lookup Value.lookupBy
  by_cases h : e.1.equal k = true <;> simp [h]

theorem lookup_putEntry_self (hk : k.plain = true) : Value.lookup (putEntry es k v) k = v := by
  induction es with
  | nil => rw [putEntry, lookup_cons, if_pos (Value.equal_self_of_plain hk)]
  | cons e es ih =>
    rw [putEntry]
    by_cases hfirst : e.1.equal k = true
    · rw [if_pos hfirst, lookup_cons, if_pos hfirst]
    · rw [if_neg hfirst, lookup_cons, if_neg hfirst, ih]

theorem lookup_putEntry_of_ne (hes : ∀ a ∈ keysOf es, a.plain = true) (hk : k.plain = true)
    (hk' : k'.plain = true) (hne : k.equal k' = false) :
    Value.lookup (putEntry es k v) k' = Value.lookup es k' := by
  induction es with
  | nil => rw [putEntry, lookup_cons, if_neg (by simp [hne])]
  | cons e es ih =>
    obtain ⟨he, hes⟩ := List.forall_mem_cons.mp hes
    rw [putEntry]
    by_cases hfirst : e.1.equal k = true
    · -- The entry is found neither before nor after its value is replaced.
      have hother : e.1.equal k' = false := Value.equal_eq_false_of_plain he hk hk' hfirst hne
      rw [if_pos hfirst, lookup_cons, lookup_cons, if_neg (by simp [hother]),
        if_neg (by simp [hother])]
    · rw [if_neg hfirst, lookup_cons, lookup_cons, ih hes]

structure WellKeyed (es : List (Value × Value)) : Prop where
  plain : ∀ a ∈ keysOf es, a.plain = true
  differ : (keysOf es).Pairwise fun a b => a.equal b = false

theorem wellKeyed_nil : WellKeyed [] := ⟨by simp, .nil⟩

theorem WellKeyed.putEntry (hes : WellKeyed es) (hk : k.plain = true) :
    WellKeyed (putEntry es k v) := by
  by_cases hmem : ∃ a ∈ keysOf es, a.equal k = true
  · have hkeys : keysOf (Builtin.putEntry es k v) = keysOf es := keysOf_putEntry_of_mem hmem
    exact ⟨hkeys ▸ hes.plain, hkeys ▸ hes.differ⟩
  · have hnew : ∀ a ∈ keysOf es, a.equal k = false := by simpa using hmem
    have hkeys : keysOf (Builtin.putEntry es k v) = keysOf es ++ [k] :=
      keysOf_putEntry_of_not_mem hnew
    refine ⟨?_, ?_⟩
    · rw [hkeys, List.forall_mem_append, List.forall_mem_singleton]
      exact ⟨hes.plain, hk⟩
    · rw [hkeys, List.pairwise_append]
      refine ⟨hes.differ, List.pairwise_singleton _ _, fun a ha b hb => ?_⟩
      rw [List.mem_singleton.mp hb]
      exact hnew a ha

theorem WellKeyed.differ_both (hes : WellKeyed es) :
    (keysOf es).Pairwise fun a b => a.equal b = false ∧ b.equal a = false := by
  refine hes.differ.imp_of_mem fun {a b} ha hb hab => ⟨hab, ?_⟩
  rw [Value.equal_comm_of_plain (hes.plain b hb) (hes.plain a ha)]
  exact hab

end Entries

section Pairs

def putAll (es ps : List (Value × Value)) : List (Value × Value) :=
  ps.foldl (fun es p => putEntry es p.1 p.2) es

def alternate (ps : List (Value × Value)) : List Value := ps.flatMap fun p => [p.1, p.2]

theorem putPairs_alternate (es ps : List (Value × Value)) :
    putPairs es (alternate ps) = putAll es ps := by
  induction ps generalizing es with
  | nil => rfl
  | cons p ps ih => exact ih (putEntry es p.1 p.2)

theorem length_alternate (ps : List (Value × Value)) : (alternate ps).length % 2 = 0 := by
  have hlength : (alternate ps).length = 2 * ps.length := by
    simp [alternate, List.length_flatMap, Nat.mul_comm]
  omega

variable {ps : List (Value × Value)}

theorem WellKeyed.putAll (hes : WellKeyed es) (hps : ∀ p ∈ ps, p.1.plain = true) :
    WellKeyed (putAll es ps) := by
  induction ps generalizing es with
  | nil => exact hes
  | cons p ps ih =>
    obtain ⟨hp, hps⟩ := List.forall_mem_cons.mp hps
    exact ih (hes.putEntry hp) hps

theorem keysOf_putAll (hes : WellKeyed es) (hps : ∀ p ∈ ps, p.1.plain = true) :
    keysOf (putAll es ps) = distinctFrom (keysOf es) (keysOf ps) := by
  -- The two compare in opposite orders.
  induction ps generalizing es with
  | nil => rfl
  | cons p ps ih =>
    obtain ⟨hp, hps⟩ := List.forall_mem_cons.mp hps
    have hany : (keysOf es).any (p.1.equal ·) = true ↔ ∃ a ∈ keysOf es, a.equal p.1 = true := by
      rw [List.any_eq_true]
      refine exists_congr fun a => and_congr_right fun ha => ?_
      rw [Value.equal_comm_of_plain hp (hes.plain a ha)]
    have hkeys : keysOf (putEntry es p.1 p.2) =
        if (keysOf es).any (p.1.equal ·) then keysOf es else keysOf es ++ [p.1] := by
      by_cases hmem : ∃ a ∈ keysOf es, a.equal p.1 = true
      · rw [if_pos (hany.mpr hmem), keysOf_putEntry_of_mem hmem]
      · rw [if_neg (mt hany.mp hmem), keysOf_putEntry_of_not_mem (by simpa using hmem)]
    show keysOf (putAll (putEntry es p.1 p.2) ps) = distinctFrom (keysOf es) (p.1 :: keysOf ps)
    rw [ih (hes.putEntry hp) hps, hkeys, distinctFrom]

theorem lookup_putAll_of_ne (hes : WellKeyed es) (hps : ∀ p ∈ ps, p.1.plain = true)
    (hk : k.plain = true) (hne : ∀ p ∈ ps, p.1.equal k = false) :
    Value.lookup (putAll es ps) k = Value.lookup es k := by
  induction ps generalizing es with
  | nil => rfl
  | cons p ps ih =>
    obtain ⟨hp, hps⟩ := List.forall_mem_cons.mp hps
    obtain ⟨hfirst, hne⟩ := List.forall_mem_cons.mp hne
    calc Value.lookup (putAll (putEntry es p.1 p.2) ps) k
        = Value.lookup (putEntry es p.1 p.2) k := ih (hes.putEntry hp) hps hne
      _ = Value.lookup es k := lookup_putEntry_of_ne hes.plain hp hk hfirst

theorem lookup_putAll_last {before after : List (Value × Value)} (hes : WellKeyed es)
    (hps : ∀ p ∈ before ++ (k, v) :: after, p.1.plain = true)
    (hafter : ∀ p ∈ after, p.1.equal k = false) :
    Value.lookup (putAll es (before ++ (k, v) :: after)) k = v := by
  obtain ⟨hbefore, hrest⟩ := List.forall_mem_append.mp hps
  obtain ⟨hk, hplain⟩ := List.forall_mem_cons.mp hrest
  have hwell := (hes.putAll hbefore).putEntry (v := v) hk
  rw [putAll, List.foldl_append, List.foldl_cons]
  exact (lookup_putAll_of_ne hwell hplain hk hafter).trans (lookup_putEntry_self hk)

end Pairs

section Calls

theorem returns_keys (es : List (Value × Value)) : keys.Returns [.map es] (.list (keysOf es)) :=
  fun _ _ => rfl

theorem returns_get (es : List (Value × Value)) (k : Value) :
    get.Returns [.map es, k] (Value.lookup es k) :=
  fun _ _ => rfl

theorem returns_put (es : List (Value × Value)) (k v : Value) :
    put.Returns [.map es, k, v] (.map (putEntry es k v)) :=
  fun _ _ => rfl

theorem returns_distinct (xs : List Value) : distinct.Returns [.list xs] (.list (distinctFrom [] xs)) :=
  fun _ _ => rfl

theorem returns_hashMap (ps : List (Value × Value)) :
    hashMap.Returns (alternate ps) (.map (putAll [] ps)) := by
  intro call name
  show Run.ofExcept (hashMapOf (alternate ps)) = _
  rw [hashMapOf, if_pos (length_alternate ps), putPairs_alternate]
  rfl

/-- The values of maps that are made of pairs with plain keys, and changed by putting values under
plain keys. -/
inductive MadeMap : Value → Prop
  | hashMap {ps m} : (∀ p ∈ ps, p.1.plain = true) → hashMap.Returns (alternate ps) m → MadeMap m
  | put {m k v m'} : MadeMap m → k.plain = true → put.Returns [m, k, v] m' → MadeMap m'

theorem MadeMap.wellKeyed {m : Value} (h : MadeMap m) : ∃ es, m = .map es ∧ WellKeyed es := by
  induction h with
  | @hashMap ps m hps hm =>
    exact ⟨_, hm.unique (returns_hashMap ps), wellKeyed_nil.putAll hps⟩
  | @put m k v m' _ hk hm ih =>
    obtain ⟨es, rfl, hes⟩ := ih
    exact ⟨_, hm.unique (returns_put es k v), hes.putEntry hk⟩

/-- Maps with plain keys are finite maps in the order in which their keys were added. No two keys
are equal; a value that is put under a key is found there, and what is found under other keys stays;
a new key comes last, and one that is there already keeps its place. A map that is made of pairs has
their distinct keys, each with the value of its last pair. -/
theorem maps_keep_order :
    (∀ m k k' v, MadeMap m → k.plain = true → k'.plain = true →
      ∃ ks m' u, keys.Returns [m] (.list ks) ∧ put.Returns [m, k, v] m' ∧ get.Returns [m, k'] u ∧
        (ks.Pairwise fun a b => a.equal b = false ∧ b.equal a = false) ∧
        get.Returns [m', k] v ∧
        (k.equal k' = false → get.Returns [m', k'] u) ∧
        ((∃ a ∈ ks, a.equal k = true) → keys.Returns [m'] (.list ks)) ∧
        ((∀ a ∈ ks, a.equal k = false) → keys.Returns [m'] (.list (ks ++ [k])))) ∧
    ∀ ps : List (Value × Value), (∀ p ∈ ps, p.1.plain = true) →
      ∃ m ks, hashMap.Returns (alternate ps) m ∧ keys.Returns [m] (.list ks) ∧
        distinct.Returns [.list (ps.map (·.1))] (.list ks) ∧
        ∀ before k v after, ps = before ++ (k, v) :: after →
          (∀ p ∈ after, p.1.equal k = false) → get.Returns [m, k] v := by
  constructor
  · intro m k k' v hm hk hk'
    obtain ⟨es, rfl, hes⟩ := hm.wellKeyed
    refine ⟨_, _, _, returns_keys es, returns_put es k v, returns_get es k', hes.differ_both,
      ?_, ?_, ?_, ?_⟩
    · have hfound := returns_get (putEntry es k v) k
      rwa [lookup_putEntry_self hk] at hfound
    · intro hne
      have hfound := returns_get (putEntry es k v) k'
      rwa [lookup_putEntry_of_ne hes.plain hk hk' hne] at hfound
    · intro hmem
      have hkeys := returns_keys (putEntry es k v)
      rwa [keysOf_putEntry_of_mem hmem] at hkeys
    · intro hnew
      have hkeys := returns_keys (putEntry es k v)
      rwa [keysOf_putEntry_of_not_mem hnew] at hkeys
  · intro ps hps
    refine ⟨_, _, returns_hashMap ps, returns_keys _, ?_, ?_⟩
    · rw [keysOf_putAll wellKeyed_nil hps]
      exact returns_distinct (keysOf ps)
    · rintro before k v after rfl hafter
      have hfound := returns_get (putAll [] (before ++ (k, v) :: after)) k
      rwa [lookup_putAll_last wellKeyed_nil hps hafter] at hfound

theorem maps_keep_order_repeatedKey :
    let a : Value := .list [.integer 1, .string (utf8 "a")]
    let b : Value := .tag (utf8 "b")
    let ps := [(a, .integer 1), (b, .nil), (a, .integer 2)]
    ∃ m m', hashMap.Returns (alternate ps) m ∧ keys.Returns [m] (.list [a, b]) ∧
      get.Returns [m, a] (.integer 2) ∧ put.Returns [m, b, .map []] m' ∧
      keys.Returns [m'] (.list [a, b]) ∧ get.Returns [m', b] (.map []) ∧
      get.Returns [m', a] (.integer 2) := by
  intro a b ps
  have hps : ∀ p ∈ ps, p.1.plain = true := by decide
  obtain ⟨m, ks, hm, hks, hdistinct, hlast⟩ := maps_keep_order.2 ps hps
  obtain rfl : ks = [a, b] := Value.list.inj (hdistinct.unique (returns_distinct [a, b, a]))
  have ha : get.Returns [m, a] (.integer 2) :=
    hlast [(a, .integer 1), (b, .nil)] a (.integer 2) [] rfl (by simp)
  obtain ⟨ks', m', u, hks', hput, hget, -, hself, hother, hkeys, -⟩ :=
    maps_keep_order.1 m b a (.map []) (.hashMap hps hm) (by decide) (by decide)
  obtain rfl : ks' = [a, b] := Value.list.inj (hks'.unique hks)
  obtain rfl : u = .integer 2 := hget.unique ha
  exact ⟨m, m', hm, hks, ha, hput, hkeys ⟨b, by simp, by decide⟩, hself, hother (by decide)⟩

end Calls

end Builtin
end ClauseLisp
