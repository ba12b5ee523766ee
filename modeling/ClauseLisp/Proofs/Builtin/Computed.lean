import ClauseLisp.Machine
import ClauseLisp.Proofs.Builtin.Counting
import ClauseLisp.Proofs.Comparing.Sort
import ClauseLisp.Proofs.Value.Procedures

/-! What computations on values give. Their results hold no procedures that were not there before,
and their faults are caused by values: none of them speaks of an unbound variable, and none of an
operation with the wrong number of operands, where that number is checked. -/

namespace ClauseLisp

/-- Faults that say that a program was not put together as it should have been. -/
def Fault.isInternal : Fault → Bool
  | unboundVariable _ => true
  | malformed => true
  | _ => false

/-- A result with a property, or a fault that a program can cause. -/
def Computes {α : Type} (Q : α → Prop) : Except Fault α → Prop
  | .ok a => Q a
  | .error f => f.isInternal = false

section Computes

variable {α β : Type} {Q : α → Prop} {R : β → Prop}

theorem Computes.bind {x : Except Fault α} {f : α → Except Fault β} (hx : Computes Q x)
    (hf : ∀ a, Q a → Computes R (f a)) : Computes R (x >>= f) := by
  cases x with
  | ok a => exact hf a hx
  | error e => exact hx

theorem Computes.map {x : Except Fault α} {f : α → β} (hx : Computes Q x)
    (hf : ∀ a, Q a → R (f a)) : Computes R (x >>= fun a => pure (f a)) :=
  hx.bind hf

end Computes

namespace Value

variable {P : Procedure → Prop} {v x y : Value}

theorem computes_expectInteger (v : Value) : Computes (fun _ => True) v.expectInteger := by
  cases v <;> simp [expectInteger, Computes, Fault.isInternal]

theorem computes_expectNumber (v : Value) : Computes (fun _ => True) v.expectNumber := by
  cases v <;> simp [expectNumber, Computes, Fault.isInternal]

theorem computes_expectString (v : Value) : Computes (fun _ => True) v.expectString := by
  cases v <;> simp [expectString, Computes, Fault.isInternal]

theorem computes_expectList (hv : v.All P) : Computes (∀ x ∈ ·, x.All P) v.expectList := by
  cases v <;> simp_all [expectList, Computes, Fault.isInternal]

theorem computes_expectMap (hv : v.All P) :
    Computes (∀ e ∈ ·, e.1.All P ∧ e.2.All P) v.expectMap := by
  cases v with
  | map es => exact all_map.mp hv
  | _ => rfl

theorem computes_expectProcedure (hv : v.All P) :
    Computes (fun p => (procedure p).All P) v.expectProcedure := by
  cases v with
  | procedure p => exact hv
  | _ => rfl

theorem computes_exact (i : Int) : Computes (All P) (exact i) := by
  unfold exact
  split <;> simp [Computes, Fault.isInternal]

theorem computes_arithmetic (f : Int → Int → Int) (g : Binary64 → Binary64 → Binary64)
    (x y : Value) : Computes (All P) (arithmetic f g x y) := by
  unfold arithmetic
  split
  · exact computes_exact _
  · exact (computes_expectNumber x).bind fun _ _ =>
      (computes_expectNumber y).bind fun _ _ => all_float _

theorem computes_divide (x y : Value) : Computes (All P) (x.divide y) := by
  refine (computes_expectNumber x).bind fun n _ => (computes_expectNumber y).bind fun d _ => ?_
  split
  · rfl
  · exact all_float _

theorem computes_remainder (x y : Value) : Computes (All P) (x.remainder y) := by
  refine (computes_expectInteger x).bind fun i _ => (computes_expectInteger y).bind fun j _ => ?_
  split
  · rfl
  · exact computes_exact _

theorem computes_negate (v : Value) : Computes (All P) v.negate := by
  cases v with
  | integer i => exact computes_exact _
  | float d => exact all_float _
  | _ => rfl

theorem computes_order (x y : Value) : Computes (fun _ => True) (x.order y) := by
  unfold order
  split
  · trivial
  · trivial
  · trivial
  · trivial
  · exact (computes_expectString y).bind fun _ _ => trivial
  · split <;> rfl

theorem computes_head (hv : v.All P) : Computes (All P) v.head := by
  refine (computes_expectList hv).bind fun xs hxs => ?_
  cases xs with
  | nil => exact all_nil
  | cons x xs => exact hxs x (by simp)

theorem computes_tail (hv : v.All P) : Computes (All P) v.tail :=
  (computes_expectList hv).bind fun _ hxs =>
    all_list.mpr fun x hx => hxs x (List.mem_of_mem_tail hx)

theorem computes_cons (hx : x.All P) (hv : v.All P) : Computes (All P) (x.cons v) := by
  unfold cons
  split
  · exact all_list.mpr (by simpa using hx)
  · refine (computes_expectList hv).bind fun xs hxs => all_list.mpr ?_
    rw [List.forall_mem_cons]
    exact ⟨hx, hxs⟩

theorem computes_isEmpty (v : Value) : Computes (fun _ => True) v.isEmpty := by
  cases v with
  | nil | list _ | string _ | tuple _ | map _ => trivial
  | _ => rfl

theorem all_lookup {es : List (Value × Value)} (hes : ∀ e ∈ es, e.1.All P ∧ e.2.All P)
    (key : Value) : (lookup es key).All P := by
  unfold lookup lookupBy
  cases h : es.find? fun e => equal e.1 key with
  | none => simp
  | some e => exact (hes e (List.mem_of_find?_eq_some h)).2

end Value

namespace Builtin

open Value (All computes_expectInteger computes_expectNumber computes_expectString
  computes_expectList computes_expectMap computes_order)

variable {P : Procedure → Prop}

theorem computes_nthElement {xs : List Value} (hxs : ∀ x ∈ xs, x.All P) (n : Int64) :
    Computes (All P) (nthElement xs n) := by
  unfold nthElement
  split
  · rfl
  · show All P _
    rw [List.getD_eq_getElem?_getD]
    cases h : xs[n.toInt.toNat]? with
    | none => exact Value.all_nil
    | some x => exact hxs x (List.mem_of_getElem? h)

theorem mem_of_mem_takeCount {xs : List Value} {n : Int64} {x : Value} (h : x ∈ takeCount xs n) :
    x ∈ xs := by
  unfold takeCount at h
  split at h
  · exact List.mem_of_mem_take h
  · exact List.mem_of_mem_drop h

theorem mem_of_mem_dropCount {xs : List Value} {n : Int64} {x : Value} (h : x ∈ dropCount xs n) :
    x ∈ xs := by
  unfold dropCount at h
  split at h
  · exact List.mem_of_mem_drop h
  · exact List.mem_of_mem_take h

theorem all_rangeOf (a b : Int64) : ∀ x ∈ rangeOf a b, x.All P := by
  obtain ⟨is, -, hrange⟩ := exists_counts_rangeOf a b
  intro x hx
  rw [hrange] at hx
  obtain ⟨i, -, rfl⟩ := List.mem_map.mp hx
  exact Value.all_integer i

theorem computes_gcdOf (x y : Int64) : Computes (All P) (gcdOf x y) := by
  simp only [gcdOf]
  split
  · rfl
  · exact Value.all_integer _

theorem computes_repeatedValue {v : Value} (hv : v.All P) (n : Int64) :
    Computes (All P) (repeatedValue v n) := by
  unfold repeatedValue
  split
  · rfl
  · split
    · rfl
    · refine Value.all_list.mpr fun x hx => ?_
      rwa [List.eq_of_mem_replicate hx]

mutual

theorem all_flattenValue {v : Value} (hv : v.All P) : ∀ x ∈ flattenValue v, x.All P := by
  match v with
  | .list xs => exact all_flattenAll (Value.all_list.mp hv)
  | .nil | .boolean _ | .integer _ | .float _ | .string _ | .tag _ | .tuple _ | .map _
  | .procedure _ => exact List.forall_mem_singleton.mpr hv

theorem all_flattenAll {xs : List Value} (hxs : ∀ x ∈ xs, x.All P) :
    ∀ x ∈ flattenAll xs, x.All P := by
  match xs with
  | [] => simp [flattenAll]
  | y :: ys =>
    rw [List.forall_mem_cons] at hxs
    rw [flattenAll, List.forall_mem_append]
    exact ⟨all_flattenValue hxs.1, all_flattenAll hxs.2⟩

end

theorem all_distinctFrom {seen xs : List Value} (hseen : ∀ x ∈ seen, x.All P)
    (hxs : ∀ x ∈ xs, x.All P) : ∀ x ∈ distinctFrom seen xs, x.All P := by
  induction xs generalizing seen with
  | nil => exact hseen
  | cons y ys ih =>
    rw [List.forall_mem_cons] at hxs
    refine ih ?_ hxs.2
    split
    · exact hseen
    · exact List.forall_mem_append.mpr ⟨hseen, List.forall_mem_singleton.mpr hxs.1⟩

theorem computes_sorted {xs : List Value} (hxs : ∀ x ∈ xs, x.All P) :
    Computes (∀ y ∈ ·, y.All P) (sorted xs) := by
  cases h : sorted xs with
  | ok ys => exact fun y hy => hxs y ((Comparing.run_sort_perm h).mem_iff.mp hy)
  | error f =>
    obtain ⟨x, y, hxy⟩ := Comparing.exists_error_of_run h
    have hprecedes : Computes (fun _ => True) (precedes x y) :=
      (computes_order x y).map fun _ _ => trivial
    rwa [hxy] at hprecedes

theorem mem_interleaved {xs ys : List Value} {x : Value} (h : x ∈ interleaved xs ys) :
    x ∈ xs ∨ x ∈ ys := by
  fun_induction interleaved xs ys with
  | case1 ys => exact Or.inr h
  | case2 xs => exact Or.inl h
  | case3 y ys z zs ih =>
    simp only [List.mem_cons] at h ⊢
    grind

theorem computes_foldValues {f : Value → Value → Except Fault Value} {v : Value}
    (hf : ∀ x y, Computes (All P) (f x y)) (hv : v.All P) (xs : List Value) :
    Computes (All P) (foldValues f v xs) := by
  induction xs generalizing v with
  | nil => exact hv
  | cons x xs ih => exact (hf v x).bind fun _ h => ih h

theorem computes_squareRootOf (d : Binary64) : Computes (All P) (squareRootOf d) := by
  unfold squareRootOf
  split
  · rfl
  · exact Value.all_float _

theorem computes_absoluteOf {v : Value} (hv : v.All P) : Computes (All P) (absoluteOf v) := by
  unfold absoluteOf
  split
  · exact Value.all_float _
  · refine (computes_expectInteger _).bind fun i _ => ?_
    split
    · exact Value.computes_negate _
    · exact hv

theorem computes_maximumOf {x y : Value} (hx : x.All P) (hy : y.All P) :
    Computes (All P) (maximumOf x y) := by
  refine (computes_order x y).bind fun o _ => ?_
  show All P (if _ then _ else _)
  split <;> assumption

theorem computes_minimumOf {x y : Value} (hx : x.All P) (hy : y.All P) :
    Computes (All P) (minimumOf x y) := by
  refine (computes_order y x).bind fun o _ => ?_
  show All P (if _ then _ else _)
  split <;> assumption

theorem computes_integerOf (v : Value) : Computes (All P) (integerOf v) := by
  unfold integerOf
  split
  · split
    · exact Value.all_integer _
    · rfl
  · split
    · exact Value.all_integer _
    · rfl
  · exact (computes_expectInteger _).bind fun _ _ => Value.all_integer _

theorem computes_floatOf (v : Value) : Computes (All P) (floatOf v) := by
  unfold floatOf
  split
  · split
    · exact Value.all_float _
    · rfl
  · exact (computes_expectNumber _).bind fun _ _ => Value.all_float _

theorem all_putEntry {es : List (Value × Value)} {key v : Value}
    (hes : ∀ e ∈ es, e.1.All P ∧ e.2.All P) (hkey : key.All P) (hv : v.All P) :
    ∀ e ∈ putEntry es key v, e.1.All P ∧ e.2.All P := by
  induction es with
  | nil => simpa [putEntry] using ⟨hkey, hv⟩
  | cons e es ih =>
    rw [List.forall_mem_cons] at hes
    rw [putEntry]
    split
    · exact List.forall_mem_cons.mpr ⟨⟨hes.1.1, hv⟩, hes.2⟩
    · exact List.forall_mem_cons.mpr ⟨hes.1, ih hes.2⟩

theorem all_putPairs {es : List (Value × Value)} {args : List Value}
    (hes : ∀ e ∈ es, e.1.All P ∧ e.2.All P) (hargs : ∀ a ∈ args, a.All P) :
    ∀ e ∈ putPairs es args, e.1.All P ∧ e.2.All P := by
  fun_induction putPairs es args with
  | case1 es key v more ih =>
    simp only [List.forall_mem_cons] at hargs
    exact ih (all_putEntry hes hargs.1 hargs.2.1) hargs.2.2
  | case2 => exact hes

theorem computes_hashMapOf {args : List Value} (hargs : ∀ a ∈ args, a.All P) :
    Computes (All P) (hashMapOf args) := by
  unfold hashMapOf
  split
  · exact Value.all_map.mpr (all_putPairs (by simp) hargs)
  · rfl

theorem computes_getFrom {m : Value} (hm : m.All P) (key : Value) :
    Computes (All P) (getFrom m key) := by
  unfold getFrom
  split
  · exact Value.all_nil
  · exact (computes_expectMap hm).bind fun _ hes => Value.all_lookup hes key

def isHigherOrder : Builtin → Bool
  | map | filter | partition | foldLeft | foldRight | apply | all | any | find => true
  | compose | partialApply | constantly => true
  | _ => false

theorem computes_unary {b : Builtin} {v : Value} (hb : b.isHigherOrder = false)
    (harity : b.arity? = some 1) (hv : v.All P) : Computes (All P) (b.compute [v]) := by
  have hlist := computes_expectList hv
  cases b with
  | first => exact Value.computes_head hv
  | rest => exact Value.computes_tail hv
  | second => exact (Value.computes_tail hv).bind fun _ h => Value.computes_head h
  | third =>
    exact (Value.computes_tail hv).bind fun _ h =>
      (Value.computes_tail h).bind fun _ h => Value.computes_head h
  | last =>
    refine hlist.map fun xs hxs => ?_
    cases h : xs.getLast? with
    | none => simp [List.getLastD_eq_getLast?, h]
    | some x => simpa [List.getLastD_eq_getLast?, h] using hxs x (List.mem_of_getLast? h)
  | reverse => exact hlist.map fun xs hxs => Value.all_list.mpr (by simpa using hxs)
  | length => exact hlist.map fun _ _ => Value.all_integer _
  | identity => exact hv
  | flatten => exact hlist.map fun _ hxs => Value.all_list.mpr (all_flattenAll hxs)
  | distinct => exact hlist.map fun _ hxs => Value.all_list.mpr (all_distinctFrom (by simp) hxs)
  | sort =>
    exact hlist.bind fun _ hxs => (computes_sorted hxs).map fun _ => Value.all_list.mpr
  | sum =>
    exact hlist.bind fun xs _ =>
      computes_foldValues (Value.computes_arithmetic _ _) (Value.all_integer _) xs
  | product =>
    exact hlist.bind fun xs _ =>
      computes_foldValues (Value.computes_arithmetic _ _) (Value.all_integer _) xs
  | increment | decrement | square => exact Value.computes_arithmetic _ _ _ _
  | cube =>
    exact (Value.computes_arithmetic (P := P) _ _ _ _).bind fun _ _ =>
      Value.computes_arithmetic _ _ _ _
  | squareRoot => exact (computes_expectNumber v).bind fun d _ => computes_squareRootOf d
  | absolute => exact computes_absoluteOf hv
  | isEven | isOdd => exact (computes_expectInteger v).map fun _ _ => Value.all_boolean _
  | isZero | isPositive | isNegative =>
    exact (computes_expectNumber v).map fun _ _ => Value.all_boolean _
  | isFunction | isNil | isList | isAtom | isNumber | isString => exact Value.all_boolean _
  | isEmpty => exact (Value.computes_isEmpty v).map fun _ _ => Value.all_boolean _
  | toText => exact Value.all_string _
  | toInteger => exact computes_integerOf v
  | toFloat => exact computes_floatOf v
  | textLength => exact (computes_expectString v).map fun _ _ => Value.all_integer _
  | keys =>
    refine (computes_expectMap hv).map fun es hes => Value.all_list.mpr ?_
    intro x hx
    obtain ⟨e, he, rfl⟩ := List.mem_map.mp hx
    exact (hes e he).1
  | _ => simp [isHigherOrder, arity?] at hb harity

theorem computes_binary {b : Builtin} {x y : Value} (hb : b.isHigherOrder = false)
    (harity : b.arity? = some 2) (hx : x.All P) (hy : y.All P) :
    Computes (All P) (b.compute [x, y]) := by
  have hlist := computes_expectList hx
  cases b with
  | cons => exact Value.computes_cons hx hy
  | nth =>
    exact hlist.bind fun _ hxs =>
      (computes_expectInteger y).bind fun n _ => computes_nthElement hxs n
  | take =>
    exact hlist.bind fun _ hxs => (computes_expectInteger y).map fun _ _ =>
      Value.all_list.mpr fun z hz => hxs z (mem_of_mem_takeCount hz)
  | drop =>
    exact hlist.bind fun _ hxs => (computes_expectInteger y).map fun _ _ =>
      Value.all_list.mpr fun z hz => hxs z (mem_of_mem_dropCount hz)
  | append =>
    exact hlist.bind fun _ hxs => (computes_expectList hy).map fun _ hys =>
      Value.all_list.mpr (List.forall_mem_append.mpr ⟨hxs, hys⟩)
  | range =>
    exact (computes_expectInteger x).bind fun _ _ => (computes_expectInteger y).map fun _ _ =>
      Value.all_list.mpr (all_rangeOf _ _)
  | repeated => exact (computes_expectInteger y).bind fun n _ => computes_repeatedValue hx n
  | zip =>
    refine hlist.bind fun xs hxs => (computes_expectList hy).map fun ys hys =>
      Value.all_list.mpr fun z hz => ?_
    obtain ⟨⟨a, b⟩, hab, rfl⟩ := List.mem_map.mp hz
    have ha := hxs a (List.of_mem_zip hab).1
    have hb := hys b (List.of_mem_zip hab).2
    exact Value.all_tuple.mpr (by simpa using ⟨ha, hb⟩)
  | interleave =>
    refine hlist.bind fun xs hxs => (computes_expectList hy).map fun ys hys =>
      Value.all_list.mpr fun z hz => ?_
    rcases mem_interleaved hz with hz | hz
    · exact hxs z hz
    · exact hys z hz
  | power =>
    exact (computes_expectNumber x).bind fun _ _ =>
      (computes_expectNumber y).map fun _ _ => Value.all_float _
  | maximum => exact computes_maximumOf hx hy
  | minimum => exact computes_minimumOf hx hy
  | gcd =>
    exact (computes_expectInteger x).bind fun _ _ =>
      (computes_expectInteger y).bind fun _ _ => computes_gcdOf _ _
  | get => exact computes_getFrom hx y
  | _ => simp [isHigherOrder, arity?] at hb harity

theorem computes_put {m key v : Value} (hm : m.All P) (hkey : key.All P) (hv : v.All P) :
    Computes (All P) (compute put [m, key, v]) :=
  (computes_expectMap hm).map fun _ hes => Value.all_map.mpr (all_putEntry hes hkey hv)

theorem computes_compute {b : Builtin} {args : List Value} (hb : b.isHigherOrder = false)
    (harity : ∀ n ∈ b.arity?, args.length = n) (hargs : ∀ a ∈ args, a.All P) :
    Computes (All P) (b.compute args) := by
  match hn : b.arity? with
  | none =>
    obtain rfl : b = hashMap := by cases b <;> simp [arity?] at hn ⊢
    exact computes_hashMapOf hargs
  | some 1 =>
    obtain ⟨v, rfl⟩ := List.length_eq_one_iff.mp (harity 1 hn)
    exact computes_unary hb hn (hargs v (by simp))
  | some 2 =>
    match args, harity 2 hn with
    | [x, y], _ => exact computes_binary hb hn (hargs x (by simp)) (hargs y (by simp))
  | some 3 =>
    obtain rfl : b = put := by cases b <;> simp [arity?, isHigherOrder] at hn hb ⊢
    match args, harity 3 hn with
    | [x, y, z], _ => exact computes_put (hargs x (by simp)) (hargs y (by simp)) (hargs z (by simp))
  | some 0 => cases b <;> simp [arity?] at hn
  | some (n + 4) => cases b <;> simp [arity?] at hn

end Builtin

def Operation.operands? : Operation → Option Nat
  | .negate | .not | .head | .tail | .isNil | .isEmpty | .isList | .isAtom | .isNumber
  | .isString => some 1
  | .str | .print | .println => none
  | _ => some 2

namespace Machine

open Value (All)

variable {P : Procedure → Prop}

theorem computes_ordered (x y : Value) (accepted : Ordering → Bool) :
    Computes (All P) (ordered x y accepted) :=
  (Value.computes_order x y).bind fun _ _ => Value.all_boolean _

theorem computes_operation_unary {op : Operation} {x : Value} (hop : op.operands? = some 1)
    (hx : x.All P) : Computes (All P) (compute op [x]) := by
  cases op with
  | negate => exact Value.computes_negate x
  | head => exact Value.computes_head hx
  | tail => exact Value.computes_tail hx
  | not | isNil | isList | isAtom | isNumber | isString => exact Value.all_boolean _
  | isEmpty => exact (Value.computes_isEmpty x).bind fun _ _ => Value.all_boolean _
  | _ => simp [Operation.operands?] at hop

theorem computes_operation_binary {op : Operation} {x y : Value} (hop : op.operands? = some 2)
    (hx : x.All P) (hy : y.All P) : Computes (All P) (compute op [x, y]) := by
  cases op with
  | add | subtract | multiply => exact Value.computes_arithmetic _ _ x y
  | divide => exact Value.computes_divide x y
  | remainder => exact Value.computes_remainder x y
  | less | greater | atMost | atLeast => exact computes_ordered x y _
  | equal | notEqual => exact Value.all_boolean _
  | cons => exact Value.computes_cons hx hy
  | lookup => exact Builtin.computes_getFrom hx y
  | _ => simp [Operation.operands?] at hop

theorem computes_compute {op : Operation} {args : List Value} (hprint : op ≠ .print)
    (hprintln : op ≠ .println) (harity : ∀ n ∈ op.operands?, args.length = n)
    (hargs : ∀ a ∈ args, a.All P) : Computes (All P) (compute op args) := by
  match hn : op.operands? with
  | none =>
    obtain rfl : op = .str := by cases op <;> simp_all [Operation.operands?]
    exact Value.all_string _
  | some 1 =>
    obtain ⟨x, rfl⟩ := List.length_eq_one_iff.mp (harity 1 hn)
    exact computes_operation_unary hn (hargs x (by simp))
  | some 2 =>
    match args, harity 2 hn with
    | [x, y], _ => exact computes_operation_binary hn (hargs x (by simp)) (hargs y (by simp))
  | some 0 => cases op <;> simp [Operation.operands?] at hn
  | some (n + 3) => cases op <;> simp [Operation.operands?] at hn

theorem compute_of_operands?_ne {op : Operation} {args : List Value} {n : Nat}
    (hop : op.operands? = some n) (h : args.length ≠ n) : compute op args = .error .malformed := by
  unfold compute
  split <;> simp_all [Operation.operands?]

end Machine

end ClauseLisp
