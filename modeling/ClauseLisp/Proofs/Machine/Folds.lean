import ClauseLisp.Proofs.Expr.Agreement
import ClauseLisp.Proofs.Machine.Endings
import ClauseLisp.Proofs.Number.Decimal
import ClauseLisp.Proofs.World.Lookup

/-! Sums, products and differences of integers. The operations that fold their operands and the core
procedures that fold a list compute the same, step by step from the left: the exact result if every
partial result is a 64-bit integer, and an overflow otherwise. -/

namespace ClauseLisp

inductive IntegerFold where
  | sum
  | product
  | difference

namespace IntegerFold

open Integer (Fits)

def symbol : IntegerFold → Bytes
  | sum => utf8 "+"
  | product => utf8 "*"
  | difference => utf8 "-"

def procedure? : IntegerFold → Option Bytes
  | sum => some (utf8 "sum")
  | product => some (utf8 "product")
  | difference => none

def form (fold : IntegerFold) (loc headLoc : Location) (operands : List Form) : Form :=
  .sequence loc .paren (.atom headLoc (.symbol fold.symbol) :: operands)

def total : IntegerFold → List Int → Int
  | sum, is => is.foldr (· + ·) 0
  | product, is => is.foldr (· * ·) 1
  | difference, [] => 0
  | difference, i :: is => i - is.foldr (· + ·) 0

/-- The outcome is the exact result if all partial results, from the left, are 64-bit integers, and
otherwise the fault that says that they are not. -/
structure Exactly (fold : IntegerFold) (is : List Int64) (o : Outcome Value) : Prop where
  value : (∀ p, p <+: is → p ≠ [] → Fits (fold.total (p.map Int64.toInt))) →
    ∃ i, o = .value (.integer i) ∧ i.toInt = fold.total (is.map Int64.toInt)
  overflow : (∃ p, p <+: is ∧ p ≠ [] ∧ ¬ Fits (fold.total (p.map Int64.toInt))) →
    ∃ f, o = .fault f ∧ f.message = utf8 "Integer overflow" ∧ f.isTypeFault = false

def operation : IntegerFold → Operation
  | sum => .add
  | product => .multiply
  | difference => .subtract

def onIntegers : IntegerFold → Int → Int → Int
  | sum => (· + ·)
  | product => (· * ·)
  | difference => (· - ·)

def onValues : IntegerFold → Value → Value → Except Fault Value
  | sum => Value.add
  | product => Value.multiply
  | difference => Value.subtract

theorem onValues_integer (fold : IntegerFold) (i j : Int64) :
    fold.onValues (.integer i) (.integer j) =
      Value.exact (fold.onIntegers i.toInt j.toInt) := by
  cases fold <;> rfl

theorem operate_operation (fold : IntegerFold) (x y : Value) :
    Machine.operate fold.operation [x, y] = Run.ofExcept (fold.onValues x y) := by
  cases fold <;> rfl

theorem foldr_add_concat (is : List Int) (j : Int) :
    (is ++ [j]).foldr (· + ·) 0 = is.foldr (· + ·) 0 + j := by
  induction is with
  | nil => simp
  | cons i is ih =>
    rw [List.cons_append, List.foldr_cons, List.foldr_cons, ih, Int.add_assoc]

theorem foldr_mul_concat (is : List Int) (j : Int) :
    (is ++ [j]).foldr (· * ·) 1 = is.foldr (· * ·) 1 * j := by
  induction is with
  | nil => simp
  | cons i is ih =>
    rw [List.cons_append, List.foldr_cons, List.foldr_cons, ih, Int.mul_assoc]

theorem total_singleton (fold : IntegerFold) (i : Int) : fold.total [i] = i := by
  cases fold <;> simp [total]

theorem total_concat (fold : IntegerFold) {is : List Int} (his : is ≠ []) (j : Int) :
    fold.total (is ++ [j]) = fold.onIntegers (fold.total is) j := by
  cases fold with
  | sum => exact foldr_add_concat is j
  | product => exact foldr_mul_concat is j
  | difference =>
    cases is with
    | nil => exact absurd rfl his
    | cons i is =>
      show i - (is ++ [j]).foldr (· + ·) 0 = i - is.foldr (· + ·) 0 - j
      rw [foldr_add_concat, Int.sub_sub]

theorem onValues_of_total (fold : IntegerFold) {p : List Int64} {i : Int64} (hp : p ≠ [])
    (hi : i.toInt = fold.total (p.map Int64.toInt)) (j : Int64) :
    fold.onValues (.integer i) (.integer j) =
      Value.exact (fold.total ((p ++ [j]).map Int64.toInt)) := by
  have hne : p.map Int64.toInt ≠ [] := by simpa using hp
  rw [onValues_integer, hi, List.map_append, List.map_singleton, fold.total_concat hne]

open Builtin (foldValues)

theorem foldValues_of_fits (fold : IntegerFold) {p js : List Int64} {i : Int64} (hp : p ≠ [])
    (hi : i.toInt = fold.total (p.map Int64.toInt))
    (hfits : ∀ q, q <+: js → Fits (fold.total ((p ++ q).map Int64.toInt))) :
    ∃ k : Int64, foldValues fold.onValues (.integer i) (js.map .integer) = .ok (.integer k) ∧
      k.toInt = fold.total ((p ++ js).map Int64.toInt) := by
  induction js generalizing p i with
  | nil =>
    rw [List.append_nil]
    exact ⟨i, rfl, hi⟩
  | cons j js ih =>
    obtain ⟨k, hk, hkInt⟩ := Integer.fit?_of_fits (hfits [j] (by simp))
    have hstep : fold.onValues (.integer i) (.integer j) = .ok (.integer k) := by
      rw [fold.onValues_of_total hp hi, Value.exact, hk]
    have hrest : ∀ q, q <+: js → Fits (fold.total ((p ++ [j] ++ q).map Int64.toInt)) := by
      intro q hq
      rw [← List.append_cons]
      exact hfits (j :: q) (List.cons_prefix_cons.mpr ⟨rfl, hq⟩)
    obtain ⟨result, hresult, hresultInt⟩ := ih (by simp) hkInt hrest
    refine ⟨result, ?_, ?_⟩
    · rw [List.map_cons, foldValues, hstep]
      exact hresult
    · rw [hresultInt, ← List.append_cons]

theorem foldValues_of_not_fits (fold : IntegerFold) {p q js : List Int64} {i : Int64}
    (hp : p ≠ []) (hi : i.toInt = fold.total (p.map Int64.toInt)) (hq : q <+: js)
    (hfits : ¬ Fits (fold.total ((p ++ q).map Int64.toInt))) :
    foldValues fold.onValues (.integer i) (js.map .integer) = .error .integerOverflow := by
  induction js generalizing p q i with
  | nil =>
    obtain rfl := List.prefix_nil.mp hq
    rw [List.append_nil, ← hi] at hfits
    exact absurd (Integer.fits_toInt i) hfits
  | cons j js ih =>
    rw [List.map_cons, foldValues, fold.onValues_of_total hp hi, Value.exact]
    by_cases hfirst : Fits (fold.total ((p ++ [j]).map Int64.toInt))
    · obtain ⟨k, hk, hkInt⟩ := Integer.fit?_of_fits hfirst
      rw [hk]
      cases q with
      | nil =>
        rw [List.append_nil, ← hi] at hfits
        exact absurd (Integer.fits_toInt i) hfits
      | cons j' q =>
        obtain ⟨rfl, hrest⟩ := List.cons_prefix_cons.mp hq
        rw [List.append_cons] at hfits
        exact ih (by simp) hkInt hrest hfits
    · rw [Integer.fit?_of_not_fits hfirst]
      rfl

theorem exactly_foldValues (fold : IntegerFold) (i : Int64) (is : List Int64) :
    fold.Exactly (i :: is)
      (.ofExcept (foldValues fold.onValues (.integer i) (is.map .integer))) := by
  have hi : i.toInt = fold.total ([i].map Int64.toInt) := (fold.total_singleton i.toInt).symm
  constructor
  · intro hfits
    obtain ⟨k, hk, hkInt⟩ := fold.foldValues_of_fits (List.cons_ne_nil i []) hi
      fun q hq => hfits (i :: q) (List.cons_prefix_cons.mpr ⟨rfl, hq⟩) (List.cons_ne_nil i q)
    exact ⟨k, by rw [hk]; rfl, hkInt⟩
  · rintro ⟨p, hp, hne, hfits⟩
    obtain ⟨j, q, rfl⟩ := List.exists_cons_of_ne_nil hne
    obtain ⟨rfl, hq⟩ := List.cons_prefix_cons.mp hp
    have hoverflow := fold.foldValues_of_not_fits (List.cons_ne_nil j []) hi hq hfits
    exact ⟨.integerOverflow, by rw [hoverflow]; rfl, by decide, rfl⟩

theorem invoke_procedure (fold : IntegerFold) {name : Bytes} (hname : fold.procedure? = some name)
    (i : Int64) (is : List Int64) :
    ∃ b, Module.core.definition? name = some (.procedure (.builtin name b)) ∧
      ∀ call, Builtin.invoke call name b [.list ((i :: is).map .integer)] =
        Run.ofExcept (foldValues fold.onValues (.integer i) (is.map .integer)) := by
  cases fold with
  | sum =>
    obtain rfl := Option.some.inj hname
    have hfirst : Value.add (.ofNat 0) (.integer i) = .ok (.integer i) := by
      show Value.exact (0 + i.toInt) = _
      rw [Int.zero_add, Value.exact, Integer.fit?_toInt]
    refine ⟨.sum, Module.definition?_core_of_mem (by decide), fun call => ?_⟩
    refine congrArg Run.ofExcept ?_
    show foldValues Value.add (.ofNat 0) (.integer i :: is.map .integer) = _
    rw [foldValues, hfirst]
    rfl
  | product =>
    obtain rfl := Option.some.inj hname
    have hfirst : Value.multiply (.ofNat 1) (.integer i) = .ok (.integer i) := by
      show Value.exact (1 * i.toInt) = _
      rw [Int.one_mul, Value.exact, Integer.fit?_toInt]
    refine ⟨.product, Module.definition?_core_of_mem (by decide), fun call => ?_⟩
    refine congrArg Run.ofExcept ?_
    show foldValues Value.multiply (.ofNat 1) (.integer i :: is.map .integer) = _
    rw [foldValues, hfirst]
    rfl
  | difference => exact absurd hname (Option.some_ne_none name).symm

theorem find?_symbol (fold : IntegerFold) : SpecialForm.ofName? fold.symbol = none ∧
    Operation.find? fold.symbol = some ⟨fold.symbol, fold.operation, .fold⟩ := by
  cases fold <;> exact ⟨by decide, rfl⟩

theorem ofForm_form (fold : IntegerFold) {xs : List Form} {i j : Int64} {is : List Int64}
    (hxs : List.Forall₂ (fun x i => ∃ loc, x = .atom loc (.number (.integer i))) xs (i :: j :: is))
    (scope : Expr.Scope) (loc headLoc : Location) :
    (Expr.ofForm scope (fold.form loc headLoc xs)).result =
      .ok ((j :: is).foldl (fun e k => .operation loc fold.operation [e, .literal (.integer k)])
        (.literal (.integer i))) := by
  have hes : List.Forall₂ (fun x e => (Expr.ofForm scope x).result = .ok e) xs
      ((i :: j :: is).map fun k => .literal (.integer k)) := by
    rw [List.forall₂_map_right_iff]
    refine hxs.imp fun x k hx => ?_
    obtain ⟨loc, rfl⟩ := hx
    rfl
  cases hes with
  | @cons x _ xs _ hx hes =>
    cases hes with
    | @cons y _ xs _ hy hes =>
      have hrest := Report.result_forEach (.cons hy hes)
      rw [Report.result_eq_ok_iff] at hx hrest ⊢
      rw [form, Expr.toOption_ofForm_call, Expr.callByName, fold.find?_symbol.1,
        fold.find?_symbol.2]
      simp [Expr.operationCall, Report.toOption_bind, hx, hrest, List.foldl_map]

end IntegerFold

namespace Machine

open Builtin (foldValues)

variable {limit : Nat} {c : Context} {top : Bool} {l r : Expr} {w u w' : World} {loc : Location}
  {op : Operation}

theorem ends_literal (d : Datum) :
    (Task.evaluate c top (.literal d)).Ends limit w (.value d.toValue) w :=
  ⟨nofun, 1, rfl⟩

theorem ends_operation {x y : Value} {result : Except Fault Value}
    (hop : operate op [x, y] = Run.ofExcept result)
    (hl : (Task.evaluate c false l).Ends limit w (.value x) u)
    (hr : (Task.evaluate c false r).Ends limit u (.value y) w') :
    (Task.evaluate c top (.operation loc op [l, r])).Ends limit w (.ofExcept result) w' := by
  obtain ⟨n, hl⟩ := hl.eventually
  obtain ⟨n', hr⟩ := hr.eventually
  let fuel := max n n'
  have hl : evaluate (perform limit fuel) c l w = (.value x, u) := hl fuel (Nat.le_max_left n n')
  have hr : evaluate (perform limit fuel) c r u = (.value y, w') := hr fuel (Nat.le_max_right n n')
  have hlast : evaluateAll (perform limit fuel) c [r] u = (.value [y], w') :=
    Run.bind_of_value hr
  have hoperands : evaluateAll (perform limit fuel) c [l, r] w = (.value [x, y], w') :=
    (Run.bind_of_value hl).trans (Run.bind_of_value hlast)
  have hresult : operate op [x, y] w' = (.ofExcept result, w') := by
    rw [hop, Run.ofExcept_apply]
  exact Task.ends_iff_step.mpr
    ⟨Outcome.ofExcept_ne_exhausted result, fuel, (Run.bind_of_value hoperands).trans hresult⟩

theorem ends_operation_of_fault {f : Fault} {operands : List Expr}
    (hl : (Task.evaluate c false l).Ends limit w (.fault f) w') :
    (Task.evaluate c top (.operation loc op (l :: operands))).Ends limit w (.fault f) w' := by
  obtain ⟨ho, fuel, hl⟩ := hl
  have hl : evaluate (perform limit fuel) c l w = (.fault f, w') := hl
  have hoperands : evaluateAll (perform limit fuel) c (l :: operands) w = (.fault f, w') :=
    Run.bind_of_fault hl
  exact Task.ends_iff_step.mpr ⟨ho, fuel, Run.bind_of_fault hoperands⟩

-- The induction goes from the innermost node outward; a fault below goes through all nodes above.
theorem ends_foldl_operation (fold : IntegerFold) (js : List Int64) {e : Expr}
    {before : Except Fault Value}
    (he : ∀ top, (Task.evaluate c top e).Ends limit w (.ofExcept before) w) :
    (Task.evaluate c top
      (js.foldl (fun e k => .operation loc fold.operation [e, .literal (.integer k)]) e)).Ends limit
        w (.ofExcept (before >>= fun v => foldValues fold.onValues v (js.map .integer))) w := by
  induction js generalizing e before with
  | nil =>
    have hbefore : (before >>= fun v => foldValues fold.onValues v []) = before := by
      cases before <;> rfl
    rw [List.map_nil, hbefore]
    exact he top
  | cons j js ih =>
    cases before with
    | error f =>
      exact @ih _ (.error f) fun _ => ends_operation_of_fault (he false)
    | ok v =>
      exact ih fun _ => ends_operation (fold.operate_operation v _) (he false) (ends_literal _)

/-- A sum, product or difference of two or more integers compiles, and evaluating it ends with the
exact result or an overflow and leaves the world as it is. The core procedures for sums and products
end in the same way on the list of the integers. -/
theorem evaluate_fold_exactly (fold : IntegerFold) {xs : List Form} {is : List Int64}
    (hlength : 2 ≤ is.length)
    (hxs : List.Forall₂ (fun x i => ∃ loc, x = .atom loc (.number (.integer i))) xs is)
    (scope : Expr.Scope) (loc headLoc : Location) :
    ∃ e o, (Expr.ofForm scope (fold.form loc headLoc xs)).result = .ok e ∧ fold.Exactly is o ∧
      (∀ limit c top w, (Task.evaluate c top e).Ends limit w o w) ∧
      ∀ name, fold.procedure? = some name →
        ∃ p, Module.core.definition? name = some (.procedure p) ∧
          ∀ limit depth w, (Task.call depth p [.list (is.map .integer)]).Ends limit w o w := by
  obtain ⟨i, rest, rfl⟩ := List.exists_cons_of_length_pos (Nat.lt_of_lt_of_le Nat.two_pos hlength)
  obtain ⟨j, is, rfl⟩ := List.exists_cons_of_length_pos (Nat.le_of_succ_le_succ hlength)
  refine ⟨_, _, fold.ofForm_form hxs scope loc headLoc, fold.exactly_foldValues i (j :: is), ?_, ?_⟩
  · intro limit c top w
    have hfirst : ∀ top, (Task.evaluate c top (.literal (.integer i))).Ends limit w
        (.ofExcept (.ok (.integer i))) w := fun _ => ends_literal _
    exact ends_foldl_operation fold (j :: is) hfirst
  · intro name hname
    obtain ⟨b, hb, hinvoke⟩ := fold.invoke_procedure hname i (j :: is)
    exact ⟨_, hb, fun limit depth w => Task.ends_of_step_eq fun machine => hinvoke _⟩

theorem evaluate_fold_exactly_overflow :
    let is : List Int64 := [9223372036854775807, 1, -1]
    let xs := is.map fun i => Form.atom .unknown (.number (.integer i))
    Integer.Fits (IntegerFold.sum.total (is.map Int64.toInt)) ∧
      ∃ e f, (Expr.ofForm [] (IntegerFold.sum.form .unknown .unknown xs)).result = .ok e ∧
        f.message = utf8 "Integer overflow" ∧
        (Task.evaluate ⟨.main, [], 0⟩ true e).Ends 1000 .fresh (.fault f) .fresh ∧
        ∃ p, Module.core.definition? (utf8 "sum") = some (.procedure p) ∧
          (Task.call 0 p [.list (is.map .integer)]).Ends 1000 .fresh (.fault f) .fresh := by
  intro is xs
  have hxs : List.Forall₂ (fun x i => ∃ loc, x = .atom loc (.number (.integer i))) xs is :=
    .cons ⟨_, rfl⟩ (.cons ⟨_, rfl⟩ (.cons ⟨_, rfl⟩ .nil))
  have hlength : 2 ≤ is.length := by decide
  obtain ⟨e, o, he, hexactly, hends, hprocedure⟩ :=
    evaluate_fold_exactly .sum hlength hxs [] .unknown .unknown
  have htwo : ¬ Integer.Fits (IntegerFold.sum.total ([9223372036854775807, 1].map Int64.toInt)) :=
    by decide
  obtain ⟨f, rfl, hf, -⟩ := hexactly.overflow ⟨_, ⟨[-1], rfl⟩, by simp, htwo⟩
  obtain ⟨p, hp, hcall⟩ := hprocedure (utf8 "sum") rfl
  exact ⟨by decide, e, f, he, hf, hends _ _ _ _, p, hp, hcall _ _ _⟩

end Machine
end ClauseLisp
