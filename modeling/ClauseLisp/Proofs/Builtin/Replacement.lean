import ClauseLisp.Proofs.Builtin.Computed
import ClauseLisp.Proofs.Value.Replacement

/-! Builtin procedures, operations and patterns on values whose procedures were replaced: what they
give is what they gave before, with the procedures replaced. -/

namespace ClauseLisp

open Value (replace replaceEntry)

variable {f : Procedure → Procedure}

def ValueFrame.replace (f : Procedure → Procedure) (frame : ValueFrame) : ValueFrame :=
  frame.map fun b => (b.1, b.2.replace f)

theorem ValueFrame.lookup_replace (frame : ValueFrame) (name : Bytes) :
    (ValueFrame.replace f frame).lookup name = (frame.lookup name).map (Value.replace f) := by
  induction frame with
  | nil => rfl
  | cons b frame ih =>
    obtain ⟨key, v⟩ := b
    simp only [ValueFrame.replace, List.map_cons, List.lookup_cons] at ih ⊢
    split
    · rfl
    · exact ih

namespace Pattern

mutual

theorem match?_replace (hf : Procedure.Faithful f) (p : Pattern) (v : Value) (frame : ValueFrame) :
    match? p (v.replace f) (ValueFrame.replace f frame) =
      (match? p v frame).map (ValueFrame.replace f) := by
  match p with
  | .variable name => rfl
  | .wildcard => rfl
  | .literal d =>
    have hsame := Value.equal_replace hf d.toValue v
    rw [Value.replace_toValue] at hsame
    rw [match?, match?, hsame]
    split <;> rfl
  | .list ps none =>
    cases v with
    | list vs =>
      rw [Value.replace_list, match?, match?]
      exact matchAll?_replace hf ps vs frame
    | _ => rfl
  | .list ps (some rest) =>
    cases v with
    | list vs =>
      rw [Value.replace_list, match?, match?, List.length_map, ← List.map_take, ← List.map_drop,
        matchAll?_replace hf ps]
      split
      · rfl
      · cases matchAll? ps (vs.take ps.length) frame with
        | none => rfl
        | some inner =>
          have hrest := match?_replace hf rest (.list (vs.drop ps.length)) inner
          rw [Value.replace_list] at hrest
          exact hrest
    | _ => rfl
  | .tuple ps =>
    cases v with
    | tuple vs =>
      rw [Value.replace_tuple, match?, match?]
      exact matchAll?_replace hf ps vs frame
    | _ => rfl

theorem matchAll?_replace (hf : Procedure.Faithful f) (ps : List Pattern) (vs : List Value)
    (frame : ValueFrame) :
    matchAll? ps (vs.map (replace f)) (ValueFrame.replace f frame) =
      (matchAll? ps vs frame).map (ValueFrame.replace f) := by
  match ps, vs with
  | [], [] => rfl
  | [], _ :: _ => rfl
  | _ :: _, [] => rfl
  | p :: ps, v :: vs =>
    rw [List.map_cons, matchAll?, matchAll?, match?_replace hf p v frame]
    cases match? p v frame with
    | none => rfl
    | some inner => exact matchAll?_replace hf ps vs inner

end

end Pattern

namespace Builtin

open Value

theorem getLastD_map_replace (xs : List Value) :
    (xs.map (replace f)).getLastD .nil = (xs.getLastD .nil).replace f := by
  rw [List.getLastD_eq_getLast?, List.getLastD_eq_getLast?, List.getLast?_map]
  cases xs.getLast? <;> rfl

theorem takeCount_replace (xs : List Value) (n : Int64) :
    takeCount (xs.map (replace f)) n = (takeCount xs n).map (replace f) := by
  unfold takeCount clampedCount
  rw [List.length_map]
  split
  · rw [List.map_take]
  · rw [List.map_drop]

theorem dropCount_replace (xs : List Value) (n : Int64) :
    dropCount (xs.map (replace f)) n = (dropCount xs n).map (replace f) := by
  unfold dropCount clampedCount
  rw [List.length_map]
  split
  · rw [List.map_drop]
  · rw [List.map_take]

theorem nthElement_replace (xs : List Value) (n : Int64) :
    nthElement (xs.map (replace f)) n = replaced f (replace f) (nthElement xs n) := by
  unfold nthElement
  split
  · rfl
  · rw [List.getD_eq_getElem?_getD, List.getElem?_map, List.getD_eq_getElem?_getD]
    cases xs[n.toInt.toNat]? <;> rfl

theorem map_replace_rangeOf (a b : Int64) : (rangeOf a b).map (replace f) = rangeOf a b := by
  obtain ⟨is, -, hrange⟩ := exists_counts_rangeOf a b
  rw [hrange, List.map_map]
  rfl

theorem replaced_gcdOf (x y : Int64) : replaced f (replace f) (gcdOf x y) = gcdOf x y := by
  simp only [gcdOf]
  split <;> rfl

theorem repeatedValue_replace (v : Value) (n : Int64) :
    repeatedValue (v.replace f) n = replaced f (replace f) (repeatedValue v n) := by
  unfold repeatedValue
  split
  · rfl
  · split
    · rfl
    · show _ = Except.ok _
      rw [replace_list, List.map_replicate]

mutual

theorem flattenValue_replace (v : Value) :
    flattenValue (v.replace f) = (flattenValue v).map (replace f) := by
  match v with
  | .list xs => rw [Value.replace, flattenValue, flattenValue, flattenAll_replaceAll xs]
  | .tuple _ | .map _ | .procedure _ => rfl
  | .nil | .boolean _ | .integer _ | .float _ | .string _ | .tag _ => rfl

theorem flattenAll_replaceAll (xs : List Value) :
    flattenAll (replaceAll f xs) = (flattenAll xs).map (replace f) := by
  match xs with
  | [] => rfl
  | x :: xs =>
    rw [replaceAll, flattenAll, flattenAll, List.map_append, flattenValue_replace x,
      flattenAll_replaceAll xs]

end

theorem flattenAll_replace (xs : List Value) :
    flattenAll (xs.map (replace f)) = (flattenAll xs).map (replace f) := by
  rw [← replaceAll_eq_map, flattenAll_replaceAll]

theorem distinctFrom_replace (hf : Procedure.Faithful f) (seen xs : List Value) :
    distinctFrom (seen.map (replace f)) (xs.map (replace f)) =
      (distinctFrom seen xs).map (replace f) := by
  induction xs generalizing seen with
  | nil => rfl
  | cons x xs ih =>
    rw [List.map_cons, distinctFrom, distinctFrom, List.any_map]
    simp only [Function.comp_def, equal_replace hf]
    split
    · exact ih seen
    · rw [← ih, List.map_append, List.map_singleton]

theorem sorted_replace (xs : List Value) :
    sorted (xs.map (replace f)) = replaced f (List.map (replace f)) (sorted xs) := by
  have hprecedes (x y : Value) :
      precedes (x.replace f) (y.replace f) = (precedes x y).mapError (Fault.replace f) := by
    unfold precedes
    rw [order_replace]
    cases x.order y <;> rfl
  rw [sorted, ← Comparing.rename_sort, Comparing.run_rename hprecedes, ← sorted]
  cases sorted xs <;> rfl

theorem interleaved_replace (xs ys : List Value) :
    interleaved (xs.map (replace f)) (ys.map (replace f)) = (interleaved xs ys).map (replace f) := by
  fun_induction interleaved xs ys with
  | case1 ys => simp [interleaved]
  | case2 xs _ => cases xs <;> simp [interleaved]
  | case3 x xs y ys ih => simp [interleaved, ih]

theorem foldValues_replace {combine : Value → Value → Except Fault Value}
    (hcombine : ∀ x y, combine (x.replace f) (y.replace f) = replaced f (replace f) (combine x y))
    (v : Value) (xs : List Value) :
    foldValues combine (v.replace f) (xs.map (replace f)) =
      replaced f (replace f) (foldValues combine v xs) := by
  induction xs generalizing v with
  | nil => rfl
  | cons x xs ih =>
    rw [List.map_cons, foldValues, foldValues, hcombine]
    exact replaced_bind _ ih

theorem replaced_squareRootOf (d : Binary64) :
    replaced f (replace f) (squareRootOf d) = squareRootOf d := by
  unfold squareRootOf
  split <;> rfl

theorem absoluteOf_replace (v : Value) :
    absoluteOf (v.replace f) = replaced f (replace f) (absoluteOf v) := by
  cases v with
  | integer i =>
    show (if i < 0 then _ else _) = replaced f (replace f) (if i < 0 then _ else _)
    split
    · exact negate_replace (.integer i)
    · rfl
  | _ => rfl

theorem maximumOf_replace (x y : Value) :
    maximumOf (x.replace f) (y.replace f) = replaced f (replace f) (maximumOf x y) := by
  unfold maximumOf
  rw [order_replace]
  refine replaced_map _ fun o => ?_
  dsimp only [id]
  split <;> rfl

theorem minimumOf_replace (x y : Value) :
    minimumOf (x.replace f) (y.replace f) = replaced f (replace f) (minimumOf x y) := by
  unfold minimumOf
  rw [order_replace]
  refine replaced_map _ fun o => ?_
  dsimp only [id]
  split <;> rfl

theorem integerOf_replace (v : Value) :
    integerOf (v.replace f) = replaced f (replace f) (integerOf v) := by
  cases v with
  | string s =>
    show integerOf (.string s) = _
    unfold integerOf
    dsimp only
    split <;> rfl
  | float d =>
    show integerOf (.float d) = _
    unfold integerOf
    dsimp only
    split <;> rfl
  | _ => rfl

theorem floatOf_replace (v : Value) :
    floatOf (v.replace f) = replaced f (replace f) (floatOf v) := by
  cases v with
  | string s =>
    show floatOf (.string s) = _
    unfold floatOf
    dsimp only
    split <;> rfl
  | _ => rfl

theorem putEntry_replace (hf : Procedure.Faithful f) (es : List (Value × Value)) (key v : Value) :
    putEntry (es.map (replaceEntry f)) (key.replace f) (v.replace f) =
      (putEntry es key v).map (replaceEntry f) := by
  induction es with
  | nil => rfl
  | cons e es ih =>
    obtain ⟨k, u⟩ := e
    rw [List.map_cons, replaceEntry, putEntry, putEntry, equal_replace hf, ih]
    split <;> rfl

theorem putPairs_replace (hf : Procedure.Faithful f) (es : List (Value × Value))
    (args : List Value) :
    putPairs (es.map (replaceEntry f)) (args.map (replace f)) =
      (putPairs es args).map (replaceEntry f) := by
  fun_induction putPairs es args with
  | case1 es key v more ih =>
    rw [List.map_cons, List.map_cons, putPairs, putEntry_replace hf, ih]
  | case2 args es hargs =>
    match args with
    | [] => rfl
    | [_] => rfl
    | key :: v :: more => exact absurd rfl (hargs key v more)

theorem hashMapOf_replace (hf : Procedure.Faithful f) (args : List Value) :
    hashMapOf (args.map (replace f)) = replaced f (replace f) (hashMapOf args) := by
  have hpairs := putPairs_replace hf [] args
  unfold hashMapOf
  rw [List.length_map]
  split
  · show Except.ok (Value.map _) = Except.ok (Value.replace f (.map _))
    rw [Value.replace_map, ← hpairs, List.map_nil]
  · rfl

theorem getFrom_replace (hf : Procedure.Faithful f) (container key : Value) :
    getFrom (container.replace f) (key.replace f) =
      replaced f (replace f) (getFrom container key) := by
  cases container with
  | map es =>
    rw [Value.replace_map]
    exact congrArg Except.ok (lookup_replace hf es key)
  | _ => rfl

theorem compute_unary_replace (hf : Procedure.Faithful f) (b : Builtin) (v : Value) :
    b.compute [v.replace f] = replaced f (replace f) (b.compute [v]) := by
  have hlist := v.expectList_replace (f := f)
  have hnumber := v.expectNumber_replace (f := f)
  have hinteger := v.expectInteger_replace (f := f)
  cases b with
  | first => exact head_replace v
  | rest => exact tail_replace v
  | second =>
    simp only [compute, tail_replace]
    exact replaced_bind _ head_replace
  | third =>
    simp only [compute, tail_replace]
    refine replaced_bind _ fun u => ?_
    rw [tail_replace]
    exact replaced_bind _ head_replace
  | last =>
    simp only [compute, hlist]
    exact replaced_map _ getLastD_map_replace
  | reverse =>
    simp only [compute, hlist]
    exact replaced_map _ fun xs => by rw [replace_list, List.map_reverse]
  | length =>
    simp only [compute, hlist]
    exact replaced_map _ fun xs => by rw [List.length_map]; rfl
  | flatten =>
    simp only [compute, hlist]
    exact replaced_map _ fun xs => by rw [replace_list, flattenAll_replace]
  | distinct =>
    simp only [compute, hlist]
    exact replaced_map _ fun xs => by rw [replace_list, ← distinctFrom_replace hf, List.map_nil]
  | sort =>
    simp only [compute, hlist]
    refine replaced_bind _ fun xs => ?_
    rw [sorted_replace]
    exact replaced_map _ fun ys => by rw [replace_list]
  | sum =>
    simp only [compute, hlist]
    exact replaced_bind _ (foldValues_replace (fun x y => arithmetic_replace x y _ _) (.ofNat 0))
  | product =>
    simp only [compute, hlist]
    exact replaced_bind _ (foldValues_replace (fun x y => arithmetic_replace x y _ _) (.ofNat 1))
  | increment => exact arithmetic_replace v (.ofNat 1) _ _
  | decrement => exact arithmetic_replace v (.ofNat 1) _ _
  | square => exact arithmetic_replace v v _ _
  | cube =>
    simp only [compute, multiply, arithmetic_replace]
    exact replaced_bind _ fun u => arithmetic_replace u v _ _
  | squareRoot =>
    simp only [compute, hnumber]
    exact replaced_bind _ fun d => (replaced_squareRootOf d).symm
  | absolute => exact absoluteOf_replace v
  | isEven | isOdd =>
    simp only [compute, hinteger]
    exact replaced_map _ fun i => rfl
  | isZero | isPositive | isNegative =>
    simp only [compute, hnumber]
    exact replaced_map _ fun d => rfl
  | isFunction | isNil | isList | isString =>
    simp only [compute, kind_replace]
    rfl
  | isAtom =>
    simp only [compute, isAtom_replace]
    rfl
  | isNumber =>
    simp only [compute, isNumber_replace]
    rfl
  | isEmpty =>
    simp only [compute, isEmpty_replace]
    exact replaced_map _ fun b => rfl
  | toText =>
    simp only [compute, display_replace hf]
    rfl
  | toInteger => exact integerOf_replace v
  | toFloat => exact floatOf_replace v
  | textLength =>
    simp only [compute, expectString_replace]
    exact replaced_map _ fun s => rfl
  | keys =>
    simp only [compute, expectMap_replace]
    refine replaced_map _ fun es => ?_
    rw [replace_list, List.map_map, List.map_map]
    rfl
  | _ => rfl

theorem compute_binary_replace (hf : Procedure.Faithful f) (b : Builtin) (x y : Value) :
    b.compute [x.replace f, y.replace f] = replaced f (replace f) (b.compute [x, y]) := by
  cases b with
  | cons => exact cons_replace x y
  | nth =>
    simp only [compute, expectList_replace, expectInteger_replace]
    exact replaced_bind _ fun xs => replaced_bind _ fun n => nthElement_replace xs n
  | take =>
    simp only [compute, expectList_replace, expectInteger_replace]
    exact replaced_bind _ fun xs => replaced_map _ fun n => by
      rw [replace_list, ← takeCount_replace]; rfl
  | drop =>
    simp only [compute, expectList_replace, expectInteger_replace]
    exact replaced_bind _ fun xs => replaced_map _ fun n => by
      rw [replace_list, ← dropCount_replace]; rfl
  | append =>
    simp only [compute, expectList_replace]
    exact replaced_bind _ fun xs => replaced_map _ fun ys => by rw [replace_list, List.map_append]
  | range =>
    simp only [compute, expectInteger_replace]
    exact replaced_bind _ fun i => replaced_map _ fun j => by
      rw [replace_list, map_replace_rangeOf]; rfl
  | repeated =>
    simp only [compute, expectInteger_replace]
    exact replaced_bind _ fun n => repeatedValue_replace x n
  | zip =>
    simp only [compute, expectList_replace]
    refine replaced_bind _ fun xs => replaced_map _ fun ys => ?_
    rw [replace_list, List.zip_map, List.map_map, List.map_map]
    rfl
  | interleave =>
    simp only [compute, expectList_replace]
    exact replaced_bind _ fun xs => replaced_map _ fun ys => by
      rw [replace_list, interleaved_replace]
  | power =>
    simp only [compute, expectNumber_replace]
    exact replaced_bind _ fun d => replaced_map _ fun e => rfl
  | maximum => exact maximumOf_replace x y
  | minimum => exact minimumOf_replace x y
  | gcd =>
    simp only [compute, expectInteger_replace]
    exact replaced_bind _ fun i => replaced_bind _ fun j => (replaced_gcdOf i j).symm
  | hashMap => exact hashMapOf_replace hf [x, y]
  | get => exact getFrom_replace hf x y
  | _ => rfl

theorem compute_replace (hf : Procedure.Faithful f) (b : Builtin) (args : List Value) :
    b.compute (args.map (replace f)) = replaced f (replace f) (b.compute args) := by
  -- Only `hashMap` takes any number of arguments.
  match args with
  | [] =>
    cases b with
    | hashMap => exact hashMapOf_replace hf []
    | _ => rfl
  | [v] => exact compute_unary_replace hf b v
  | [x, y] => exact compute_binary_replace hf b x y
  | [x, y, z] =>
    cases b with
    | hashMap => exact hashMapOf_replace hf [x, y, z]
    | put =>
      simp only [List.map_cons, List.map_nil, compute, expectMap_replace]
      exact replaced_map _ fun es => by rw [Value.replace_map, putEntry_replace hf]
    | _ => rfl
  | x :: y :: z :: u :: more =>
    cases b with
    | hashMap => exact hashMapOf_replace hf (x :: y :: z :: u :: more)
    | _ => rfl

end Builtin

namespace Machine

open Value

theorem joinDisplays_replace (hf : Procedure.Faithful f) (separator : Bytes) (vs : List Value) :
    joinDisplays separator (vs.map (replace f)) = joinDisplays separator vs := by
  unfold joinDisplays
  rw [List.map_map]
  exact congrArg _ (List.map_congr_left fun v _ => display_replace hf v)

theorem ordered_replace (x y : Value) (accepted : Ordering → Bool) :
    ordered (x.replace f) (y.replace f) accepted =
      replaced f (replace f) (ordered x y accepted) := by
  unfold ordered
  rw [order_replace]
  exact replaced_bind _ fun o => rfl

theorem operation_binary_replace (hf : Procedure.Faithful f) (op : Operation) (x y : Value) :
    compute op [x.replace f, y.replace f] = replaced f (replace f) (compute op [x, y]) := by
  cases op with
  | add | subtract | multiply => exact arithmetic_replace x y _ _
  | divide => exact divide_replace x y
  | remainder => exact remainder_replace x y
  | less | greater | atMost | atLeast => exact ordered_replace x y _
  | equal | notEqual =>
    simp only [compute, arithEqual_replace hf]
    rfl
  | cons => exact cons_replace x y
  | str => exact congrArg (fun s => Except.ok (Value.string s)) (joinDisplays_replace hf [] [x, y])
  | lookup => exact Builtin.getFrom_replace hf x y
  | _ => rfl

theorem operation_unary_replace (hf : Procedure.Faithful f) (op : Operation) (x : Value) :
    compute op [x.replace f] = replaced f (replace f) (compute op [x]) := by
  cases op with
  | negate => exact negate_replace x
  | not =>
    simp only [compute, truthy_replace]
    rfl
  | head => exact head_replace x
  | tail => exact tail_replace x
  | isNil | isList | isString =>
    simp only [compute, kind_replace]
    rfl
  | isEmpty =>
    simp only [compute, isEmpty_replace]
    exact replaced_bind _ fun b => rfl
  | isAtom =>
    simp only [compute, isAtom_replace]
    rfl
  | isNumber =>
    simp only [compute, isNumber_replace]
    rfl
  | str => exact congrArg (fun s => Except.ok (Value.string s)) (joinDisplays_replace hf [] [x])
  | _ => rfl

theorem compute_replace (hf : Procedure.Faithful f) (op : Operation) (args : List Value) :
    compute op (args.map (replace f)) = replaced f (replace f) (compute op args) := by
  have hstr := joinDisplays_replace hf [] args
  match args with
  | [x] => exact operation_unary_replace hf op x
  | [x, y] => exact operation_binary_replace hf op x y
  | [] | _ :: _ :: _ :: _ =>
    cases op with
    | str => exact congrArg (fun s => Except.ok (Value.string s)) hstr
    | _ => rfl

end Machine
end ClauseLisp
