import ClauseLisp.Builtin.Compute
import ClauseLisp.Pattern.Match

/-! Replacing the procedures inside values. Values are not asked for more of a procedure than its
identity and its name. So where procedures are replaced by others with the same identity and name,
values are still equal or not, ordered, matched and written as before. -/

namespace ClauseLisp

/-- Replacing keeps what can be seen of a procedure. -/
structure Procedure.Faithful (f : Procedure → Procedure) : Prop where
  identity : ∀ p, (f p).identity = p.identity
  name : ∀ p, (f p).name = p.name

namespace Value

mutual

def replace (f : Procedure → Procedure) : Value → Value
  | list xs => list (replaceAll f xs)
  | tuple xs => tuple (replaceAll f xs)
  | map es => map (replaceEntries f es)
  | procedure p => procedure (f p)
  | v => v

def replaceAll (f : Procedure → Procedure) : List Value → List Value
  | [] => []
  | x :: xs => replace f x :: replaceAll f xs

def replaceEntries (f : Procedure → Procedure) : List (Value × Value) → List (Value × Value)
  | [] => []
  | (k, v) :: es => (replace f k, replace f v) :: replaceEntries f es

end

def replaceEntry (f : Procedure → Procedure) (e : Value × Value) : Value × Value :=
  (replace f e.1, replace f e.2)

end Value

def Fault.replace (f : Procedure → Procedure) : Fault → Fault
  | .noChoice loc v => .noChoice loc (v.replace f)
  | .noClause name args => .noClause name (args.map (Value.replace f))
  | e => e

def replaced {α β : Type} (f : Procedure → Procedure) (g : α → β) :
    Except Fault α → Except Fault β
  | .ok a => .ok (g a)
  | .error e => .error (e.replace f)

theorem replaced_bind {α β γ δ : Type} {f : Procedure → Procedure} {g : α → β} {h : γ → δ}
    (x : Except Fault α) {k : α → Except Fault γ} {k' : β → Except Fault δ}
    (hk : ∀ a, k' (g a) = replaced f h (k a)) :
    replaced f g x >>= k' = replaced f h (x >>= k) := by
  cases x with
  | ok a => exact hk a
  | error e => rfl

theorem replaced_map {α β γ δ : Type} {f : Procedure → Procedure} {g : α → β} {h : γ → δ}
    (x : Except Fault α) {k : α → γ} {k' : β → δ} (hk : ∀ a, k' (g a) = h (k a)) :
    replaced f g x >>= (fun b => pure (k' b)) = replaced f h (x >>= fun a => pure (k a)) :=
  replaced_bind x fun a => congrArg Except.ok (hk a)

theorem replaced_congr {α β γ : Type} {f : Procedure → Procedure} {g : α → β} {ρ : γ → γ}
    {k : γ → Except Fault α} {k' : γ → Except Fault β} (hk : ∀ c, k' (ρ c) = replaced f g (k c))
    {c c' : γ} (h : ρ c = ρ c') : replaced f g (k c) = replaced f g (k c') := by
  rw [← hk, h, hk]

namespace Value

variable {f : Procedure → Procedure}

theorem replaceAll_eq_map (xs : List Value) : replaceAll f xs = xs.map (replace f) := by
  induction xs with
  | nil => rfl
  | cons x xs ih => rw [replaceAll, ih, List.map_cons]

theorem replaceEntries_eq_map (es : List (Value × Value)) :
    replaceEntries f es = es.map (replaceEntry f) := by
  induction es with
  | nil => rfl
  | cons e es ih => rw [replaceEntries, ih, List.map_cons, replaceEntry]

theorem replace_list (xs : List Value) : (list xs).replace f = list (xs.map (replace f)) := by
  rw [replace, replaceAll_eq_map]

theorem replace_tuple (xs : List Value) : (tuple xs).replace f = tuple (xs.map (replace f)) := by
  rw [replace, replaceAll_eq_map]

theorem replace_map (es : List (Value × Value)) :
    (map es).replace f = map (es.map (replaceEntry f)) := by
  rw [replace, replaceEntries_eq_map]

@[simp] theorem kind_replace (v : Value) : (v.replace f).kind = v.kind := by
  cases v <;> rfl

@[simp] theorem truthy_replace (v : Value) : (v.replace f).truthy = v.truthy := by
  cases v <;> rfl

@[simp] theorem isNumber_replace (v : Value) : (v.replace f).isNumber = v.isNumber := by
  cases v <;> rfl

@[simp] theorem isAtom_replace (v : Value) : (v.replace f).isAtom = v.isAtom := by
  cases v <;> rfl

mutual

@[simp] theorem height_replace (v : Value) : (v.replace f).height = v.height := by
  match v with
  | .list xs | .tuple xs => rw [replace, height, height, heightAll_replaceAll xs]
  | .map es => rw [replace, height, height, heightEntries_replaceEntries es]
  | .procedure p => rfl
  | .nil | .boolean _ | .integer _ | .float _ | .string _ | .tag _ => rfl

theorem heightAll_replaceAll (xs : List Value) : heightAll (replaceAll f xs) = heightAll xs := by
  match xs with
  | [] => rfl
  | x :: xs => rw [replaceAll, heightAll, heightAll, height_replace x, heightAll_replaceAll xs]

theorem heightEntries_replaceEntries (es : List (Value × Value)) :
    heightEntries (replaceEntries f es) = heightEntries es := by
  match es with
  | [] => rfl
  | (k, v) :: es =>
    rw [replaceEntries, heightEntries, heightEntries, height_replace k, height_replace v,
      heightEntries_replaceEntries es]

end

mutual

theorem replace_toValue (d : Datum) : d.toValue.replace f = d.toValue := by
  match d with
  | .nil | .boolean _ | .integer _ | .float _ | .string _ | .tag _ => rfl
  | .list ds | .tuple ds => rw [Datum.toValue, replace, replaceAll_toValues ds]

theorem replaceAll_toValues (ds : List Datum) :
    replaceAll f (Datum.toValues ds) = Datum.toValues ds := by
  match ds with
  | [] => rfl
  | d :: ds => rw [Datum.toValues, replaceAll, replace_toValue d, replaceAll_toValues ds]

end

section Equality

theorem lookupBy_replace {eq : Value → Value → Bool}
    (heq : ∀ x y, eq (x.replace f) (y.replace f) = eq x y) (es : List (Value × Value))
    (key : Value) :
    lookupBy eq (es.map (replaceEntry f)) (key.replace f) = (lookupBy eq es key).replace f := by
  unfold lookupBy
  rw [List.find?_map]
  simp only [Function.comp_def, replaceEntry, heq]
  cases es.find? fun e => eq e.1 key <;> rfl

theorem pairwise_replace {eq : Value → Value → Bool}
    (heq : ∀ x y, eq (x.replace f) (y.replace f) = eq x y) (xs ys : List Value) :
    pairwise eq (xs.map (replace f)) (ys.map (replace f)) = pairwise eq xs ys := by
  induction xs generalizing ys with
  | nil => cases ys <;> rfl
  | cons x xs ih =>
    cases ys with
    | nil => rfl
    | cons y ys => simp only [List.map_cons, pairwise, heq, ih]

theorem layerEqual_replace (hf : Procedure.Faithful f) {keyEq eq : Value → Value → Bool}
    (hkey : ∀ x y, keyEq (x.replace f) (y.replace f) = keyEq x y)
    (heq : ∀ x y, eq (x.replace f) (y.replace f) = eq x y) (x y : Value) :
    layerEqual keyEq eq (x.replace f) (y.replace f) = layerEqual keyEq eq x y := by
  cases x with
  | list xs =>
    cases y with
    | list ys => simp only [replace_list, layerEqual, pairwise_replace heq]
    | _ => rfl
  | tuple xs =>
    cases y with
    | tuple ys => simp only [replace_tuple, layerEqual, pairwise_replace heq]
    | _ => rfl
  | map xs =>
    cases y with
    | map ys =>
      simp only [replace_map, layerEqual, List.length_map, List.all_map, Function.comp_def]
      simp only [replaceEntry, lookupBy_replace hkey, heq]
    | _ => rfl
  | procedure p =>
    cases y with
    | procedure q => simp only [replace, layerEqual, hf.identity]
    | _ => rfl
  | _ => cases y <;> rfl

theorem equalWithin_replace (hf : Procedure.Faithful f) (n : Nat) (x y : Value) :
    equalWithin n (x.replace f) (y.replace f) = equalWithin n x y := by
  induction n generalizing x y with
  | zero => rfl
  | succ n ih => exact layerEqual_replace hf ih ih x y

theorem equal_replace (hf : Procedure.Faithful f) (x y : Value) :
    (x.replace f).equal (y.replace f) = x.equal y := by
  rw [equal, height_replace, equalWithin_replace hf, equal]

theorem lookup_replace (hf : Procedure.Faithful f) (es : List (Value × Value)) (key : Value) :
    lookup (es.map (replaceEntry f)) (key.replace f) = (lookup es key).replace f :=
  lookupBy_replace (equal_replace hf) es key

theorem numbersEqual?_replace (x y : Value) :
    numbersEqual? (x.replace f) (y.replace f) = numbersEqual? x y := by
  cases x with
  | integer | float => cases y <;> rfl
  | _ => rfl

theorem arithEqualWithin_replace (hf : Procedure.Faithful f) (n : Nat) (x y : Value) :
    arithEqualWithin n (x.replace f) (y.replace f) = arithEqualWithin n x y := by
  induction n generalizing x y with
  | zero => rfl
  | succ n ih =>
    rw [arithEqualWithin, arithEqualWithin, numbersEqual?_replace,
      layerEqual_replace hf (equal_replace hf) ih]

theorem arithEqual_replace (hf : Procedure.Faithful f) (x y : Value) :
    (x.replace f).arithEqual (y.replace f) = x.arithEqual y := by
  rw [arithEqual, height_replace, arithEqualWithin_replace hf, arithEqual]

end Equality

section Text

mutual

theorem text_replace (hf : Procedure.Faithful f) (v : Value) : (v.replace f).text = v.text := by
  match v with
  | .list xs | .tuple xs => rw [replace, text, text, textSpaced_replaceAll hf xs]
  | .map es => rw [replace, text, text, textEntries_replaceEntries hf es]
  | .procedure p => rw [replace, text, text, hf.name]
  | .nil | .boolean _ | .integer _ | .float _ | .string _ | .tag _ => rfl

theorem textSpaced_replaceAll (hf : Procedure.Faithful f) (xs : List Value) :
    textSpaced (replaceAll f xs) = textSpaced xs := by
  match xs with
  | [] => rfl
  | [x] => exact text_replace hf x
  | x :: y :: zs =>
    have hrest := textSpaced_replaceAll hf (y :: zs)
    rw [replaceAll] at hrest
    rw [replaceAll, replaceAll, textSpaced, textSpaced, text_replace hf x, hrest]

theorem textEntries_replaceEntries (hf : Procedure.Faithful f) (es : List (Value × Value)) :
    textEntries (replaceEntries f es) = textEntries es := by
  match es with
  | [] => rfl
  | [(k, v)] =>
    rw [replaceEntries, replaceEntries, textEntries, textEntries, text_replace hf k,
      text_replace hf v]
  | (k, v) :: (k', v') :: es =>
    have hrest := textEntries_replaceEntries hf ((k', v') :: es)
    rw [replaceEntries] at hrest
    rw [replaceEntries, replaceEntries, textEntries, textEntries, text_replace hf k,
      text_replace hf v, hrest]

end

theorem textSpaced_replace (hf : Procedure.Faithful f) (xs : List Value) :
    textSpaced (xs.map (replace f)) = textSpaced xs := by
  rw [← replaceAll_eq_map, textSpaced_replaceAll hf]

theorem display_replace (hf : Procedure.Faithful f) (v : Value) :
    (v.replace f).display = v.display := by
  cases v with
  | list | tuple | map | procedure => exact text_replace hf _
  | _ => rfl

end Text

section Expectations

variable (v : Value)

theorem expectInteger_replace : (v.replace f).expectInteger = replaced f id v.expectInteger := by
  cases v <;> rfl

theorem expectNumber_replace : (v.replace f).expectNumber = replaced f id v.expectNumber := by
  cases v <;> rfl

theorem expectString_replace : (v.replace f).expectString = replaced f id v.expectString := by
  cases v <;> rfl

theorem expectList_replace :
    (v.replace f).expectList = replaced f (List.map (replace f)) v.expectList := by
  cases v with
  | list xs => rw [replace_list]; rfl
  | _ => rfl

theorem expectMap_replace :
    (v.replace f).expectMap = replaced f (List.map (replaceEntry f)) v.expectMap := by
  cases v with
  | map es => rw [replace_map]; rfl
  | _ => rfl

theorem expectProcedure_replace : (v.replace f).expectProcedure = replaced f f v.expectProcedure := by
  cases v <;> rfl

end Expectations

section Arithmetic

variable (x y : Value)

theorem replaced_exact (i : Int) : replaced f (replace f) (exact i) = exact i := by
  unfold exact
  cases Integer.fit? i <;> rfl

theorem arithmetic_replace (onIntegers : Int → Int → Int)
    (onFloats : Binary64 → Binary64 → Binary64) :
    arithmetic onIntegers onFloats (x.replace f) (y.replace f) =
      replaced f (replace f) (arithmetic onIntegers onFloats x y) := by
  cases x with
  | integer i =>
    cases y with
    | integer j => exact (replaced_exact _).symm
    | _ => rfl
  | float d => cases y <;> rfl
  | _ => rfl

theorem divide_replace : (x.replace f).divide (y.replace f) = replaced f (replace f) (x.divide y) := by
  unfold divide
  rw [expectNumber_replace, expectNumber_replace]
  refine replaced_bind _ fun n => replaced_bind _ fun d => ?_
  dsimp only [id]
  split <;> rfl

theorem remainder_replace :
    (x.replace f).remainder (y.replace f) = replaced f (replace f) (x.remainder y) := by
  unfold remainder
  rw [expectInteger_replace, expectInteger_replace]
  refine replaced_bind _ fun i => replaced_bind _ fun j => ?_
  dsimp only [id]
  split
  · rfl
  · exact (replaced_exact _).symm

theorem negate_replace : (x.replace f).negate = replaced f (replace f) x.negate := by
  cases x with
  | integer i => exact (replaced_exact _).symm
  | _ => rfl

theorem order_replace : (x.replace f).order (y.replace f) = replaced f id (x.order y) := by
  cases x with
  | integer | float | string => cases y <;> rfl
  | _ => rfl

end Arithmetic

section Lists

variable (x v : Value)

theorem headD_map_replace (xs : List Value) :
    (xs.map (replace f)).headD nil = (xs.headD nil).replace f := by
  cases xs <;> rfl

theorem head_replace : (v.replace f).head = replaced f (replace f) v.head := by
  unfold head
  rw [expectList_replace]
  exact replaced_map _ headD_map_replace

theorem tail_replace : (v.replace f).tail = replaced f (replace f) v.tail := by
  unfold tail
  rw [expectList_replace]
  exact replaced_map _ fun xs => by rw [replace_list, List.map_tail]

theorem cons_replace : (x.replace f).cons (v.replace f) = replaced f (replace f) (x.cons v) := by
  cases v with
  | list xs =>
    show _ = Except.ok _
    rw [replace_list, replace_list]
    rfl
  | _ => rfl

theorem isEmpty_replace : (v.replace f).isEmpty = replaced f id v.isEmpty := by
  cases v with
  | list xs | tuple xs => cases xs <;> rfl
  | map es => cases es <;> rfl
  | _ => rfl

end Lists

end Value

namespace Fault

variable {f : Procedure → Procedure}

@[simp] theorem isTypeFault_replace (e : Fault) : (e.replace f).isTypeFault = e.isTypeFault := by
  cases e <;> rfl

theorem message_replace (hf : Procedure.Faithful f) (e : Fault) :
    (e.replace f).message = e.message := by
  cases e with
  | noChoice loc v => simp only [replace, message, describe, Value.text_replace hf]
  | noClause name args =>
    simp only [replace, message, describe, List.length_map, Value.textSpaced_replace hf]
  | _ => rfl

end Fault
end ClauseLisp
