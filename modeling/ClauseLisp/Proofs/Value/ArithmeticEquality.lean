import ClauseLisp.Proofs.Value.Equality

/-! The two equalities of values. Arithmetic equality compares numbers by value wherever they stand,
except in the keys of maps, which structural equality compares. It holds wherever structural
equality does, and nowhere else unless floats are involved. -/

namespace ClauseLisp.Value

variable {x y : Value}

theorem arithEqual_eq (x y : Value) :
    arithEqual x y = (numbersEqual? x y).getD (layerEqual equal arithEqual x y) := by
  have hstep : Descends fun eq x y => (numbersEqual? x y).getD (layerEqual equal eq x y) := by
    intro eq eq' x y h
    have hlayer : layerEqual equal eq x y = layerEqual equal eq' x y :=
      layerEqual_congr fun a b hlt => ⟨rfl, h a b hlt⟩
    exact congrArg (numbersEqual? x y).getD hlayer
  refine hstep.unbounded_eq (fun n x y => ?_) x y
  rw [arithEqualWithin]
  cases numbersEqual? x y <;> rfl

section Numbers

variable {keyEq eq : Value → Value → Bool} {b : Bool}

theorem numbersEqual?_of_layerEqual (hb : numbersEqual? x y = some b)
    (h : layerEqual keyEq eq x y = true) : b = true := by
  cases x with
  | integer i =>
    cases y with
    | integer j => exact (Option.some.inj hb) ▸ h
    | _ => exact Bool.noConfusion h
  | float d =>
    cases y with
    | float e => exact (Option.some.inj hb) ▸ h
    | _ => exact Bool.noConfusion h
  | _ => cases hb

theorem layerEqual_of_numbersEqual? (hx : x.kind ≠ .float) (hy : y.kind ≠ .float)
    (h : numbersEqual? x y = some true) : layerEqual keyEq eq x y = true := by
  cases x with
  | integer i =>
    cases y with
    | integer j => exact Option.some.inj h
    | float e => exact absurd rfl hy
    | _ => cases h
  | float d => exact absurd rfl hx
  | _ => cases h

end Numbers

section Floats

def floatFree (v : Value) : Bool := v.everywhere fun u => u.kind != .float

theorem kind_ne_of_floatFree (hx : x.floatFree = true) : x.kind ≠ .float := by
  cases x with
  | float d => exact Bool.noConfusion hx
  | _ => simp [kind]

theorem Part.floatFree {keyEq : Value → Value → Bool} {a b : Value} (h : Part keyEq x y a b)
    (hx : x.floatFree = true) (hy : y.floatFree = true) :
    a.floatFree = true ∧ b.floatFree = true := by
  cases h with
  | list ha hb => exact ⟨(everywhere_list.mp hx).2 _ ha, (everywhere_list.mp hy).2 _ hb⟩
  | tuple ha hb => exact ⟨(everywhere_tuple.mp hx).2 _ ha, (everywhere_tuple.mp hy).2 _ hb⟩
  | @map xs ys e hlength he =>
    have hvalue : e.2.floatFree = true := ((everywhere_map.mp hx).2 e he).2
    -- The values of the first map stand on the right, and those of the second one on the left.
    rcases lookupBy_cases keyEq ys e.1 with hnil | ⟨f, hf, -, hfound⟩
    · rw [hnil]
      exact ⟨rfl, hvalue⟩
    · rw [hfound]
      exact ⟨((everywhere_map.mp hy).2 f hf).2, hvalue⟩

end Floats

theorem arithEqual_of_equal (x y : Value) : x.equal y = true → x.arithEqual y = true := by
  -- The induction goes into both values at once, since their sides change below maps.
  induction x, y using part_induction equal with
  | step x y ih =>
    intro h
    rw [equal_eq] at h
    rw [arithEqual_eq]
    cases hnumbers : numbersEqual? x y with
    | some b => exact numbersEqual?_of_layerEqual hnumbers h
    | none => exact layerEqual_mono ih h

theorem equal_of_arithEqual (x y : Value) : x.floatFree = true → y.floatFree = true →
    x.arithEqual y = true → x.equal y = true := by
  induction x, y using part_induction equal with
  | step x y ih =>
    intro hx hy h
    rw [arithEqual_eq] at h
    rw [equal_eq]
    cases hnumbers : numbersEqual? x y with
    | some b =>
      rw [hnumbers] at h
      obtain rfl : b = true := h
      exact layerEqual_of_numbersEqual? (kind_ne_of_floatFree hx) (kind_ne_of_floatFree hy) hnumbers
    | none =>
      rw [hnumbers] at h
      refine layerEqual_mono (fun a b hab => ?_) h
      obtain ⟨ha, hb⟩ := hab.floatFree hx hy
      exact ih a b hab ha hb

/-- Values that are equal are arithmetically equal, and values without floats that are
arithmetically equal are equal. -/
theorem equalities_agree (x y : Value) :
    (x.equal y = true → x.arithEqual y = true) ∧
      (x.floatFree = true → y.floatFree = true → x.arithEqual y = true → x.equal y = true) :=
  ⟨arithEqual_of_equal x y, equal_of_arithEqual x y⟩

theorem equalities_agree_nested :
    let key := map [(tag (utf8 "k"), integer 1)]
    let x := map [(key, list [integer 2]), (integer 3, tuple [nil])]
    let y := map [(integer 3, tuple [nil]), (key, list [integer 2])]
    let z := map [(integer 3, tuple [nil]), (key, list [float ⟨0x4000000000000000⟩])]
    x.floatFree = true ∧ y.floatFree = true ∧ x.equal y = true ∧ x.arithEqual y = true ∧
      x.arithEqual z = true ∧ x.equal z = false := by
  intro key x y z
  have hx : x.floatFree = true := by decide
  have hy : y.floatFree = true := by decide
  have hequal : x.equal y = true := by decide
  have harith : x.arithEqual y = true := (equalities_agree x y).1 hequal
  exact ⟨hx, hy, (equalities_agree x y).2 hx hy harith, harith, by decide, by decide⟩

end ClauseLisp.Value
