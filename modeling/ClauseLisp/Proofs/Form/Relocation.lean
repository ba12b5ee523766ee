import ClauseLisp.Datum
import ClauseLisp.Form.Writer
import ClauseLisp.Proofs.Form.Spelling

/-! Forms at other locations. What a form says does not depend on where it stands: its text and its
datum stay as they are when its locations change. -/

namespace ClauseLisp

namespace Form

mutual

def relocate (m : Location → Location) : Form → Form
  | atom loc a => atom (m loc) a
  | sequence loc b xs => sequence (m loc) b (relocateAll m xs)
  | marked loc k x => marked (m loc) k (relocate m x)

def relocateAll (m : Location → Location) : List Form → List Form
  | [] => []
  | x :: xs => relocate m x :: relocateAll m xs

end

variable (m : Location → Location)

theorem relocateAll_eq_map (xs : List Form) : relocateAll m xs = xs.map (relocate m) := by
  induction xs with
  | nil => rfl
  | cons x xs ih => rw [relocateAll, ih, List.map_cons]

mutual

theorem relocate_id (x : Form) : x.relocate id = x := by
  match x with
  | .atom _ _ => rfl
  | .marked _ _ x => rw [relocate, relocate_id x, id]
  | .sequence _ _ xs => rw [relocate, relocateAll_id xs, id]

theorem relocateAll_id (xs : List Form) : relocateAll id xs = xs := by
  match xs with
  | [] => rfl
  | x :: xs => rw [relocateAll, relocate_id x, relocateAll_id xs]

end

mutual

theorem erase_eq_relocate (x : Form) : x.erase = x.relocate fun _ => .unknown := by
  match x with
  | .atom _ _ => rfl
  | .marked _ _ x => rw [relocate, erase, erase_eq_relocate x]
  | .sequence _ _ xs => rw [relocate, erase, eraseAll_eq_relocateAll xs]

theorem eraseAll_eq_relocateAll (xs : List Form) :
    eraseAll xs = relocateAll (fun _ => .unknown) xs := by
  match xs with
  | [] => rfl
  | x :: xs => rw [relocateAll, eraseAll, erase_eq_relocate x, eraseAll_eq_relocateAll xs]

end

theorem eraseAll_eq_map (xs : List Form) : eraseAll xs = xs.map erase := by
  induction xs with
  | nil => rfl
  | cons x xs ih => rw [eraseAll, ih, List.map_cons]

@[simp] theorem loc_relocate (x : Form) : (x.relocate m).loc = m x.loc := by
  cases x <;> rfl

@[simp] theorem symbol?_relocate (x : Form) : (x.relocate m).symbol? = x.symbol? := by
  cases x with
  | atom loc a => cases a <;> rfl
  | _ => rfl

@[simp] theorem elements?_relocate (x : Form) :
    (x.relocate m).elements? = x.elements?.map (relocateAll m) := by
  cases x <;> rfl

@[simp] theorem kind_relocate (x : Form) : (x.relocate m).kind = x.kind := by
  cases x <;> rfl

mutual

@[simp] theorem height_relocate (x : Form) : (x.relocate m).height = x.height := by
  match x with
  | .atom _ _ => rfl
  | .marked _ _ x => rw [relocate, height, height, height_relocate x]
  | .sequence _ _ xs => rw [relocate, height, height, heightAll_relocateAll xs]

theorem heightAll_relocateAll (xs : List Form) : heightAll (relocateAll m xs) = heightAll xs := by
  match xs with
  | [] => rfl
  | x :: xs => rw [relocateAll, heightAll, heightAll, height_relocate x, heightAll_relocateAll xs]

end

theorem isSimple_relocateAll (xs : List Form) : isSimple (relocateAll m xs) = isSimple xs := by
  have hsequence : ∀ x : Form, (x.relocate m).isSequence = x.isSequence := by
    intro x
    cases x <;> rfl
  simp [isSimple, relocateAll_eq_map, Function.comp_def, hsequence]

theorem spreads?_relocateAll (layout : Layout) (b : Bracket) (xs : List Form) :
    spreads? layout b (relocateAll m xs) = spreads? layout b xs := by
  cases layout with
  | line => rfl
  | spread indent => cases b <;> simp only [spreads?, isSimple_relocateAll]

mutual

theorem write_relocate (layout : Layout) (x : Form) :
    write layout (x.relocate m) = write layout x := by
  match x with
  | .atom _ a => rfl
  | .marked _ k x => rw [relocate, write, write, write_relocate layout x]
  | .sequence _ b xs =>
    rw [relocate, write, write, spreads?_relocateAll]
    cases spreads? layout b xs with
    | none => simp only [writeSpaced_relocateAll layout xs]
    | some indent => simp only [writeLines_relocateAll _ (.spread (indent + 1)) xs]

theorem writeSpaced_relocateAll (layout : Layout) (xs : List Form) :
    writeSpaced layout (relocateAll m xs) = writeSpaced layout xs := by
  match xs with
  | [] => rfl
  | [x] => rw [relocateAll, relocateAll, writeSpaced, writeSpaced, write_relocate layout x]
  | x :: y :: zs =>
    have hrest := writeSpaced_relocateAll layout (y :: zs)
    rw [relocateAll] at hrest
    rw [relocateAll, relocateAll, writeSpaced, writeSpaced, write_relocate layout x, hrest]

theorem writeLines_relocateAll (margin : Bytes) (layout : Layout) (xs : List Form) :
    writeLines margin layout (relocateAll m xs) = writeLines margin layout xs := by
  match xs with
  | [] => rfl
  | x :: xs =>
    rw [relocateAll, writeLines, writeLines, write_relocate layout x,
      writeLines_relocateAll margin layout xs]

end

@[simp] theorem text_relocate (x : Form) : (x.relocate m).text = x.text := write_relocate m .line x

end Form

namespace Datum

variable (m : Location → Location)

mutual

@[simp] theorem ofForm_relocate (x : Form) : ofForm (x.relocate m) = ofForm x := by
  match x with
  | .atom _ a => rfl
  | .marked _ k x => rw [Form.relocate, ofForm, ofForm, ofForm_relocate x]
  | .sequence _ .paren xs | .sequence _ .square xs | .sequence _ .brace xs =>
    simp only [Form.relocate, ofForm, ofForms_relocateAll xs]

theorem ofForms_relocateAll (xs : List Form) : ofForms (Form.relocateAll m xs) = ofForms xs := by
  match xs with
  | [] => rfl
  | x :: xs => rw [Form.relocateAll, ofForms, ofForms, ofForm_relocate x, ofForms_relocateAll xs]

end

theorem ofForm_eq_of_erase_eq {x y : Form} (h : y.erase = x.erase) : ofForm y = ofForm x := by
  rw [Form.erase_eq_relocate, Form.erase_eq_relocate] at h
  rw [← ofForm_relocate _ y, h, ofForm_relocate]

end Datum
end ClauseLisp
