import ClauseLisp.Operation
import ClauseLisp.Proofs.Form.Spelling

/-! Where forms stand in a program. Functions and modules are to be defined at the top of the
program or of a module, possibly in a `do` there, and modules not inside of modules. -/

namespace ClauseLisp

inductive Place where
  | main
  | module
  | inside
deriving DecidableEq

namespace Form

def head? (x : Form) : Option SpecialForm := x.symbol?.bind SpecialForm.ofName?

mutual

/-- Whether a form at a place has functions and modules defined only where they may be, and no
interpolations. The forms of a `do` stand where it stands, and those of a module at its top. -/
def placed : Place → Form → Bool
  | _, .atom _ (.interpolation _) => false
  | _, .atom .. => true
  | _, .marked _ _ x => placed .inside x
  | place, .sequence _ .paren (f :: xs) =>
    match f.head? with
    | some .sequence => placedAll place xs
    | some .defineFunction => place != .inside && placedAll .inside xs
    | some .definePrivate => place != .inside && placedAll .inside xs
    | some .defineModule =>
      match xs with
      | [] => place == .main
      | name :: forms => place == .main && placed .inside name && placedAll .module forms
    | _ => placed .inside f && placedAll .inside xs
  | _, .sequence _ _ xs => placedAll .inside xs

def placedAll : Place → List Form → Bool
  | _, [] => true
  | place, x :: xs => placed place x && placedAll place xs

end

theorem placedAll_iff {place : Place} {xs : List Form} :
    placedAll place xs = true ↔ ∀ x ∈ xs, x.placed place = true := by
  induction xs with
  | nil => simp [placedAll]
  | cons x xs ih => simp [placedAll, ih]

theorem placed_of_head? {x : Form} {f : SpecialForm} (h : x.head? = some f) (place : Place) :
    x.placed place = true := by
  match x with
  | .atom _ (.symbol _) => rfl
  | .atom _ .nil | .atom _ (.boolean _) | .atom _ (.number _) | .atom _ (.string _)
  | .atom _ (.keyword _) | .atom _ (.interpolation _) | .sequence .. | .marked .. =>
    simp [head?, symbol?] at h

def argsPlaced (place : Place) (xs : List Form) : Option SpecialForm → Bool
  | some .sequence => placedAll place xs
  | some .defineFunction => place != .inside && placedAll .inside xs
  | some .definePrivate => place != .inside && placedAll .inside xs
  | some .defineModule =>
    match xs with
    | [] => place == .main
    | name :: forms => place == .main && placed .inside name && placedAll .module forms
  | _ => placedAll .inside xs

theorem placed_list (place : Place) (loc : Location) (f : Form) (xs : List Form) :
    (Form.sequence loc .paren (f :: xs)).placed place =
      (f.placed .inside && argsPlaced place xs f.head?) := by
  cases hf : f.head? with
  | none =>
    rw [placed.eq_def]
    simp only [hf, argsPlaced]
  | some form =>
    rw [placed_of_head? hf, Bool.true_and, placed.eq_def]
    cases form <;> simp only [hf, argsPlaced, placed_of_head? hf, Bool.true_and]

theorem argsPlaced_inside {xs : List Form} {head : Option SpecialForm}
    (h : argsPlaced .inside xs head = true) : placedAll .inside xs = true := by
  unfold argsPlaced at h
  split at h
  · exact h
  · simp at h
  · simp at h
  · split at h <;> simp at h
  · exact h

theorem placed_elements {loc : Location} {b : Bracket} {xs : List Form}
    (h : (Form.sequence loc b xs).placed .inside = true) :
    ∀ x ∈ xs, x.placed .inside = true := by
  rw [← placedAll_iff]
  match b, xs with
  | .square, _ => exact h
  | .brace, _ => exact h
  | .paren, [] => rfl
  | .paren, f :: xs =>
    rw [placed_list, Bool.and_eq_true] at h
    rw [placedAll, h.1, argsPlaced_inside h.2]
    rfl

mutual

theorem placed_of_inside {x : Form} (h : x.placed .inside = true) (place : Place) :
    x.placed place = true := by
  match x with
  | .atom _ a => cases a <;> simp_all [placed]
  | .marked _ _ x => exact h
  | .sequence _ .square xs => exact h
  | .sequence _ .brace xs => exact h
  | .sequence _ .paren [] => rfl
  | .sequence _ .paren (f :: xs) =>
    rw [placed_list, Bool.and_eq_true] at h ⊢
    refine ⟨h.1, ?_⟩
    have hall := placedAll_of_inside (argsPlaced_inside h.2) place
    unfold argsPlaced at h ⊢
    split
    · exact hall
    · simp_all
    · simp_all
    · split <;> simp_all
    · simp_all

theorem placedAll_of_inside {xs : List Form} (h : placedAll .inside xs = true) (place : Place) :
    placedAll place xs = true := by
  match xs with
  | [] => rfl
  | x :: xs =>
    rw [placedAll, Bool.and_eq_true] at h ⊢
    exact ⟨placed_of_inside h.1 place, placedAll_of_inside h.2 place⟩

end

theorem height_lt_of_mem {xs : List Form} {x : Form} (h : x ∈ xs) (loc : Location) (b : Bracket) :
    x.height < (Form.sequence loc b xs).height := by
  have hall := heightAll_le_iff.mp (Nat.le_refl (heightAll xs)) x h
  rw [height]
  omega

structure Elementwise (H : Form → Prop) : Prop where
  elements : ∀ {loc b xs}, H (.sequence loc b xs) → ∀ x ∈ xs, H x

structure Hereditary (H : Form → Prop) : Prop extends Elementwise H where
  datum : ∀ {loc m x}, H (.marked loc m x) → H x

def Inner (n : Nat) (x : Form) : Prop := x.placed .inside = true ∧ x.height ≤ n

theorem hereditary_inner (n : Nat) : Hereditary (Inner n) where
  elements := by
    rintro loc b xs ⟨hplaced, hheight⟩ x hx
    have hlt := height_lt_of_mem hx loc b
    exact ⟨placed_elements hplaced x hx, by omega⟩
  datum := by
    rintro loc m x ⟨hplaced, hheight⟩
    rw [height] at hheight
    exact ⟨hplaced, by omega⟩

end Form
end ClauseLisp
