import ClauseLisp.Proofs.Expr.Shape
import ClauseLisp.Proofs.Form.Relocation
import ClauseLisp.Proofs.Form.RoundTrip

/-! How deep the expressions of a source text nest. Reading limits the height of forms, and this
limits the height of expressions up to the number of operands that folds have. -/

namespace ClauseLisp

namespace Form

mutual

/-- Whether no sequence in the form becomes more than `k` expressions one inside the other. For
one expression each, no fold has more than two operands. -/
def levelsWithin (k : Nat) : Form → Bool
  | atom .. => true
  | sequence _ b xs => decide (levels b xs ≤ k) && levelsWithinAll k xs
  | marked _ _ x => levelsWithin k x

def levelsWithinAll (k : Nat) : List Form → Bool
  | [] => true
  | x :: xs => levelsWithin k x && levelsWithinAll k xs

end

mutual

theorem spread_le {k : Nat} (hk : 0 < k) {x : Form} (h : x.levelsWithin k = true) :
    x.spread ≤ k * x.height := by
  match x with
  | .atom .. =>
    rw [spread, height]
    omega
  | .marked _ _ y =>
    have hy := spread_le hk (x := y) h
    rw [spread, height, Nat.mul_succ]
    omega
  | .sequence _ b xs =>
    rw [levelsWithin, Bool.and_eq_true, decide_eq_true_eq] at h
    have hxs := spreadAll_le hk h.2
    rw [spread, height, Nat.mul_succ]
    omega

theorem spreadAll_le {k : Nat} (hk : 0 < k) {xs : List Form} (h : levelsWithinAll k xs = true) :
    spreadAll xs ≤ k * heightAll xs := by
  match xs with
  | [] => exact Nat.zero_le _
  | x :: xs =>
    rw [levelsWithinAll, Bool.and_eq_true] at h
    have hx := spread_le hk h.1
    have hxs := spreadAll_le hk h.2
    rw [spreadAll, heightAll, ← Nat.mul_max_mul_left]
    omega

end

theorem height_le_of_readAll {source file : Bytes} {forms : List Form}
    (h : readAll source file = .ok forms) : ∀ x ∈ forms, x.height ≤ maxNesting := by
  obtain ⟨ts, -, hforms⟩ := readAll_eq_ok_iff.mp h
  exact (readTokens_eq_ok_iff_spelled.mp hforms).2

def ones (n : Nat) : Form :=
  .sequence .unknown .paren (.atom .unknown (.symbol (utf8 "+")) ::
    List.replicate n (.atom .unknown (.number (.integer 1))))

theorem eq_atom_of_erase {x : Form} {a : Atom} (h : x.erase = .atom .unknown a) :
    ∃ loc, x = .atom loc a := by
  cases x with
  | atom loc b =>
    obtain ⟨-, rfl⟩ := Form.atom.inj h
    exact ⟨loc, rfl⟩
  | sequence => exact Form.noConfusion h
  | marked => exact Form.noConfusion h

theorem eq_of_erase_ones {n : Nat} {y : Form} (h : y.erase = (ones n).erase) :
    ∃ loc loc' ys, y = .sequence loc .paren (.atom loc' (.symbol (utf8 "+")) :: ys) ∧
      ys.length = n ∧ ∀ z ∈ ys, ∃ loc, z = .atom loc (.number (.integer 1)) := by
  cases y with
  | atom => exact Form.noConfusion h
  | marked => exact Form.noConfusion h
  | sequence loc b xs =>
    obtain ⟨-, rfl, hxs⟩ := Form.sequence.inj h
    rw [eraseAll_eq_map, eraseAll_eq_map, List.map_cons, List.map_replicate] at hxs
    obtain ⟨x, ys, rfl, hx, hys⟩ := List.map_eq_cons_iff.mp hxs
    obtain ⟨loc', rfl⟩ := eq_atom_of_erase hx
    obtain ⟨hlength, hones⟩ := List.eq_replicate_iff.mp hys
    refine ⟨loc, loc', ys, rfl, by simpa using hlength, fun z hz => eq_atom_of_erase ?_⟩
    exact hones _ (List.mem_map_of_mem hz)

theorem legible_ones (n : Nat) : (ones n).Legible := by
  have hplus : (Atom.symbol (utf8 "+")).Rereads :=
    Atom.rereads_of_scan (c := byte '+') (s := []) rfl rfl (by decide) (by simp)
  have hones : LegibleAll (List.replicate n (.atom .unknown (.number (.integer 1)))) := by
    induction n with
    | zero => exact fun a ha => absurd ha List.not_mem_nil
    | succ n ih =>
      intro a ha
      rcases List.mem_cons.mp ha with ha | ha
      · exact Lexeme.atom.inj ha ▸ Atom.rereads_integer 1
      · exact ih a ha
  intro a ha
  have hmem : a = .symbol (utf8 "+") ∨
      .atom a ∈ flattenAll (List.replicate n (.atom .unknown (.number (.integer 1)))) := by
    simpa [ones, flatten, flattenAll] using ha
  rcases hmem with rfl | hmem
  · exact hplus
  · exact hones a hmem

theorem height_ones_le (n : Nat) : (ones n).height ≤ 2 := by
  refine Nat.succ_le_succ (heightAll_le_iff.mpr (List.forall_mem_cons.mpr ⟨Nat.le_refl 1, ?_⟩))
  intro x hx
  rw [List.eq_of_mem_replicate hx]
  exact Nat.le_refl 1

theorem hasUnquotedTuple_ones (n : Nat) : (ones n).hasUnquotedTuple = false := by
  show anyUnquotedTuple (List.replicate n (.atom .unknown (.number (.integer 1)))) = false
  induction n with
  | zero => rfl
  | succ n ih => exact ih

theorem readAll_ones (n : Nat) (file : Bytes) :
    ∃ y, readAll (ones n).text file = .ok [y] ∧ y.erase = (ones n).erase := by
  have hheight : (ones n).height ≤ maxNesting := Nat.le_trans (height_ones_le n) (by decide)
  obtain ⟨y, hread, herase⟩ :=
    read_write (legible_ones n) hheight (hasUnquotedTuple_ones n) .line file
  obtain ⟨ts, htokens, hforms⟩ := read_eq_ok_iff.mp hread
  exact ⟨y, readAll_eq_ok_iff.mpr ⟨ts, htokens, hforms⟩, herase⟩

end Form

namespace Expr

theorem forEach_of_forall {α β : Type} {f : α → Report β} {b : β} {as : List α}
    (h : ∀ a ∈ as, f a = pure b) :
    Report.forEach f as = pure (List.replicate as.length b) := by
  induction as with
  | nil => rfl
  | cons a as ih =>
    rw [List.forall_mem_cons] at h
    rw [Report.forEach, h.1, ih h.2]
    rfl

def sumFrom (loc : Location) (e : Expr) (es : List Expr) : Expr :=
  es.foldl (fun e f => .operation loc .add [e, f]) e

theorem nestsWithin_sumFrom {loc : Location} {n : Nat} {e : Expr} {es : List Expr}
    (h : (sumFrom loc e es).nestsWithin (n + es.length) = true) : e.nestsWithin n = true := by
  induction es generalizing e n with
  | nil => exact h
  | cons x es ih =>
    rw [List.length_cons, ← Nat.add_assoc, Nat.add_right_comm] at h
    have hsum : (Expr.operation loc .add [e, x]).nestsWithin (n + 1) = true := ih h
    exact nestsWithin_succ.mp hsum e List.mem_cons_self

theorem ofForm_sum {loc loc' : Location} {ys : List Form} {n : Nat}
    (hlength : ys.length = n + 2)
    (hys : ∀ y ∈ ys, ∃ loc, y = .atom loc (.number (.integer 1))) :
    ofForm [] (.sequence loc .paren (.atom loc' (.symbol (utf8 "+")) :: ys)) =
      pure (sumFrom loc (.literal (.integer 1))
        (List.replicate (n + 1) (.literal (.integer 1)))) := by
  have hpos : 1 ≤ Form.heightAll (.atom loc' (.symbol (utf8 "+")) :: ys) := Nat.le_max_left 1 _
  obtain ⟨k, hk⟩ := Nat.exists_eq_add_of_le' hpos
  -- All operands are compiled to the same literal, wherever they stand in the text.
  have hrule : ∀ y ∈ ys, ofFormWithin (k + 1) [] y = pure (.literal (.integer 1)) := by
    intro y hy
    obtain ⟨l, rfl⟩ := hys y hy
    rfl
  have hform : SpecialForm.ofName? (utf8 "+") = none := by decide
  have hop : Operation.find? (utf8 "+") = some ⟨utf8 "+", .add, .fold⟩ := rfl
  rw [ofForm, Form.height, hk]
  show callByName (ofFormWithin (k + 1)) [] loc (utf8 "+") ys = _
  unfold callByName
  rw [hform, hop]
  rcases ys with _ | ⟨first, _ | ⟨second, rest⟩⟩
  · exact absurd hlength (by simp)
  · exact absurd hlength (by simp)
  · rw [List.forall_mem_cons] at hrule
    show (ofFormWithin (k + 1) [] first >>= fun e =>
      Report.forEach (ofFormWithin (k + 1) []) (second :: rest) >>= fun es =>
        pure (sumFrom loc e es)) = _
    rw [hrule.1, forEach_of_forall hrule.2, Nat.succ.inj hlength]
    rfl

theorem ofProgram_ones {loc loc' : Location} {ys : List Form} {n : Nat}
    (hlength : ys.length = n + 2)
    (hys : ∀ y ∈ ys, ∃ loc, y = .atom loc (.number (.integer 1))) :
    (ofProgram [.sequence loc .paren (.atom loc' (.symbol (utf8 "+")) :: ys)]).result =
      .ok [sumFrom loc (.literal (.integer 1))
        (List.replicate (n + 1) (.literal (.integer 1)))] := by
  have hname : definedName? (.sequence loc .paren (.atom loc' (.symbol (utf8 "+")) :: ys)) =
      none := by
    cases ys with
    | nil => rfl
    | cons y ys => rfl
  unfold ofProgram body
  rw [ofForm_sum hlength hys, hname]
  rfl

theorem exists_higher (n : Nat) (file : Bytes) :
    ∃ forms e, Form.readAll (Form.ones (n + 2)).text file = .ok forms ∧
      (ofProgram forms).result = .ok [e] ∧ e.nestsWithin (n + 1) = false := by
  obtain ⟨y, hread, herase⟩ := Form.readAll_ones (n + 2) file
  obtain ⟨loc, loc', ys, rfl, hlength, hys⟩ := Form.eq_of_erase_ones herase
  refine ⟨_, _, hread, ofProgram_ones hlength hys, Bool.eq_false_iff.mpr fun h => ?_⟩
  -- The first operand is below all operations of the sum, and no expression is 0 high.
  have hsum : (sumFrom loc (.literal (.integer 1)) (List.replicate (n + 1)
      (.literal (.integer 1)))).nestsWithin (0 + (List.replicate (n + 1)
        (Expr.literal (.integer 1))).length) = true := by
    rwa [List.length_replicate, Nat.zero_add]
  exact Bool.noConfusion (nestsWithin_sumFrom hsum)

/-- The expressions of a source text are no higher than its forms are spread. Where no fold has
more than `k + 1` operands, they are at most `k` times as high as forms that can be read. -/
theorem nestsWithin_of_readAll {source file : Bytes} {forms : List Form} {es : List Expr}
    (hread : Form.readAll source file = .ok forms) (hcompile : (ofProgram forms).result = .ok es) :
    List.Forall₂ (fun x e => e.nestsWithin x.spread = true ∧
      ∀ k, 0 < k → x.levelsWithin k = true → e.nestsWithin (k * maxNesting) = true)
      forms es := by
  have hheight := Form.height_le_of_readAll hread
  have hgives : (ofProgram forms).Gives (List.Forall₂ (fun x e => e.nestsWithin x.spread = true ∧
      ∀ k, 0 < k → x.levelsWithin k = true → e.nestsWithin (k * maxNesting) = true) forms) := by
    refine body_gives fun x hx scope => (shaped_ofForm scope x).mono fun e he => ⟨he.nests, ?_⟩
    intro k hk hlevels
    refine nestsWithin_mono he.nests ?_
    calc x.spread ≤ k * x.height := Form.spread_le hk hlevels
      _ ≤ k * maxNesting := Nat.mul_le_mul_left k (hheight x hx)
  exact hgives es hcompile

theorem nestsWithin_of_readAll_threeOperands :
    let loc : Location := ⟨[], 1, 1⟩
    let x : Form := .sequence loc .paren [.atom ⟨[], 1, 2⟩ (.symbol (utf8 "+")),
      .atom ⟨[], 1, 4⟩ (.number (.integer 1)), .atom ⟨[], 1, 6⟩ (.number (.integer 2)),
      .atom ⟨[], 1, 8⟩ (.number (.integer 3))]
    let e : Expr := .operation loc .add
      [.operation loc .add [.literal (.integer 1), .literal (.integer 2)], .literal (.integer 3)]
    Form.readAll (utf8 "(+ 1 2 3)") [] = .ok [x] ∧ (ofProgram [x]).result = .ok [e] ∧
      x.spread = 3 ∧ x.levelsWithin 2 = true ∧
      e.nestsWithin 3 = true ∧ e.nestsWithin (2 * maxNesting) = true := by
  intro loc x e
  have htokens : Token.tokenize (utf8 "(+ 1 2 3)") [] = .ok
      [⟨.opening .paren, loc⟩, ⟨.atom (.symbol (utf8 "+")), ⟨[], 1, 2⟩⟩,
        ⟨.atom (.number (.integer 1)), ⟨[], 1, 4⟩⟩, ⟨.atom (.number (.integer 2)), ⟨[], 1, 6⟩⟩,
        ⟨.atom (.number (.integer 3)), ⟨[], 1, 8⟩⟩, ⟨.closing .paren, ⟨[], 1, 9⟩⟩] := by
    decide +kernel
  have hread : Form.readAll (utf8 "(+ 1 2 3)") [] = .ok [x] :=
    Form.readAll_eq_ok_iff.mpr ⟨_, htokens, rfl⟩
  have hcompile : (ofProgram [x]).result = .ok [e] := rfl
  have hlevels : x.levelsWithin 2 = true := by decide
  obtain ⟨hspread, hwithin⟩ := (List.forall₂_cons.mp (nestsWithin_of_readAll hread hcompile)).1
  exact ⟨hread, hcompile, rfl, hlevels, hspread, hwithin 2 Nat.two_pos hlevels⟩

/-- The text of a sum with one operand more than forms may nest can be read and compiled. Its
expression is higher than forms may be. -/
theorem nestsWithin_of_readAll_manyOperands :
    ∃ forms e, Form.readAll (Form.ones (maxNesting + 1)).text (utf8 "<input>") = .ok forms ∧
      (ofProgram forms).result = .ok [e] ∧ e.nestsWithin maxNesting = false :=
  exists_higher 999 (utf8 "<input>")

end Expr
end ClauseLisp
