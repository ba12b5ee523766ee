import ClauseLisp.Expr.OfForm
import ClauseLisp.Proofs.Form.Relocation

/-! What the rules of compiling read off forms at other locations: the same patterns and names, with
guards, parts and faults at the other locations. -/

namespace ClauseLisp

def CompileFault.relocate (m : Location → Location) (f : CompileFault) : CompileFault :=
  { f with loc := m f.loc }

namespace Pattern

variable {α β : Type} (m : Location → Location)

namespace Guarded

def relocate (x : Guarded α) : Guarded α :=
  ⟨(x.result.map fun r => (r.1, r.2.map (Form.relocate m))).mapError (CompileFault.relocate m)⟩

theorem ok_bind (a : α) (guards : List Form) (f : α → Guarded β) :
    (⟨.ok (a, guards)⟩ >>= f : Guarded β) =
      ⟨(f a).result.map fun r => (r.1, guards ++ r.2)⟩ := by
  simp only [Bind.bind]
  cases (f a).result <;> rfl

theorem relocate_bind (x : Guarded α) (f : α → Guarded β) :
    (x >>= f).relocate m = x.relocate m >>= fun a => (f a).relocate m := by
  obtain ⟨_ | ⟨a, guards⟩⟩ := x
  · rfl
  · show _ = (⟨.ok (a, guards.map (Form.relocate m))⟩ >>= _ : Guarded β)
    rw [ok_bind, ok_bind]
    unfold relocate
    cases (f a).result with
    | error e => rfl
    | ok r =>
      show _ = Guarded.mk (.ok (r.1, guards.map (Form.relocate m) ++ r.2.map (Form.relocate m)))
      rw [← List.map_append]
      rfl

end Guarded

variable {m}

theorem isBar_relocate (x : Form) : isBar (x.relocate m) = isBar x := by
  rw [isBar, Form.symbol?_relocate, isBar]

theorem hasSingleRest_relocateAll (xs : List Form) :
    hasSingleRest (Form.relocateAll m xs) = hasSingleRest xs := by
  rw [Form.relocateAll_eq_map, hasSingleRest, List.dropWhile_map]
  simp only [Function.comp_def, isBar_relocate, hasSingleRest]
  cases xs.dropWhile fun x => !isBar x with
  | nil => rfl
  | cons y rest => simp

theorem ofSymbol_relocate (loc : Location) (name : Bytes) :
    ofSymbol (m loc) name = (ofSymbol loc name).relocate m := by
  unfold ofSymbol
  split
  · rfl
  · split <;> rfl

mutual

theorem ofForm_relocate (x : Form) : ofForm (x.relocate m) = (ofForm x).relocate m := by
  match x with
  | .atom loc a =>
    cases a with
    | symbol name => exact ofSymbol_relocate loc name
    | _ => rfl
  | .marked loc k y =>
    have htext := Form.text_relocate m (.marked loc k y)
    rw [Form.relocate] at htext
    cases k with
    | quote => simp [Form.relocate, ofForm]; rfl
    | _ => 
      simp only [Form.relocate, ofForm, htext]; rfl
  | .sequence loc .square xs =>
    rw [Form.relocate, ofForm, ofForm, hasSingleRest_relocateAll]
    split
    · rw [ofElements_relocateAll xs, Guarded.relocate_bind]
      rfl
    · rfl
  | .sequence loc .brace xs =>
    rw [Form.relocate, ofForm, ofForm, ofForms_relocateAll xs, Guarded.relocate_bind]
    rfl
  | .sequence loc .paren [] => rfl
  | .sequence loc .paren (y :: xs) =>
    rw [Form.relocate, Form.relocateAll, ofForm.eq_def, ofForm.eq_def (.sequence loc .paren (y :: xs))]
    dsimp only
    rw [isBar_relocate, Form.symbol?_relocate]
    split
    · match xs with
      | [] | [_] | _ :: _ :: _ :: _ => rfl
      | [first, rest] =>
        simp only [Form.relocateAll, ofForm_relocate first, ofForm_relocate rest,
          Guarded.relocate_bind]
        rfl
    · split
      · match xs with
        | [] | [_] | _ :: _ :: _ :: _ => rfl
        | [z, guard] =>
          simp only [Form.relocateAll, ofForm_relocate z, Guarded.relocate_bind]
          rfl
      · rw [ofForm_relocate y, ofForms_relocateAll xs, Guarded.relocate_bind]
        simp only [Guarded.relocate_bind]
        rfl

theorem ofForms_relocateAll (xs : List Form) :
    ofForms (Form.relocateAll m xs) = (ofForms xs).relocate m := by
  match xs with
  | [] => rfl
  | x :: xs =>
    rw [Form.relocateAll, ofForms, ofForms, ofForm_relocate x, ofForms_relocateAll xs]
    simp only [Guarded.relocate_bind]
    rfl

theorem ofElements_relocateAll (xs : List Form) :
    ofElements (Form.relocateAll m xs) = (ofElements xs).relocate m := by
  match xs with
  | [] => rfl
  | x :: xs =>
    rw [Form.relocateAll, ofElements.eq_def, ofElements.eq_def (x :: xs)]
    dsimp only
    rw [isBar_relocate]
    split
    · match xs with
      | [] => rfl
      | y :: _ =>
        simp only [Form.relocateAll, ofForm_relocate y, Guarded.relocate_bind]
        rfl
    · rw [ofForm_relocate x, ofElements_relocateAll xs]
      simp only [Guarded.relocate_bind]
      rfl

end

end Pattern

namespace Expr

variable (m : Location → Location)

theorem listed?_relocate (x : Form) :
    listed? (x.relocate m) = (listed? x).map (Form.relocateAll m) := by
  match x with
  | .sequence _ .paren _ | .sequence _ .square _ | .sequence _ .brace _ => rfl
  | .atom .. | .marked .. => rfl

theorem definedName?_relocate (x : Form) : definedName? (x.relocate m) = definedName? x := by
  match x with
  | .sequence _ .paren (f :: y :: _) => simp [Form.relocate, Form.relocateAll, definedName?]
  | .sequence _ .paren [] | .sequence _ .paren [_] => rfl
  | .sequence _ .square _ | .sequence _ .brace _ | .atom .. | .marked .. => rfl

theorem isWhen_relocate (x : Form) : isWhen (x.relocate m) = isWhen x := by
  cases x with
  | atom _ a => cases a <;> rfl
  | sequence | marked => rfl

theorem spliced?_relocate (x : Form) :
    spliced? (x.relocate m) = (spliced? x).map (Form.relocate m) := by
  cases x with
  | atom | sequence => rfl
  | marked _ k _ => cases k <;> rfl

theorem pair?_relocate (x : Form) :
    pair? (x.relocate m) = (pair? x).map (Prod.map (Form.relocate m) (Form.relocate m)) := by
  match x with
  | .sequence _ .paren [_, _] => rfl
  | .sequence _ .paren [] | .sequence _ .paren [_] | .sequence _ .paren (_ :: _ :: _ :: _) => rfl
  | .sequence _ .square _ | .sequence _ .brace _ | .atom .. | .marked .. => rfl

theorem mapM_relocateAll {α : Type} {f : Form → Option α} {g : α → α}
    (h : ∀ x, f (x.relocate m) = (f x).map g) (xs : List Form) :
    (Form.relocateAll m xs).mapM f = (xs.mapM f).map (List.map g) := by
  induction xs with
  | nil => rfl
  | cons x xs ih =>
    rw [Form.relocateAll, List.mapM_cons, List.mapM_cons, h, ih]
    cases f x with
    | none => rfl
    | some p => cases xs.mapM f <;> rfl

theorem alternating?_relocateAll (xs : List Form) :
    alternating? (Form.relocateAll m xs) =
      (alternating? xs).map (List.map (Prod.map (Form.relocate m) (Form.relocate m))) := by
  fun_induction alternating? xs with
  | case1 => rfl
  | case2 => rfl
  | case3 x y rest ih =>
    rw [Form.relocateAll, Form.relocateAll, alternating?, ih]
    cases alternating? rest <;> rfl

def relocateParts (parts : Form × Option Form × Form) : Form × Option Form × Form :=
  (parts.1.relocate m, parts.2.1.map (Form.relocate m), parts.2.2.relocate m)

theorem clauseParts?_relocate (x : Form) :
    clauseParts? (x.relocate m) = (clauseParts? x).map (relocateParts m) := by
  have hshape : ∀ y : Form, (listed? (y.relocate m)).isSome = (listed? y).isSome := by
    intro y
    rw [listed?_relocate, Option.isSome_map]
  unfold clauseParts?
  rw [listed?_relocate]
  match listed? x with
  | none | some [] | some [_] | some (_ :: _ :: _ :: _ :: _ :: _) => rfl
  | some [params, _] | some [params, _, _] =>
    simp only [Option.map_some, Form.relocateAll, hshape]
    split <;> rfl
  | some [params, word, _, _] =>
    simp only [Option.map_some, Form.relocateAll, hshape, isWhen_relocate]
    split <;> rfl

theorem namesBound?_relocate (x : Form) : namesBound? (x.relocate m) = namesBound? x := by
  unfold namesBound?
  rw [listed?_relocate]
  cases listed? x with
  | none => rfl
  | some xs =>
    simp only [Option.map_some, Pattern.ofForms_relocateAll]
    unfold Pattern.Guarded.relocate
    cases (Pattern.ofForms xs).result <;> rfl

mutual

theorem mentioned_relocate (x : Form) : mentioned (x.relocate m) = mentioned x := by
  match x with
  | .atom _ a => cases a <;> rfl
  | .sequence _ _ xs => rw [Form.relocate, mentioned, mentioned, mentionedAll_relocateAll xs]
  | .marked _ k y => cases k <;> simp only [Form.relocate, mentioned, mentioned_relocate y]

theorem mentionedAll_relocateAll (xs : List Form) :
    mentionedAll (Form.relocateAll m xs) = mentionedAll xs := by
  match xs with
  | [] => rfl
  | x :: xs =>
    rw [Form.relocateAll, mentionedAll, mentionedAll, mentioned_relocate x,
      mentionedAll_relocateAll xs]

end

theorem readingOf?_relocate (scope : Scope) (bound : List Bytes) (x : Form) :
    readingOf? scope bound (x.relocate m) = readingOf? scope bound x := by
  unfold readingOf?
  rw [Form.elements?_relocate]
  match x.elements? with
  | none | some [] => rfl
  | some (params :: rest) =>
    simp only [Option.map_some, Form.relocateAll, namesBound?_relocate, mentionedAll_relocateAll]

theorem readTwo_relocate (scope : Scope) (x y : Form) :
    readTwo scope (x.relocate m) (y.relocate m) = readTwo scope x y := by
  unfold readTwo
  rw [namesBound?_relocate]
  simp only [readingOf?_relocate]

mutual

theorem hasUnquote_relocate (x : Form) : hasUnquote (x.relocate m) = hasUnquote x := by
  match x with
  | .atom _ a => cases a <;> rfl
  | .sequence _ _ xs => rw [Form.relocate, hasUnquote, hasUnquote, anyUnquote_relocateAll xs]
  | .marked _ k _ => cases k <;> rfl

theorem anyUnquote_relocateAll (xs : List Form) :
    anyUnquote (Form.relocateAll m xs) = anyUnquote xs := by
  match xs with
  | [] => rfl
  | x :: xs =>
    rw [Form.relocateAll, anyUnquote, anyUnquote, hasUnquote_relocate x, anyUnquote_relocateAll xs]

end

theorem isDefaultBranch_relocate (x : Form) : isDefaultBranch (x.relocate m) = isDefaultBranch x := by
  unfold isDefaultBranch
  rw [listed?_relocate]
  match listed? x with
  | none | some [] => rfl
  | some (.atom _ a :: _) =>
    cases a with
    | boolean b => cases b <;> rfl
    | _ => rfl
  | some (.sequence .. :: _) | some (.marked .. :: _) => rfl

theorem choiceDatum?_relocate (x : Form) : choiceDatum? (x.relocate m) = choiceDatum? x := by
  have hplain : (if (x.relocate m).symbol? = some (utf8 "_") then none
      else some (Datum.ofForm (x.relocate m))) =
      if x.symbol? = some (utf8 "_") then none else some (Datum.ofForm x) := by
    rw [Form.symbol?_relocate, Datum.ofForm_relocate]
  match x with
  | .marked _ .quote y => simp [Form.relocate, choiceDatum?]
  | .marked _ .quasiquote _ | .marked _ .unquote _ | .marked _ .splice _ => exact hplain
  | .atom .. | .sequence .. => exact hplain

end Expr
end ClauseLisp
