import ClauseLisp.Proofs.Expr.Agreement
import ClauseLisp.Proofs.Machine.Fuel

/-! Quasiquotes as templates. Evaluating the expression of a template does the same as walking over
the template from left to right, filling in the unquoted places. Compiling a template fails where a
splice has no list to go to, or where what is to be filled in does not compile. -/

namespace ClauseLisp

namespace Form

mutual

/-- Whether a splice stands at the root of a template or directly in a tuple of it. -/
def misplacesSplice : Form → Bool
  | marked _ .splice _ => true
  | sequence _ .brace xs => anyMisplacesSplice xs
  | sequence _ _ xs => anyMisplacesInList xs
  | _ => false

def anyMisplacesSplice : List Form → Bool
  | [] => false
  | x :: xs => misplacesSplice x || anyMisplacesSplice xs

def anyMisplacesInList : List Form → Bool
  | [] => false
  | x :: xs => ((Expr.spliced? x).isNone && misplacesSplice x) || anyMisplacesInList xs

end

mutual

def unquoted : Form → List Form
  | marked _ .unquote x => [x]
  | marked _ .splice x => [x]
  | sequence _ _ xs => unquotedAll xs
  | _ => []

def unquotedAll : List Form → List Form
  | [] => []
  | x :: xs => unquoted x ++ unquotedAll xs

end

section Walk

variable (value : Bool → Form → Run Value) (c : Context)

mutual

/-- What a template is with the values of the unquoted data, of which only one at the root can
stand at the top of a module. -/
def walk (top : Bool) : Form → Run Value
  | atom _ (.interpolation name) => Machine.localReference c name
  | marked _ .unquote x => value top x
  | sequence _ .brace xs => do return .tuple (← walkEach xs)
  | sequence _ _ xs => do return .list (← walkSplicing xs)
  | x => pure (Datum.ofForm x).toValue

def walkEach : List Form → Run (List Value)
  | [] => pure []
  | x :: xs => do
    let v ← walk false x
    let vs ← walkEach xs
    return v :: vs

def walkSplicing : List Form → Run (List Value)
  | [] => pure []
  | marked _ .splice x :: xs => do
    let us ← Run.ofExcept (← value false x).expectList
    let vs ← walkSplicing xs
    return us ++ vs
  | x :: xs => do
    let v ← walk false x
    let vs ← walkSplicing xs
    return v :: vs

end

end Walk

end Form

namespace Machine

def datumValue (machine : Machine) (c : Context) (scope : Expr.Scope) (top : Bool) (x : Form) :
    Run Value :=
  match (Expr.ofForm scope x).result with
  | .ok e => machine (.evaluate c top e)
  | .error _ => .exhaust

end Machine

namespace Expr

theorem spliced?_of_hasUnquote {x : Form} (h : hasUnquote x = false) : spliced? x = none := by
  match x with
  | .atom .. | .sequence .. => rfl
  | .marked _ k _ =>
    cases k with
    | splice => exact Bool.noConfusion h
    | _ => rfl

theorem eq_marked_of_spliced? {x y : Form} (h : spliced? x = some y) :
    ∃ loc, x = .marked loc .splice y := by
  match x with
  | .marked loc .splice _ => exact ⟨loc, by rw [Option.some.inj h]⟩
  | .marked _ .quote _ | .marked _ .quasiquote _ | .marked _ .unquote _ => simp [spliced?] at h
  | .atom .. | .sequence .. => simp [spliced?] at h

end Expr

namespace Form

mutual

theorem misplacesSplice_of_hasUnquote {x : Form} (h : Expr.hasUnquote x = false) :
    x.misplacesSplice = false ∧ x.unquoted = [] := by
  match x with
  | .atom .. => exact ⟨rfl, rfl⟩
  | .marked _ k _ =>
    cases k with
    | quote | quasiquote => exact ⟨rfl, rfl⟩
    | unquote | splice => exact Bool.noConfusion h
  | .sequence _ b xs =>
    rw [Expr.hasUnquote] at h
    obtain ⟨htuple, hlist, hdata⟩ := anyMisplacesSplice_of_anyUnquote h
    cases b with
    | brace => exact ⟨htuple, hdata⟩
    | paren | square => exact ⟨hlist, hdata⟩

theorem anyMisplacesSplice_of_anyUnquote {xs : List Form} (h : Expr.anyUnquote xs = false) :
    anyMisplacesSplice xs = false ∧ anyMisplacesInList xs = false ∧ unquotedAll xs = [] := by
  match xs with
  | [] => exact ⟨rfl, rfl, rfl⟩
  | x :: xs =>
    rw [Expr.anyUnquote, Bool.or_eq_false_iff] at h
    obtain ⟨hx, hdata⟩ := misplacesSplice_of_hasUnquote h.1
    obtain ⟨htuple, hlist, hrest⟩ := anyMisplacesSplice_of_anyUnquote h.2
    simp [anyMisplacesSplice, anyMisplacesInList, unquotedAll, hx, hdata, htuple, hlist, hrest]

end

section Walk

open Run (Approximates truncates_refl truncates_bind_left)

variable {value value' : Bool → Form → Run Value} {c : Context}

theorem walkSplicing_of_plain {x : Form} (h : Expr.spliced? x = none) (xs : List Form) :
    walkSplicing value c (x :: xs) =
      (do let v ← walk value c false x; let vs ← walkSplicing value c xs; return v :: vs) := by
  rw [walkSplicing]
  rintro _ _ rfl
  simp [Expr.spliced?] at h

mutual

theorem walk_of_hasUnquote {x : Form} (h : Expr.hasUnquote x = false) (top : Bool) :
    walk value c top x = pure (Datum.ofForm x).toValue := by
  match x with
  | .atom _ a =>
    cases a with
    | interpolation => exact Bool.noConfusion h
    | _ => rfl
  | .marked _ k _ =>
    cases k with
    | quote | quasiquote => rfl
    | unquote => exact Bool.noConfusion h
    | splice => exact Bool.noConfusion h
  | .sequence _ b xs =>
    rw [Expr.hasUnquote] at h
    obtain ⟨heach, hsplicing⟩ := walkEach_of_anyUnquote h
    cases b with
    | brace =>
      rw [walk, heach]
      rfl
    | paren | square =>
      rw [walk, hsplicing]
      · rfl
      · nofun

theorem walkEach_of_anyUnquote {xs : List Form} (h : Expr.anyUnquote xs = false) :
    walkEach value c xs = pure (Datum.toValues (Datum.ofForms xs)) ∧
      walkSplicing value c xs = pure (Datum.toValues (Datum.ofForms xs)) := by
  match xs with
  | [] => exact ⟨rfl, rfl⟩
  | x :: xs =>
    rw [Expr.anyUnquote, Bool.or_eq_false_iff] at h
    have hx := walk_of_hasUnquote h.1 false
    obtain ⟨heach, hsplicing⟩ := walkEach_of_anyUnquote h.2
    constructor
    · rw [walkEach, hx, heach]
      rfl
    · rw [walkSplicing_of_plain (Expr.spliced?_of_hasUnquote h.1), hx, hsplicing]
      rfl

end

mutual

theorem approximates_walk (h : ∀ top y, Approximates (value top y) (value' top y)) (top : Bool)
    (x : Form) : Approximates (walk value c top x) (walk value' c top x) := by
  match x with
  | .atom _ a => cases a <;> exact truncates_refl _
  | .marked _ k y =>
    cases k with
    | unquote => exact h top y
    | _ => exact truncates_refl _
  | .sequence _ b xs =>
    cases b with
    | brace => exact (approximates_walkEach h xs).bind_right _
    | paren | square => exact (approximates_walkSplicing h xs).bind_right _

theorem approximates_walkEach (h : ∀ top y, Approximates (value top y) (value' top y))
    (xs : List Form) : Approximates (walkEach value c xs) (walkEach value' c xs) := by
  match xs with
  | [] => exact truncates_refl _
  | x :: xs =>
    exact (approximates_walk h false x).bind fun v => (approximates_walkEach h xs).bind_right _

theorem approximates_walkSplicing (h : ∀ top y, Approximates (value top y) (value' top y))
    (xs : List Form) : Approximates (walkSplicing value c xs) (walkSplicing value' c xs) := by
  match xs with
  | [] => exact truncates_refl _
  | x :: xs =>
    have hrest := approximates_walkSplicing h xs
    cases hsplice : Expr.spliced? x with
    | some y =>
      obtain ⟨loc, rfl⟩ := Expr.eq_marked_of_spliced? hsplice
      exact (h false y).bind fun v => truncates_bind_left _ fun us => hrest.bind_right _
    | none =>
      rw [walkSplicing_of_plain hsplice, walkSplicing_of_plain hsplice]
      exact (approximates_walk h false x).bind fun v => hrest.bind_right _

end

end Walk

end Form

namespace Report

variable {α β γ : Type}

theorem isOk_bind_pure (r : Report α) (g : α → β) :
    (r >>= fun a => pure (g a)).result.isOk = r.result.isOk := by
  cases h : r.result with
  | error e => rw [bind_of_error h]; rfl
  | ok a => rw [bind_of_ok h]; rfl

theorem isOk_bind_bind (r : Report α) (r' : Report β) (g : α → β → γ) :
    (r >>= fun a => r' >>= fun b => pure (g a b)).result.isOk =
      (r.result.isOk && r'.result.isOk) := by
  cases h : r.result with
  | error e => rw [bind_of_error h]; rfl
  | ok a => rw [bind_of_ok h, isOk_bind_pure]; rfl

end Report

namespace Expr

variable {rule : Rule} {scope : Scope}

mutual

theorem isOk_template (rule : Rule) (scope : Scope) (x : Form) :
    (template rule scope x).result.isOk =
      (!x.misplacesSplice && x.unquoted.all fun y => (rule scope y).result.isOk) := by
  match x with
  | .atom _ a => cases a <;> rfl
  | .marked _ k y =>
    cases k with
    | unquote => simp [template, Form.misplacesSplice, Form.unquoted]
    | _ => rfl
  | .sequence loc b xs =>
    rw [template.eq_def]
    dsimp only
    split
    · rename_i hdata
      obtain ⟨hplaces, hunquoted⟩ :=
        Form.misplacesSplice_of_hasUnquote (x := .sequence loc b xs) (by simpa [hasUnquote] using hdata)
      rw [hplaces, hunquoted]
      rfl
    · cases b with
      | brace => exact (Report.isOk_bind_pure _ _).trans (isOk_templateTuple rule scope xs)
      | paren | square =>
        exact (Report.isOk_bind_pure _ _).trans (isOk_templateList rule scope xs)

theorem isOk_templateTuple (rule : Rule) (scope : Scope) (xs : List Form) :
    (templateTuple rule scope xs).result.isOk = (!Form.anyMisplacesSplice xs &&
      (Form.unquotedAll xs).all fun y => (rule scope y).result.isOk) := by
  match xs with
  | [] => rfl
  | x :: xs =>
    rw [templateTuple, Form.anyMisplacesSplice, Form.unquotedAll]
    cases hsplice : spliced? x with
    | some y =>
      obtain ⟨loc, rfl⟩ := eq_marked_of_spliced? hsplice
      rfl
    | none =>
      rw [List.all_append]
      refine (Report.isOk_bind_bind _ _ _).trans ?_
      rw [isOk_template rule scope x, isOk_templateTuple rule scope xs]
      cases x.misplacesSplice <;> cases Form.anyMisplacesSplice xs <;> simp

theorem isOk_templateList (rule : Rule) (scope : Scope) (xs : List Form) :
    (templateList rule scope xs).result.isOk = (!Form.anyMisplacesInList xs &&
      (Form.unquotedAll xs).all fun y => (rule scope y).result.isOk) := by
  match xs with
  | [] => rfl
  | x :: xs =>
    rw [templateList, Form.anyMisplacesInList, Form.unquotedAll, List.all_append]
    cases hsplice : spliced? x with
    | some y =>
      obtain ⟨loc, rfl⟩ := eq_marked_of_spliced? hsplice
      refine (Report.isOk_bind_bind _ _ _).trans ?_
      rw [isOk_templateList rule scope xs]
      cases Form.anyMisplacesInList xs <;> simp [Form.unquoted]
    | none =>
      refine (Report.isOk_bind_bind _ _ _).trans ?_
      rw [isOk_template rule scope x, isOk_templateList rule scope xs]
      cases x.misplacesSplice <;> cases Form.anyMisplacesInList xs <;> simp

end

mutual

inductive Fills (rule : Rule) (scope : Scope) : Form → Expr → Prop
  | literal {x} : hasUnquote x = false → Fills rule scope x (.literal (Datum.ofForm x))
  | interpolation {loc name} : Fills rule scope (.atom loc (.interpolation name)) (.localRef name)
  | unquote {loc x e} : (rule scope x).result = .ok e → Fills rule scope (.marked loc .unquote x) e
  | tuple {loc xs es} : FillsEach rule scope xs es →
    Fills rule scope (.sequence loc .brace xs) (.makeTuple es)
  | list {loc b xs es} : b ≠ .brace → FillsList rule scope xs es →
    Fills rule scope (.sequence loc b xs) (.makeList es)

inductive FillsEach (rule : Rule) (scope : Scope) : List Form → List Expr → Prop
  | nil : FillsEach rule scope [] []
  | cons {x e xs es} : Fills rule scope x e → FillsEach rule scope xs es →
    FillsEach rule scope (x :: xs) (e :: es)

inductive FillsList (rule : Rule) (scope : Scope) : List Form → List Element → Prop
  | nil : FillsList rule scope [] []
  | splice {loc x e xs es} : (rule scope x).result = .ok e → FillsList rule scope xs es →
    FillsList rule scope (.marked loc .splice x :: xs) (⟨true, e⟩ :: es)
  | plain {x e xs es} : spliced? x = none → Fills rule scope x e → FillsList rule scope xs es →
    FillsList rule scope (x :: xs) (⟨false, e⟩ :: es)

end

open Report (gives_pure gives_fail)

mutual

theorem fills_template (rule : Rule) (scope : Scope) (x : Form) :
    (template rule scope x).Gives (Fills rule scope x) := by
  match x with
  | .atom _ a =>
    cases a with
    | interpolation name => exact gives_pure .interpolation
    | _ => exact gives_pure (.literal rfl)
  | .marked _ k y =>
    cases k with
    | unquote => exact fun e he => .unquote he
    | splice => exact gives_fail _ _
    | _ => exact gives_pure (.literal rfl)
  | .sequence loc b xs =>
    rw [template.eq_def]
    dsimp only
    split
    · rename_i hdata
      exact gives_pure (.literal (by simpa [hasUnquote] using hdata))
    · cases b with
      | brace => exact (fills_templateTuple rule scope xs).bind fun es hes => gives_pure (.tuple hes)
      | paren | square =>
        exact (fills_templateList rule scope xs).bind fun es hes => gives_pure (.list nofun hes)

theorem fills_templateTuple (rule : Rule) (scope : Scope) (xs : List Form) :
    (templateTuple rule scope xs).Gives (FillsEach rule scope xs) := by
  match xs with
  | [] => exact gives_pure .nil
  | x :: xs =>
    have hrest := (fills_template rule scope x).bind fun e he =>
      (fills_templateTuple rule scope xs).bind fun es hes => gives_pure (FillsEach.cons he hes)
    rw [templateTuple]
    split
    · exact (gives_fail _ _ (Q := fun _ => True)).bind fun _ _ => hrest
    · exact hrest

theorem fills_templateList (rule : Rule) (scope : Scope) (xs : List Form) :
    (templateList rule scope xs).Gives (FillsList rule scope xs) := by
  match xs with
  | [] => exact gives_pure .nil
  | x :: xs =>
    rw [templateList]
    cases hsplice : spliced? x with
    | some y =>
      obtain ⟨loc, rfl⟩ := eq_marked_of_spliced? hsplice
      have hy : (rule scope y).Gives fun e => (rule scope y).result = .ok e := fun e he => he
      exact hy.bind fun e he => (fills_templateList rule scope xs).bind fun es hes =>
        gives_pure (.splice he hes)
    | none =>
      exact (fills_template rule scope x).bind fun e he =>
        (fills_templateList rule scope xs).bind fun es hes => gives_pure (.plain hsplice he hes)

end

end Expr

namespace Machine

open Run (Approximates truncates_refl truncates_bind_left approximates_exhaust)
open ClauseLisp.Expr (Fills FillsEach FillsList)

variable {limit fuel fuel' : Nat} {c : Context} {scope : Expr.Scope}

theorem datumValue_of_ok {machine : Machine} {x : Form} {e : Expr}
    (h : (Expr.ofForm scope x).result = .ok e) (top : Bool) :
    datumValue machine c scope top x = machine (.evaluate c top e) := by
  unfold datumValue
  rw [h]

theorem approximates_datumValue (h : fuel ≤ fuel') (top : Bool) (x : Form) :
    Approximates (datumValue (perform limit fuel) c scope top x)
      (datumValue (perform limit fuel') c scope top x) := by
  unfold datumValue
  cases (Expr.ofForm scope x).result with
  | ok e => exact approximates_perform limit h _
  | error f => exact truncates_refl _

mutual

theorem perform_approximates_walk {x : Form} {e : Expr} (h : Fills Expr.ofForm scope x e)
    (fuel : Nat) (top : Bool) :
    Approximates (perform limit fuel (.evaluate c top e))
      (x.walk (datumValue (perform limit fuel) c scope) c top) := by
  match fuel with
  | 0 => exact approximates_exhaust _
  | fuel + 1 =>
    -- The parts of the template are evaluated with less fuel than the walk gives its data.
    have hmore : ∀ top y, Approximates (datumValue (perform limit fuel) c scope top y)
        (datumValue (perform limit (fuel + 1)) c scope top y) :=
      approximates_datumValue (Nat.le_succ fuel)
    match h with
    | .literal hdata =>
      rw [Form.walk_of_hasUnquote hdata]
      exact truncates_refl _
    | .interpolation => exact truncates_refl _
    | .unquote he =>
      rw [Form.walk, datumValue_of_ok he]
      exact truncates_refl _
    | .tuple hes =>
      exact ((evaluateAll_approximates_walkEach hes fuel).trans
        (Form.approximates_walkEach hmore _)).bind_right _
    | .list (b := b) hb hes =>
      rw [Form.walk]
      · exact ((evaluateElements_approximates_walkSplicing hes fuel).trans
          (Form.approximates_walkSplicing hmore _)).bind_right _
      · exact fun h => hb h

theorem evaluateAll_approximates_walkEach {xs : List Form} {es : List Expr}
    (h : FillsEach Expr.ofForm scope xs es) (fuel : Nat) :
    Approximates (evaluateAll (perform limit fuel) c es)
      (Form.walkEach (datumValue (perform limit fuel) c scope) c xs) := by
  match h with
  | .nil => exact truncates_refl _
  | .cons he hes =>
    exact (perform_approximates_walk he fuel false).bind fun v =>
      (evaluateAll_approximates_walkEach hes fuel).bind_right _

theorem evaluateElements_approximates_walkSplicing {xs : List Form} {es : List Element}
    (h : FillsList Expr.ofForm scope xs es) (fuel : Nat) :
    Approximates (evaluateElements (perform limit fuel) c es)
      (Form.walkSplicing (datumValue (perform limit fuel) c scope) c xs) := by
  match h with
  | .nil => exact truncates_refl _
  | .splice he hes =>
    rw [Form.walkSplicing, datumValue_of_ok he]
    exact truncates_bind_left _ fun v => truncates_bind_left _ fun us =>
      (evaluateElements_approximates_walkSplicing hes fuel).bind_right _
  | .plain hplain he hes =>
    rw [Form.walkSplicing_of_plain hplain]
    exact (perform_approximates_walk he fuel false).bind fun v =>
      (evaluateElements_approximates_walkSplicing hes fuel).bind_right _

end

mutual

theorem walk_approximates_perform {x : Form} {e : Expr} (h : Fills Expr.ofForm scope x e)
    (top : Bool) :
    Approximates (x.walk (datumValue (perform limit fuel) c scope) c top)
      (perform limit (fuel + x.height) (.evaluate c top e)) := by
  match h with
  | .literal hdata =>
    obtain ⟨n, hn⟩ := Nat.exists_eq_add_one.mpr (Expr.height_pos x)
    rw [Form.walk_of_hasUnquote hdata, hn]
    exact truncates_refl _
  | .interpolation => exact truncates_refl _
  | .unquote he =>
    rw [Form.walk, datumValue_of_ok he]
    exact approximates_perform limit (Nat.le_add_right _ _) _
  | .tuple hes =>
    exact (walkEach_approximates_evaluateAll hes (Nat.le_refl _)).bind_right _
  | .list hb hes =>
    rw [Form.walk]
    · exact (walkSplicing_approximates_evaluateElements hes (Nat.le_refl _)).bind_right _
    · exact fun h => hb h

theorem walkEach_approximates_evaluateAll {xs : List Form} {es : List Expr} {n : Nat}
    (h : FillsEach Expr.ofForm scope xs es) (hn : fuel + Form.heightAll xs ≤ n) :
    Approximates (Form.walkEach (datumValue (perform limit fuel) c scope) c xs)
      (evaluateAll (perform limit n) c es) := by
  match h with
  | .nil => exact truncates_refl _
  | .cons he hes =>
    rw [Form.heightAll] at hn
    have hfirst := walk_approximates_perform he false
    exact (hfirst.trans (approximates_perform limit (by omega) _)).bind fun v =>
      (walkEach_approximates_evaluateAll hes (by omega)).bind_right _

theorem walkSplicing_approximates_evaluateElements {xs : List Form} {es : List Element} {n : Nat}
    (h : FillsList Expr.ofForm scope xs es) (hn : fuel + Form.heightAll xs ≤ n) :
    Approximates (Form.walkSplicing (datumValue (perform limit fuel) c scope) c xs)
      (evaluateElements (perform limit n) c es) := by
  match h with
  | .nil => exact truncates_refl _
  | .splice he hes =>
    rw [Form.heightAll] at hn
    rw [Form.walkSplicing, datumValue_of_ok he]
    exact (approximates_perform limit (by omega) _).bind fun v => truncates_bind_left _ fun us =>
      (walkSplicing_approximates_evaluateElements hes (by omega)).bind_right _
  | .plain hplain he hes =>
    rw [Form.heightAll] at hn
    rw [Form.walkSplicing_of_plain hplain]
    have hfirst := walk_approximates_perform he false
    exact (hfirst.trans (approximates_perform limit (by omega) _)).bind fun v =>
      (walkSplicing_approximates_evaluateElements hes (by omega)).bind_right _

end

theorem exists_perform_iff_walk {x : Form} {e : Expr} (h : Fills Expr.ofForm scope x e)
    (top : Bool) {w w' : World} {o : Outcome Value} (ho : o ≠ .exhausted) :
    (∃ fuel, perform limit fuel (.evaluate c top e) w = (o, w')) ↔
      ∃ fuel, x.walk (datumValue (perform limit fuel) c scope) c top w = (o, w') := by
  constructor
  · rintro ⟨fuel, hrun⟩
    exact ⟨fuel, (perform_approximates_walk h fuel top).eq_of_ne_exhausted hrun ho⟩
  · rintro ⟨fuel, hrun⟩
    exact ⟨_, (walk_approximates_perform h top).eq_of_ne_exhausted hrun ho⟩

/-- A quasiquoted form compiles to its template, which fails exactly if a splice is misplaced or an
unquoted datum fails to compile. Otherwise evaluating the template ends with a value or a fault in
the same way and in the same world as the walk over the form. Where nothing is unquoted the walk
gives the form as data. -/
theorem evaluate_template_iff_walk (scope : Expr.Scope) (x : Form) :
    (∀ loc, (Expr.ofForm scope (.marked loc .quasiquote x)).result.toOption =
      (Expr.template Expr.ofForm scope x).result.toOption) ∧
    ((Expr.template Expr.ofForm scope x).result.isOk = false ↔
      x.misplacesSplice = true ∨ ∃ y ∈ x.unquoted, (Expr.ofForm scope y).result.isOk = false) ∧
    (∀ e, (Expr.template Expr.ofForm scope x).result = .ok e →
      ∀ limit c top w o w', o ≠ .exhausted →
        ((∃ fuel, perform limit fuel (.evaluate c top e) w = (o, w')) ↔
          ∃ fuel, x.walk (datumValue (perform limit fuel) c scope) c top w = (o, w'))) ∧
    (Expr.hasUnquote x = false →
      ∀ value c top, x.walk value c top = pure (Datum.ofForm x).toValue) := by
  refine ⟨fun loc => Expr.ofForm_quasiquote scope loc x, ?_, ?_, ?_⟩
  · rw [Expr.isOk_template, Bool.and_eq_false_iff, Bool.not_eq_false', List.all_eq_false]
    simp only [Bool.not_eq_true]
  · intro e he limit c top w o w' ho
    exact exists_perform_iff_walk (Expr.fills_template Expr.ofForm scope x e he) top ho
  · intro hdata value c top
    exact Form.walk_of_hasUnquote hdata top

end Machine

end ClauseLisp
