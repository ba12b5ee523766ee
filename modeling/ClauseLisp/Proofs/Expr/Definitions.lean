import ClauseLisp.Proofs.Expr.Scoped
import ClauseLisp.Session

/-! Which forms are definitions. Compiling a body asks its forms for the names that they define;
evaluating it asks their expressions. `Expr.ofForm_defines` says that both give the same answer but
for unquotes: they leave nothing in the expression, and hide a definition from the forms after
it. -/

namespace ClauseLisp

namespace Form

def unquoted? : Form → Option Form
  | marked _ .unquote x => some x
  | _ => none

end Form

def SpecialForm.wrapped? : SpecialForm → List Form → Option Form
  | unquote, [x] => some x
  | splice, [x] => some x
  | quasiquote, [x] => x.unquoted?
  | _, _ => none

namespace Form

/-- The form inside of one that is compiled to nothing but the form inside. -/
def wrapped? : Form → Option Form
  | marked _ .unquote x => some x
  | marked _ .splice x => some x
  | marked _ .quasiquote x => x.unquoted?
  | sequence _ .paren (f :: args) => f.head?.bind (·.wrapped? args)
  | _ => none

variable {x y : Form}

theorem eq_atom_of_symbol? {name : Bytes} (h : x.symbol? = some name) :
    ∃ loc, x = atom loc (.symbol name) := by
  unfold symbol? at h
  split at h
  · obtain rfl := Option.some.inj h
    exact ⟨_, rfl⟩
  · cases h

theorem eq_marked_of_unquoted? (h : x.unquoted? = some y) : ∃ loc, x = marked loc .unquote y := by
  unfold unquoted? at h
  split at h
  · obtain rfl := Option.some.inj h
    exact ⟨_, rfl⟩
  · cases h

theorem height_lt_of_unquoted? (h : x.unquoted? = some y) : y.height < x.height := by
  obtain ⟨loc, rfl⟩ := eq_marked_of_unquoted? h
  rw [height]
  omega

theorem exists_height_le_of_wrapped? {form : SpecialForm} {args : List Form}
    (h : form.wrapped? args = some y) : ∃ x ∈ args, y.height ≤ x.height := by
  unfold SpecialForm.wrapped? at h
  split at h
  · obtain rfl := Option.some.inj h
    exact ⟨_, List.mem_cons_self, Nat.le_refl _⟩
  · obtain rfl := Option.some.inj h
    exact ⟨_, List.mem_cons_self, Nat.le_refl _⟩
  · exact ⟨_, List.mem_cons_self, Nat.le_of_lt (height_lt_of_unquoted? h)⟩
  · cases h

theorem height_lt_of_wrapped? (h : x.wrapped? = some y) : y.height < x.height := by
  unfold wrapped? at h
  split at h
  · obtain rfl := Option.some.inj h
    rw [height]
    omega
  · obtain rfl := Option.some.inj h
    rw [height]
    omega
  · have hlt := height_lt_of_unquoted? h
    rw [height]
    omega
  · obtain ⟨form, -, hform⟩ := Option.bind_eq_some_iff.mp h
    obtain ⟨z, hz, hle⟩ := exists_height_le_of_wrapped? hform
    exact Nat.lt_of_le_of_lt hle (height_lt_of_mem (List.mem_cons_of_mem _ hz) _ _)
  · cases h

def unwrapped (x : Form) : Form :=
  match _ : x.wrapped? with
  | some y => y.unwrapped
  | none => x
termination_by x.height
decreasing_by exact height_lt_of_wrapped? ‹_›

theorem unwrapped_of_some (h : x.wrapped? = some y) : x.unwrapped = y.unwrapped := by
  rw [unwrapped]
  split
  · rename_i z hz
    rw [h] at hz
    rw [Option.some.inj hz]
  · rename_i hnone
    rw [h] at hnone
    cases hnone

theorem unwrapped_of_none (h : x.wrapped? = none) : x.unwrapped = x := by
  rw [unwrapped]
  split
  · rename_i z hz
    rw [h] at hz
    cases hz
  · rfl

end Form

theorem Report.gives_then {α β : Type} {R : β → Prop} {r : Report α} {f : α → Report β}
    (h : ∀ a, (f a).Gives R) : (r >>= f).Gives R :=
  (gives_any r).bind fun a _ => h a

namespace Expr

open Report (gives_pure gives_fail gives_then)

variable {rule : Rule} {scope : Scope} {loc : Location} {x y : Form} {xs args : List Form}
  {e : Expr}

theorem bound_eq_singleton_iff {name : Bytes} :
    e.bound = [name] ↔ ∃ value, e = .define name value := by
  cases e <;> simp [bound]

theorem formExpression_of_wrapped? (h : x.wrapped? = some y) :
    formExpression rule scope x = rule scope y := by
  unfold Form.wrapped? at h
  split at h
  · obtain rfl := Option.some.inj h
    rfl
  · obtain rfl := Option.some.inj h
    rfl
  · obtain ⟨loc, rfl⟩ := Form.eq_marked_of_unquoted? h
    rw [formExpression, template]
  · rename_i loc f args
    obtain ⟨form, hhead, hform⟩ := Option.bind_eq_some_iff.mp h
    obtain ⟨name, hsymbol, hname⟩ := Option.bind_eq_some_iff.mp hhead
    obtain ⟨loc', rfl⟩ := Form.eq_atom_of_symbol? hsymbol
    show callByName rule scope loc name args = _
    rw [callByName, hname]
    unfold SpecialForm.wrapped? at hform
    split at hform
    · obtain rfl := Option.some.inj hform
      rfl
    · obtain rfl := Option.some.inj hform
      rfl
    · obtain ⟨loc, rfl⟩ := Form.eq_marked_of_unquoted? hform
      show template rule scope (.marked loc .unquote y) = _
      rw [template]
    · cases hform
  · cases h

theorem bound_functionDefinition (exported : Bool) :
    (functionDefinition rule scope exported loc args).Gives fun e => e.bound = [] := by
  cases args with
  | nil => exact gives_fail _ _
  | cons first rest =>
    cases rest with
    | nil => exact gives_fail _ _
    | cons x rest => exact gives_then fun _ => gives_then fun _ => gives_pure rfl

theorem bound_moduleDefinition :
    (moduleDefinition rule scope loc args).Gives fun e => e.bound = [] := by
  unfold moduleDefinition
  split
  · exact gives_fail _ _
  · exact gives_then fun _ => gives_then fun _ => gives_pure rfl

theorem bound_letExpression : (letExpression rule scope loc args).Gives fun e => e.bound = [] := by
  unfold letExpression
  split
  · exact gives_then fun _ => gives_then fun _ => gives_then fun _ => gives_pure rfl
  · exact gives_fail _ _

theorem bound_ifExpression : (ifExpression rule scope loc args).Gives fun e => e.bound = [] := by
  unfold ifExpression
  split
  · exact gives_then fun _ => gives_then fun _ => gives_pure rfl
  · exact gives_then fun _ => gives_then fun _ => gives_then fun _ => gives_pure rfl
  · exact gives_fail _ _

theorem bound_condExpression :
    (condExpression rule scope loc args).Gives fun e => e.bound = [] := by
  refine gives_then fun branches => ?_
  dsimp only
  split
  · exact gives_then fun _ => gives_pure rfl
  · exact gives_pure rfl

theorem bound_caseExpression :
    (caseExpression rule scope loc args).Gives fun e => e.bound = [] := by
  unfold caseExpression
  split
  · exact gives_fail _ _
  · exact gives_then fun _ => gives_then fun _ => gives_pure rfl

theorem bound_lambdaExpression :
    (lambdaExpression rule scope loc args).Gives fun e => e.bound = [] := by
  unfold lambdaExpression
  split
  · exact gives_then fun _ => gives_pure rfl
  · split
    · exact gives_then fun _ => gives_pure rfl
    · exact gives_fail _ _
  · exact gives_fail _ _

theorem bound_template (h : x.unquoted? = none) :
    (template rule scope x).Gives fun e => e.bound = [] := by
  unfold template
  split
  · exact gives_pure rfl
  · exact gives_pure rfl
  · cases h
  · exact gives_fail _ _
  · exact gives_pure rfl
  · split
    · exact gives_pure rfl
    · split
      · exact gives_then fun _ => gives_pure rfl
      · exact gives_then fun _ => gives_pure rfl

theorem forEach_ne_nil {f : Form → Report Expr} :
    (Report.forEach f (x :: xs)).Gives fun es => es ≠ [] :=
  gives_then fun e => gives_then fun es => gives_pure (List.cons_ne_nil e es)

theorem bound_foldl {combine : Expr → Expr → Expr} (h : ∀ a b, (combine a b).bound = [])
    {es : List Expr} (hes : es ≠ []) : (es.foldl combine e).bound = [] := by
  rw [← List.dropLast_concat_getLast hes, List.foldl_append]
  exact h _ _

theorem bound_logical {form : Bytes} {combine : Expr → Expr → Expr}
    (h : ∀ a b, (combine a b).bound = []) :
    (logical rule scope form combine loc args).Gives fun e => e.bound = [] := by
  unfold logical
  split
  · exact gives_then fun e => forEach_ne_nil.bind fun es hes => gives_pure (bound_foldl h hes)
  · exact gives_fail _ _

theorem bound_operationCall (op : Operation.Entry) :
    (operationCall rule scope loc args op).Gives fun e => e.bound = [] := by
  unfold operationCall
  split
  · exact gives_then fun _ => gives_then fun _ => gives_pure rfl
  · exact gives_then fun _ => gives_then fun _ => gives_pure rfl
  · exact gives_then fun _ => gives_pure rfl
  · split
    · exact gives_then fun e => forEach_ne_nil.bind fun es hes =>
        gives_pure (bound_foldl (fun _ _ => rfl) hes)
    · split
      · exact gives_then fun _ => gives_pure rfl
      · exact gives_fail _ _
    · exact gives_fail _ _

theorem bound_fieldAccess (field : Bytes) :
    (fieldAccess rule scope loc field args).Gives fun e => e.bound = [] := by
  unfold fieldAccess
  split
  · exact gives_then fun _ => gives_pure rfl
  · exact gives_fail _ _

theorem definition_gives_of_unnamed {Q : Expr → Prop} (h : args.head?.bind Form.symbol? = none) :
    (definition rule scope loc args).Gives Q := by
  unfold definition
  split
  · rename_i first value
    have hfirst : first.symbol? = none := h
    have hname : expectName (utf8 "def") first =
        .fail (.notAName (utf8 "def") first.text) first.loc := by
      rw [expectName, hfirst]
    rw [hname]
    exact (gives_fail (Q := fun _ => False) _ _).bind fun _ => False.elim
  · exact gives_fail _ _

theorem onlyArgument_gives_eq (form : SpecialForm) :
    (onlyArgument form loc args).Gives fun x => args = [x] := by
  unfold onlyArgument
  split
  · exact gives_pure rfl
  · exact gives_fail _ _

theorem bound_specialForm {form : SpecialForm} (hdefine : form ≠ .define)
    (hw : form.wrapped? args = none) :
    (specialForm rule scope loc args form).Gives fun e => e.bound = [] := by
  cases form with
  | defineFunction => exact bound_functionDefinition true
  | definePrivate => exact bound_functionDefinition false
  | define => exact absurd rfl hdefine
  | defineModule => exact bound_moduleDefinition
  | letIn => exact bound_letExpression
  | ifThen => exact bound_ifExpression
  | cond => exact bound_condExpression
  | caseOf => exact bound_caseExpression
  | lambda => exact bound_lambdaExpression
  | sequence => exact gives_then fun _ => gives_pure rfl
  | quote => exact gives_then fun _ => gives_pure rfl
  | quasiquote =>
    refine (onlyArgument_gives_eq .quasiquote).bind fun x hx => bound_template ?_
    rw [hx] at hw
    exact hw
  | unquote =>
    refine (onlyArgument_gives_eq .unquote).bind fun x hx => ?_
    rw [hx] at hw
    cases hw
  | splice =>
    refine (onlyArgument_gives_eq .splice).bind fun x hx => ?_
    rw [hx] at hw
    cases hw
  | attempt => exact gives_then fun _ => gives_then fun _ => gives_pure rfl
  | and => exact bound_logical fun _ _ => rfl
  | or => exact bound_logical fun _ _ => rfl
  | list => exact gives_then fun _ => gives_pure rfl

theorem eq_def_of_ofName? {name : Bytes} (h : SpecialForm.ofName? name = some .define) :
    name = utf8 "def" := by
  have htable : ∀ p ∈ SpecialForm.table, p.2 = .define → p.1 = utf8 "def" := by decide
  obtain ⟨before, after, happend, -⟩ := List.lookup_eq_some_iff.mp h
  exact htable (name, .define) (by rw [happend]; simp) rfl

theorem bound_callByName {name : Bytes} (loc' : Location)
    (hd : definedName? (.sequence loc .paren (.atom loc' (.symbol name) :: args)) = none)
    (hw : (Form.sequence loc .paren (.atom loc' (.symbol name) :: args)).wrapped? = none) :
    (callByName rule scope loc name args).Gives fun e => e.bound = [] := by
  unfold callByName
  cases hform : SpecialForm.ofName? name with
  | some form =>
    by_cases hdefine : form = .define
    · -- The list begins with `def` but names nothing, so it is not compiled at all.
      subst hdefine
      obtain rfl := eq_def_of_ofName? hform
      refine definition_gives_of_unnamed ?_
      cases args with
      | nil => rfl
      | cons first rest => exact hd
    · have hwrapped : form.wrapped? args = none := by
        simpa [Form.wrapped?, Form.head?, Form.symbol?, hform] using hw
      exact bound_specialForm hdefine hwrapped
  | none =>
    dsimp only
    split
    · exact bound_operationCall _
    · split
      · exact bound_fieldAccess _
      · refine gives_then fun es => ?_
        split
        · exact gives_pure rfl
        · split
          · exact gives_pure rfl
          · exact gives_pure rfl

theorem bound_listExpression (hd : definedName? (.sequence loc .paren xs) = none)
    (hw : (Form.sequence loc .paren xs).wrapped? = none) :
    (listExpression rule scope loc xs).Gives fun e => e.bound = [] := by
  unfold listExpression
  split
  · exact gives_pure rfl
  · split
    · exact bound_callByName _ hd hw
    · exact bound_fieldAccess _
    · split
      · exact gives_then fun _ => gives_then fun _ => gives_pure rfl
      · exact gives_fail _ _

theorem bound_formExpression_of_none (hd : definedName? x = none) (hw : x.wrapped? = none) :
    (formExpression rule scope x).Gives fun e => e.bound = [] := by
  unfold formExpression
  split
  · refine gives_pure ?_
    split <;> rfl
  · exact gives_pure rfl
  · exact gives_pure rfl
  · exact bound_listExpression hd hw
  · exact gives_then fun _ => gives_pure rfl
  · exact gives_then fun _ => gives_pure rfl
  · exact gives_pure rfl
  · exact bound_template hw
  · cases hw
  · cases hw

theorem wrapped?_of_definedName? {name : Bytes} (h : definedName? x = some name) :
    x.wrapped? = none := by
  unfold definedName? at h
  split at h
  · rename_i loc f y rest
    split at h
    · rename_i hf
      obtain ⟨loc', rfl⟩ := Form.eq_atom_of_symbol? hf
      rfl
    · cases h
  · cases h

theorem bound_ofFormWithin {n : Nat} (hx : x.height ≤ n) :
    (ofFormWithin n scope x).Gives fun e => e.bound = (definedName? x.unwrapped).toList := by
  induction n generalizing x with
  | zero =>
    have hpos := height_pos x
    omega
  | succ n ih =>
    show (formExpression (ofFormWithin n) scope x).Gives _
    -- Only a wrapper passes on what the rule gives for a smaller form; all other forms are decided
    -- by their own constructor.
    cases hw : x.wrapped? with
    | some y =>
      have hlt := Form.height_lt_of_wrapped? hw
      rw [formExpression_of_wrapped? hw, Form.unwrapped_of_some hw]
      exact ih (by omega)
    | none =>
      rw [Form.unwrapped_of_none hw]
      cases hd : definedName? x with
      | some name => exact bound_formExpression hd
      | none => exact bound_formExpression_of_none hd hw

theorem bound_ofForm (h : (ofForm scope x).result = .ok e) :
    e.bound = (definedName? x.unwrapped).toList :=
  bound_ofFormWithin (Nat.le_refl _) e h

/-- A form is compiled to a definition of a name just if, unwrapped, it says that it defines the
name. So the forms after it are compiled with the name known just if they are evaluated with the
name bound, except where the definition is wrapped. -/
theorem ofForm_defines (h : (ofForm scope x).result = .ok e) (name : Bytes) :
    ((∃ value, e = .define name value) ↔ definedName? x.unwrapped = some name) ∧
      (((∃ value, e = .define name value) ↔ definedName? x = some name) ↔
        (definedName? x.unwrapped = some name → x.wrapped? = none)) := by
  have hdefines : (∃ value, e = .define name value) ↔ definedName? x.unwrapped = some name := by
    rw [← bound_eq_singleton_iff, bound_ofForm h, Option.toList_eq_singleton_iff]
  refine ⟨hdefines, ?_⟩
  rw [hdefines]
  constructor
  · intro hagree hname
    exact wrapped?_of_definedName? (hagree.mp hname)
  · intro hplain
    constructor
    · intro hname
      rwa [Form.unwrapped_of_none (hplain hname)] at hname
    · intro hname
      rwa [Form.unwrapped_of_none (wrapped?_of_definedName? hname)]

def plainDefinition : Form :=
  .sequence .unknown .paren [.atom .unknown (.symbol (utf8 "def")),
    .atom .unknown (.symbol (utf8 "x")), .atom .unknown (.number (.integer 1))]

def layeredDefinition : Form :=
  .sequence .unknown .paren [.atom .unknown (.symbol (utf8 "unquote")),
    .marked .unknown .quasiquote (.marked .unknown .unquote plainDefinition)]

theorem ofForm_defines_layers :
    definedName? layeredDefinition.unwrapped = some (utf8 "x") ∧
      ∃ e, (ofForm [] plainDefinition).result = .ok e ∧
        ((∃ value, e = .define (utf8 "x") value) ↔
          definedName? plainDefinition = some (utf8 "x")) := by
  have hlayered : (ofForm [] layeredDefinition).result =
      .ok (.define (utf8 "x") (.literal (.integer 1))) := rfl
  have hplain : (ofForm [] plainDefinition).result =
      .ok (.define (utf8 "x") (.literal (.integer 1))) := rfl
  exact ⟨(ofForm_defines hlayered _).1.mp ⟨_, rfl⟩,
    _, hplain, (ofForm_defines hplain _).2.mpr fun _ => rfl⟩

/-- Evaluating an unquoted definition binds the name, but the forms after it are compiled without: a
body that uses the name has a value with the plain definition and none with the unquoted one. -/
theorem ofForm_defines_unquoted :
    (∃ value, (ofForm [] (.marked .unknown .unquote plainDefinition)).result =
        .ok (.define (utf8 "x") value)) ∧
      definedName? (.marked .unknown .unquote plainDefinition) = none ∧
      ((Session.eval (utf8 "((fn [] (do (def x 1) x)))") []).run.run
        (Session.start 1000)).1.toOption.any (·.equal (.integer 1)) = true ∧
      ((Session.eval (utf8 "((fn [] (do ~(def x 1) x)))") []).run.run
        (Session.start 1000)).1.toOption.isNone = true := by
  refine ⟨⟨_, rfl⟩, rfl, ?_⟩
  decide +kernel

end Expr
end ClauseLisp
