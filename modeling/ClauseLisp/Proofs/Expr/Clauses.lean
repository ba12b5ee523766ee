import ClauseLisp.Proofs.Expr.Inheritance
import ClauseLisp.Proofs.Expr.Agreement

/-! Two forms after the name of a function. They are read as clauses unless one of them mentions a
name that the first one would bind as an argument list. The names are looked for in the forms, while
it matters which references there are in the clauses. All of them are found but those in a template
and those in a guard among the parameters. -/

namespace ClauseLisp

namespace Form

mutual

def visible : Form → List Bytes
  | atom _ (.symbol name) => [name]
  | atom .. => []
  | marked _ .quote _ => []
  | marked _ _ x => visible x
  | sequence _ _ xs => visibleAll xs

def visibleAll : List Form → List Bytes
  | [] => []
  | x :: xs => visible x ++ visibleAll xs

end

mutual

def templated : Form → List Bytes
  | atom .. => []
  | marked _ .quote _ => []
  | marked _ .quasiquote x => visible x
  | marked _ _ x => templated x
  | sequence _ _ xs => templatedAll xs

def templatedAll : List Form → List Bytes
  | [] => []
  | x :: xs => templated x ++ templatedAll xs

end

theorem mem_visibleAll {name : Bytes} {xs : List Form} :
    name ∈ visibleAll xs ↔ ∃ x ∈ xs, name ∈ x.visible := by
  induction xs with
  | nil => simp [visibleAll]
  | cons x xs ih => simp [visibleAll, ih]

def functionKeyword (exported : Bool) : Bytes := utf8 (if exported then "defn" else "defp")

def functionForm (exported : Bool) (loc headLoc nameLoc : Location) (name : Bytes)
    (rest : List Form) : Form :=
  .sequence loc .paren (.atom headLoc (.symbol (functionKeyword exported)) ::
    .atom nameLoc (.symbol name) :: rest)

theorem visible_marked {loc : Location} {m : Mark} (h : m ≠ .quote) (x : Form) :
    (marked loc m x).visible = x.visible := by
  cases m with
  | quote => exact absurd rfl h
  | _ => rfl

mutual

theorem mentioned_or_templated {name : Bytes} {x : Form} (h : name ∈ x.visible) :
    name ∈ Expr.mentioned x ∨ name ∈ x.templated := by
  match x with
  | .atom _ a =>
    cases a with
    | symbol _ => exact Or.inl h
    | _ => simp [visible] at h
  | .marked _ m y =>
    cases m with
    | quote => simp [visible] at h
    | quasiquote => exact Or.inr h
    | unquote | splice =>
      show name ∈ Expr.mentioned y ∨ name ∈ y.templated
      exact mentioned_or_templated h
  | .sequence _ _ xs =>
    show name ∈ Expr.mentionedAll xs ∨ name ∈ templatedAll xs
    exact mentioned_or_templatedAll h

theorem mentioned_or_templatedAll {name : Bytes} {xs : List Form} (h : name ∈ visibleAll xs) :
    name ∈ Expr.mentionedAll xs ∨ name ∈ templatedAll xs := by
  match xs with
  | [] => simp [visibleAll] at h
  | x :: xs =>
    rw [Expr.mentionedAll, templatedAll, List.mem_append, List.mem_append]
    rcases List.mem_append.mp h with h | h
    · exact (mentioned_or_templated h).imp Or.inl Or.inl
    · exact (mentioned_or_templatedAll h).imp Or.inr Or.inr

end

end Form

namespace Expr

inductive RefersFreely (name : Bytes) : Expr → Prop
  | freeRef {loc} : RefersFreely name (.freeRef loc name)
  | child {e x} : x ∈ e.children → RefersFreely name x → RefersFreely name e

def Hidden (name : Bytes) (scope : Scope) (x : Form) : Prop := name ∈ scope ∨ name ∉ x.visible

theorem inherits_not_refersFreely (name : Bytes) :
    Inherits (Hidden name) fun e => ¬ e.RefersFreely name where
  bind other h := h.imp_left (List.mem_cons_of_mem other)
  elements {scope loc b xs} h x hx := by
    refine h.imp_right fun hxs hvisible => hxs ?_
    exact Form.mem_visibleAll.mpr ⟨x, hx, hvisible⟩
  datum {scope loc m x} hm h := by
    rw [Hidden, Form.visible_marked hm] at h
    exact h
  freeRef {scope loc other} h hfree hrefers := by
    cases hrefers with
    | freeRef =>
      rcases h with h | h
      · exact hfree h
      · exact h (List.mem_singleton.mpr rfl)
    | child hx _ => exact absurd hx List.not_mem_nil
  node {e} he h hrefers := by
    cases hrefers with
    | freeRef => exact Bool.noConfusion he
    | child hx hrefers => exact h _ hx hrefers

end Expr

def Clause.RefersFreely (c : Clause) (name : Bytes) : Prop :=
  ∃ e ∈ c.body :: c.guards, e.RefersFreely name

namespace Expr

/-- The name stands in a clause only where reading it does not look for names: in a guard among the
parameters, or in a template. -/
inductive Overlooked (name : Bytes) (x : Form) : Prop
  | guard {params rest xs ps guards} : x.elements? = some (params :: rest) →
    name ∉ mentionedAll rest → listed? params = some xs →
    (Pattern.ofForms xs).result = .ok (ps, guards) → name ∈ Form.visibleAll guards →
    Overlooked name x
  | template {params rest} : x.elements? = some (params :: rest) → name ∉ mentionedAll rest →
    name ∈ Form.templatedAll rest → Overlooked name x

variable {scope : Scope} {x y params body : Form} {guard : Option Form} {bound : List Bytes}

theorem elements?_of_clauseParts? (h : clauseParts? x = some (params, guard, body)) :
    ∃ rest, x.elements? = some (params :: rest) ∧ body ∈ rest ∧ ∀ g ∈ guard, g ∈ rest := by
  have helements : ∀ {xs}, listed? x = some xs → x.elements? = some xs := by
    intro xs hl
    match x with
    | .sequence _ .paren _ | .sequence _ .square _ => exact hl
    | .sequence _ .brace _ | .atom .. | .marked .. => simp [listed?] at hl
  unfold clauseParts? at h
  split at h
  · rename_i hl
    obtain ⟨-, rfl, rfl, rfl⟩ := by simpa using h
    exact ⟨_, helements hl, by simp, by simp⟩
  · rename_i hl
    obtain ⟨-, rfl, rfl, rfl⟩ := by simpa using h
    exact ⟨_, helements hl, by simp, by simp⟩
  · rename_i hl
    obtain ⟨-, rfl, rfl, rfl⟩ := by simpa using h
    exact ⟨_, helements hl, by simp, by simp⟩
  · simp at h

theorem namesBound?_of_ofForms {xs : List Form} {ps : List Pattern} {guards : List Form}
    (hl : listed? params = some xs) (hps : (Pattern.ofForms xs).result = .ok (ps, guards)) :
    namesBound? params = some (Pattern.namesAll ps) := by
  unfold namesBound?
  simp only [hl, hps]

theorem readingOf?_eq_none {rest : List Form} (helements : x.elements? = some (params :: rest))
    (h : readingOf? scope bound x = none) :
    ∃ own, namesBound? params = some own ∧
      ∀ name ∈ mentionedAll rest, name ∈ bound → name ∈ own ∨ name ∈ scope := by
  unfold readingOf? at h
  rw [helements] at h
  dsimp only at h
  cases hown : namesBound? params with
  | none => simp [hown] at h
  | some own =>
    refine ⟨own, rfl, fun name hmentioned hbound => ?_⟩
    by_contra hfree
    obtain ⟨hown', hscope⟩ := not_or.mp hfree
    have hcaptured : (mentionedAll rest).any (fun name =>
        !scope.contains name && !own.contains name && bound.contains name) = true := by
      refine List.any_eq_true.mpr ⟨name, hmentioned, ?_⟩
      simp [hscope, hown', hbound]
    simp only [hown, hcaptured, if_true] at h
    cases h

theorem readingOf?_ne_clauses : readingOf? scope bound x ≠ some .clauses := by
  unfold readingOf?
  grind

theorem readingOf?_eq_single {rest : List Form} (helements : x.elements? = some (params :: rest))
    (h : readingOf? scope bound x = some .single) : namesBound? params = none := by
  unfold readingOf? at h
  rw [helements] at h
  grind

theorem readTwo_cases (scope : Scope) (y : Form) (hbound : namesBound? x = some bound) :
    (readTwo scope x y = .clauses ∧ ∀ z ∈ [x, y], readingOf? scope bound z = none) ∨
      (readTwo scope x y = .single ∧ ∃ z ∈ [x, y], readingOf? scope bound z = some .single) ∨
      readTwo scope x y = .ambiguous := by
  have hx : readingOf? scope bound x ≠ some .clauses := readingOf?_ne_clauses
  have hy : readingOf? scope bound y ≠ some .clauses := readingOf?_ne_clauses
  unfold readTwo
  rw [hbound]
  cases h : readingOf? scope bound x with
  | none =>
    cases h' : readingOf? scope bound y with
    | none => simp [h, h']
    | some reading => cases reading <;> simp_all
  | some reading => cases reading <;> simp_all

theorem namesBound?_of_clause {rule : Rule} {form : Bytes} {c : Clause}
    (h : (clause rule scope form params guard body).result = .ok c) :
    namesBound? params ≠ none := by
  unfold clause at h
  cases hl : listed? params with
  | none => simp [hl, Report.fail] at h
  | some xs =>
    cases hps : (Pattern.ofForms xs).result with
    | error e =>
      rw [hl] at h
      dsimp only at h
      rw [Report.bind_of_error (by rw [hps]; rfl)] at h
      cases h
    | ok r =>
      rw [namesBound?_of_ofForms hl hps]
      exact Option.some_ne_none _

theorem overlooked_of_refersFreely {rule : Rule} {form name : Bytes}
    {parts : Form × Option Form × Form}
    (hr : Passes (Hidden name) (fun e => ¬ e.RefersFreely name) rule)
    (hparts : clauseParts? x = some parts) (hopen : readingOf? scope bound x = none)
    (hbound : name ∈ bound) :
    (clauseOfParts rule scope form parts).Gives fun c =>
      c.RefersFreely name → Overlooked name x := by
  obtain ⟨params, guard, body⟩ := parts
  obtain ⟨rest, helements, hbody, hguard⟩ := elements?_of_clauseParts? hparts
  obtain ⟨own, hown, hrest⟩ := readingOf?_eq_none helements hopen
  rintro c hc ⟨e, he, hfree⟩
  by_contra hseen
  -- The name is bound around the guards and the body, or it stands in none of them.
  refine hr.clause_of_inner (fun xs ps guards hl hps z hz => ?_) c hc e he hfree
  have hnames : own = Pattern.namesAll ps :=
    Option.some.inj (hown.symm.trans (namesBound?_of_ofForms hl hps))
  by_cases hmentioned : name ∈ mentionedAll rest
  · left
    rw [List.mem_append, List.mem_reverse, ← hnames]
    exact hrest name hmentioned hbound
  right
  intro hvisible
  have hpast : z ∉ rest := by
    intro hz
    rcases Form.mentioned_or_templatedAll (Form.mem_visibleAll.mpr ⟨z, hz, hvisible⟩) with h | h
    · exact hmentioned h
    · exact hseen (.template helements hmentioned h)
  rcases List.mem_cons.mp hz with rfl | hz
  · exact hpast hbody
  rcases List.mem_append.mp hz with hz | hz
  · have hguards := Form.mem_visibleAll.mpr ⟨z, hz, hvisible⟩
    exact hseen (.guard helements hmentioned hl hps hguards)
  · exact hpast (hguard z (Option.mem_toList.mp hz))

theorem passes_ofFormWithin (name : Bytes) (n : Nat) :
    Passes (Hidden name) (fun e => ¬ e.RefersFreely name) (ofFormWithin n) :=
  ⟨inherits_not_refersFreely name, (inherits_not_refersFreely name).ofFormWithin n⟩

theorem passes_ofForm (name : Bytes) :
    Passes (Hidden name) (fun e => ¬ e.RefersFreely name) ofForm :=
  ⟨inherits_not_refersFreely name, (inherits_not_refersFreely name).ofForm⟩

section FunctionForm

variable {exported : Bool} {loc headLoc nameLoc : Location} {name : Bytes}

theorem exists_ofName?_functionKeyword (exported : Bool) : ∃ form,
    SpecialForm.ofName? (Form.functionKeyword exported) = some form ∧
      ∀ rule scope loc args, specialForm rule scope loc args form =
        functionDefinition rule scope exported loc args := by
  cases exported with
  | true => exact ⟨.defineFunction, by decide, fun _ _ _ _ => rfl⟩
  | false => exact ⟨.definePrivate, by decide, fun _ _ _ _ => rfl⟩

theorem ofForm_functionForm (scope : Scope) (exported : Bool) (loc headLoc nameLoc : Location)
    (name : Bytes) (x : Form) (rest : List Form) : ∃ n,
    (ofForm scope (.functionForm exported loc headLoc nameLoc name (x :: rest))).result =
      (functionClauses (ofFormWithin n) scope (Form.functionKeyword exported) name loc
        (x :: rest) >>= fun cs => pure (.defineFunction name exported cs)).result := by
  obtain ⟨form, hname, hform⟩ := exists_ofName?_functionKeyword exported
  have h := ofForm_eq_specialForm hname scope loc headLoc
    (.atom nameLoc (.symbol name) :: x :: rest)
  rw [hform] at h
  exact ⟨_, congrArg Report.result h⟩

theorem singleClause_gives (rule : Rule) (scope : Scope) (form name : Bytes) (loc : Location)
    (xs : List Form) :
    (singleClause rule scope form name loc xs).Gives fun cs => cs.length ≠ xs.length := by
  unfold singleClause
  split
  · exact (Report.gives_any _).bind fun c _ => Report.gives_pure (by simp)
  · split
    · exact (Report.gives_any _).bind fun c _ => Report.gives_pure (by simp)
    · exact Report.gives_fail _ _
  · exact Report.gives_fail _ _

variable {px py : Form × Option Form × Form}

theorem functionClauses_two (rule : Rule) (scope : Scope) (form name : Bytes) (loc : Location)
    (hx : clauseParts? x = some px) (hy : clauseParts? y = some py) :
    functionClauses rule scope form name loc [x, y] = (readTwo scope x y).casesOn
      (Report.forEach (clauseOfParts rule scope form) [px, py])
      (singleClause rule scope form name loc [x, y])
      (.fail (.ambiguousFunction form name) loc) := by
  have hparts : [x, y].mapM clauseParts? = some [px, py] := by simp [hx, hy]
  unfold functionClauses
  rw [hparts]
  dsimp only
  cases readTwo scope x y <;> rfl

theorem overlooked_of_two_clauses {c d : Clause} (hx : clauseParts? x = some px)
    (hy : clauseParts? y = some py) (hbound : namesBound? x = some bound)
    (h : (ofForm scope (.functionForm exported loc headLoc nameLoc name [x, y])).result =
      .ok (.defineFunction name exported [c, d]))
    {n : Bytes} (hn : n ∈ bound) :
    (c.RefersFreely n → Overlooked n x) ∧ (d.RefersFreely n → Overlooked n y) := by
  obtain ⟨m, hform⟩ := ofForm_functionForm scope exported loc headLoc nameLoc name x [y]
  rw [hform, functionClauses_two _ _ _ _ _ hx hy] at h
  rcases readTwo_cases scope y hbound with ⟨hread, hopen⟩ | ⟨hread, -⟩ | hread
  · rw [hread, Report.result_eq_ok_iff] at h
    obtain ⟨hc, hd⟩ : (clauseOfParts (ofFormWithin m) scope (Form.functionKeyword exported)
        px).result = .ok c ∧ (clauseOfParts (ofFormWithin m) scope (Form.functionKeyword exported)
        py).result = .ok d := by
      simpa [Report.forEach, Report.toOption_bind, Report.result_eq_ok_iff,
        Option.bind_eq_some_iff] using h
    have hr := passes_ofFormWithin n m
    exact ⟨overlooked_of_refersFreely hr hx (hopen x (by simp)) hn c hc,
      overlooked_of_refersFreely hr hy (hopen y (by simp)) hn d hd⟩
  · rw [hread] at h
    have hlength : (singleClause (ofFormWithin m) scope (Form.functionKeyword exported) name loc
        [x, y] >>= fun cs => pure (Expr.defineFunction name exported cs)).Gives fun e =>
        ∃ cs, e = .defineFunction name exported cs ∧ cs.length ≠ [x, y].length :=
      (singleClause_gives _ _ _ _ _ _).bind fun cs hcs => Report.gives_pure ⟨cs, rfl, hcs⟩
    obtain ⟨cs, he, hcs⟩ := hlength _ h
    cases he
    exact absurd rfl hcs
  · rw [hread] at h
    cases h

theorem ambiguous_of_refersFreely {c d : Clause} (hx : clauseParts? x = some px)
    (hy : clauseParts? y = some py) (hbound : namesBound? x = some bound)
    (hc : (clauseOfParts ofForm scope (Form.functionKeyword exported) px).result = .ok c)
    (hd : (clauseOfParts ofForm scope (Form.functionKeyword exported) py).result = .ok d)
    {n : Bytes} (hn : n ∈ bound)
    (hrefers : (c.RefersFreely n ∧ ¬ Overlooked n x) ∨ (d.RefersFreely n ∧ ¬ Overlooked n y)) :
    (ofForm scope (.functionForm exported loc headLoc nameLoc name [x, y])).result =
      .error ⟨.ambiguousFunction (Form.functionKeyword exported) name, loc⟩ := by
  obtain ⟨m, hform⟩ := ofForm_functionForm scope exported loc headLoc nameLoc name x [y]
  rw [hform, functionClauses_two _ _ _ _ _ hx hy]
  rcases readTwo_cases scope y hbound with ⟨-, hopen⟩ | ⟨-, z, hz, hsingle⟩ | hread
  · have hr := passes_ofForm n
    rcases hrefers with ⟨hrefers, hseen⟩ | ⟨hrefers, hseen⟩
    · exact absurd (overlooked_of_refersFreely hr hx (hopen x (by simp)) hn c hc hrefers) hseen
    · exact absurd (overlooked_of_refersFreely hr hy (hopen y (by simp)) hn d hd hrefers) hseen
  · -- The clauses have parameters that can be read, which rules a single clause out.
    have hreadable : ∀ {z parts e}, clauseParts? z = some parts →
        (clauseOfParts ofForm scope (Form.functionKeyword exported) parts).result = .ok e →
        readingOf? scope bound z ≠ some .single := by
      rintro z ⟨params, guard, body⟩ e hparts he hsingle
      obtain ⟨rest, helements, -⟩ := elements?_of_clauseParts? hparts
      exact namesBound?_of_clause he (readingOf?_eq_single helements hsingle)
    rcases List.mem_pair.mp hz with rfl | rfl
    · exact absurd hsingle (hreadable hx hc)
    · exact absurd hsingle (hreadable hy hd)
  · rw [hread]
    rfl

/-- Two forms have the shape of clauses, and the first one could be an argument list. If they are
read as clauses, no reference to a name of that argument list is free in them but for overlooked
ones. If one of the clauses has another such reference, the definition is refused. -/
theorem functionForm_two_clauses {xs guards : List Form} {ps : List Pattern} (scope : Scope)
    (exported : Bool) (loc headLoc nameLoc : Location) (name : Bytes)
    (hx : clauseParts? x = some px) (hy : clauseParts? y = some py)
    (hlisted : listed? x = some xs) (hpatterns : (Pattern.ofForms xs).result = .ok (ps, guards)) :
    (∀ c d, (ofForm scope (.functionForm exported loc headLoc nameLoc name [x, y])).result =
        .ok (.defineFunction name exported [c, d]) →
      ∀ n ∈ Pattern.namesAll ps,
        (c.RefersFreely n → Overlooked n x) ∧ (d.RefersFreely n → Overlooked n y)) ∧
    (∀ c d, (clauseOfParts ofForm scope (Form.functionKeyword exported) px).result = .ok c →
      (clauseOfParts ofForm scope (Form.functionKeyword exported) py).result = .ok d →
      ∀ n ∈ Pattern.namesAll ps,
        (c.RefersFreely n ∧ ¬ Overlooked n x) ∨ (d.RefersFreely n ∧ ¬ Overlooked n y) →
        (ofForm scope (.functionForm exported loc headLoc nameLoc name [x, y])).result =
          .error ⟨.ambiguousFunction (Form.functionKeyword exported) name, loc⟩) := by
  have hbound := namesBound?_of_ofForms hlisted hpatterns
  constructor
  · intro c d h n hn
    exact overlooked_of_two_clauses hx hy hbound h hn
  · intro c d hc hd n hn hrefers
    exact ambiguous_of_refersFreely hx hy hbound hc hd hn hrefers

end FunctionForm

def symbolForm (name : String) : Form := .atom .unknown (.symbol (utf8 name))

def clauseForm (params : List Form) (body : Form) : Form :=
  .sequence .unknown .square [.sequence .unknown .square params, body]

def bindsA : Form := clauseForm [symbolForm "a"] (.atom .unknown (.number (.integer 1)))

theorem functionForm_two_clauses_secondUsesA :
    (∃ c d, (ofForm [] (.functionForm true .unknown .unknown .unknown (utf8 "f")
        [bindsA, clauseForm [symbolForm "a", symbolForm "b"] (symbolForm "a")])).result =
          .ok (.defineFunction (utf8 "f") true [c, d]) ∧ ¬ d.RefersFreely (utf8 "a")) ∧
      (ofForm [] (.functionForm true .unknown .unknown .unknown (utf8 "f")
        [bindsA, clauseForm [symbolForm "b"] (symbolForm "a")])).result =
          .error ⟨.ambiguousFunction (utf8 "defn") (utf8 "f"), .unknown⟩ := by
  have hseen : ∀ params, (Pattern.ofForms params).result.toOption.all (·.2.isEmpty) = true →
      ¬ Overlooked (utf8 "a") (clauseForm params (symbolForm "a")) := by
    rintro params hguards (⟨he, -, hl, hp, hn⟩ | ⟨he, -, hn⟩)
    · cases he
      cases hl
      rw [hp] at hguards
      obtain rfl := List.isEmpty_iff.mp hguards
      cases hn
    · cases he
      cases hn
  constructor
  · refine ⟨_, _, rfl, fun hrefers => ?_⟩
    have h := (functionForm_two_clauses [] true .unknown .unknown .unknown (utf8 "f")
      (x := bindsA) (y := clauseForm [symbolForm "a", symbolForm "b"] (symbolForm "a"))
      rfl rfl rfl rfl).1 _ _ rfl (utf8 "a") (by decide)
    exact hseen _ (by decide) (h.2 hrefers)
  · refine (functionForm_two_clauses [] true .unknown .unknown .unknown (utf8 "f")
      (x := bindsA) (y := clauseForm [symbolForm "b"] (symbolForm "a"))
      rfl rfl rfl rfl).2 _ _ rfl rfl (utf8 "a") (by decide) (Or.inr ⟨?_, hseen _ (by decide)⟩)
    exact ⟨_, List.mem_cons_self, .freeRef⟩

/-- In a template, and in a guard among the parameters, the second clause may leave `a` free. -/
theorem functionForm_two_clauses_overlooked :
    namesBound? bindsA = some [utf8 "a"] ∧
      (∃ c d, (ofForm [] (.functionForm true .unknown .unknown .unknown (utf8 "f")
        [bindsA, clauseForm [symbolForm "b"] (.marked .unknown .quasiquote
          (.sequence .unknown .paren [.marked .unknown .unquote (symbolForm "a")]))])).result =
            .ok (.defineFunction (utf8 "f") true [c, d]) ∧ d.RefersFreely (utf8 "a")) ∧
      ∃ c d, (ofForm [] (.functionForm true .unknown .unknown .unknown (utf8 "f")
        [bindsA, clauseForm [.sequence .unknown .paren [symbolForm "when", symbolForm "b",
          .sequence .unknown .paren [symbolForm ">", symbolForm "b", symbolForm "a"]]]
          (.atom .unknown (.number (.integer 1)))])).result =
            .ok (.defineFunction (utf8 "f") true [c, d]) ∧ d.RefersFreely (utf8 "a") := by
  have hfree : (Expr.freeRef .unknown (utf8 "a")).RefersFreely (utf8 "a") := .freeRef
  refine ⟨by decide, ⟨_, _, rfl, _, List.mem_cons_self, .child ?_ hfree⟩,
    _, _, rfl, _, List.mem_cons_of_mem _ List.mem_cons_self, .child ?_ hfree⟩
  · exact List.mem_cons_self
  · exact List.mem_cons_of_mem _ List.mem_cons_self

end Expr
end ClauseLisp
