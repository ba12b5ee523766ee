import ClauseLisp.Proofs.Expr.Clauses
import ClauseLisp.Proofs.Machine.Fuel
import ClauseLisp.Proofs.World.Lookup

/-! Clauses of one definition and of several. A definition with many clauses does the same as one
definition for each of them, in their order. -/

namespace ClauseLisp

namespace Expr

variable {rule : Rule} {scope : Scope} {form name : Bytes} {loc : Location}

def CompilesTo (rule : Rule) (scope : Scope) (form : Bytes) (x : Form) (clause : Clause) : Prop :=
  ∃ parts, clauseParts? x = some parts ∧ (clauseOfParts rule scope form parts).result = .ok clause

theorem compilesTo_of_mapM {xs : List Form} {parts : List (Form × Option Form × Form)}
    {clauses : List Clause} (hparts : xs.mapM clauseParts? = some parts)
    (h : (Report.forEach (clauseOfParts rule scope form) parts).result = .ok clauses) :
    List.Forall₂ (CompilesTo rule scope form) xs clauses := by
  induction xs generalizing parts clauses with
  | nil =>
    obtain rfl : [] = parts := by simpa using hparts
    obtain rfl : [] = clauses := by simpa [Report.forEach] using Except.ok.inj h
    exact .nil
  | cons x xs ih =>
    obtain ⟨p, hp, ps, hps, rfl⟩ : ∃ p, clauseParts? x = some p ∧
        ∃ ps, xs.mapM clauseParts? = some ps ∧ p :: ps = parts := by
      simpa [Option.bind_eq_some_iff] using hparts
    rw [Report.result_eq_ok_iff] at h
    obtain ⟨k, hk, ks, hks, rfl⟩ :
        ∃ k, (clauseOfParts rule scope form p).result.toOption = some k ∧
        ∃ ks, (Report.forEach (clauseOfParts rule scope form) ps).result.toOption = some ks ∧
          k :: ks = clauses := by
      simpa [Report.forEach, Report.toOption_bind, Option.bind_eq_some_iff] using h
    refine .cons ⟨p, hp, Report.result_eq_ok_iff.mpr hk⟩ ?_
    exact ih hps (Report.result_eq_ok_iff.mpr hks)

theorem compilesTo_of_functionClauses {xs : List Form} {clauses : List Clause}
    (h : (functionClauses rule scope form name loc xs).result = .ok clauses)
    (hlength : clauses.length = xs.length) :
    List.Forall₂ (CompilesTo rule scope form) xs clauses := by
  have hsingle : (singleClause rule scope form name loc xs).result ≠ .ok clauses :=
    fun h => singleClause_gives rule scope form name loc xs clauses h hlength
  unfold functionClauses at h
  split at h
  · exact absurd h hsingle
  · rename_i parts hparts
    dsimp only at h
    split at h
    · cases h
    · exact absurd h hsingle
    · exact compilesTo_of_mapM hparts h

theorem toOption_functionDefinition (rule : Rule) (scope : Scope) (exported : Bool)
    (loc nameLoc : Location) (name : Bytes) (x : Form) (rest : List Form) :
    (functionDefinition rule scope exported loc
        (.atom nameLoc (.symbol name) :: x :: rest)).result.toOption =
      (functionClauses rule scope (Form.functionKeyword exported) name loc
        (x :: rest)).result.toOption.map (.defineFunction name exported) := by
  show (functionClauses rule scope (Form.functionKeyword exported) name loc (x :: rest) >>=
    fun cs => pure (Expr.defineFunction name exported cs)).result.toOption = _
  rw [Report.toOption_bind, Option.map_eq_bind]
  rfl

theorem toOption_ofForm_functionForm (scope : Scope) (exported : Bool)
    (loc headLoc nameLoc : Location) (name : Bytes) (x : Form) (rest : List Form) :
    (ofForm scope (.functionForm exported loc headLoc nameLoc name (x :: rest))).result.toOption =
      (functionClauses ofForm scope (Form.functionKeyword exported) name loc
        (x :: rest)).result.toOption.map (.defineFunction name exported) := by
  obtain ⟨form, hname, hform⟩ := exists_ofName?_functionKeyword exported
  rw [← toOption_functionDefinition ofForm scope exported loc nameLoc, ← hform]
  exact ofForm_special hname scope loc headLoc _

theorem compilesTo_of_ofForm {exported : Bool} {xs : List Form} {clauses : List Clause}
    {headLoc nameLoc : Location}
    (h : (ofForm scope (.functionForm exported loc headLoc nameLoc name xs)).result =
      .ok (.defineFunction name exported clauses))
    (hlength : clauses.length = xs.length) :
    List.Forall₂ (CompilesTo ofForm scope (Form.functionKeyword exported)) xs clauses := by
  cases xs with
  | nil =>
    obtain rfl := List.length_eq_zero_iff.mp hlength
    exact .nil
  | cons x rest =>
    rw [Report.result_eq_ok_iff, toOption_ofForm_functionForm] at h
    obtain ⟨ks, hks, hsame⟩ := Option.map_eq_some_iff.mp h
    obtain rfl : ks = clauses := by simpa using hsame
    exact compilesTo_of_functionClauses (Report.result_eq_ok_iff.mpr hks) hlength

theorem ofForm_functionForm_single {x : Form} {clause : Clause} (exported : Bool)
    (h : CompilesTo ofForm scope (Form.functionKeyword exported) x clause)
    (loc headLoc nameLoc : Location) (name : Bytes) :
    (ofForm scope (.functionForm exported loc headLoc nameLoc name [x])).result =
      .ok (.defineFunction name exported [clause]) := by
  obtain ⟨parts, hparts, hclause⟩ := h
  have hone : functionClauses ofForm scope (Form.functionKeyword exported) name loc [x] =
      Report.forEach (clauseOfParts ofForm scope (Form.functionKeyword exported)) [parts] := by
    simp [functionClauses, hparts]
  rw [Report.result_eq_ok_iff] at hclause ⊢
  rw [toOption_ofForm_functionForm, hone]
  simp [Report.forEach, Report.toOption_bind, hclause]

end Expr

namespace Machine

variable {limit fuel : Nat} {c : Context} {top : Bool} {name : Bytes} {exported : Bool}

theorem perform_defineFunction (clauses : List Clause) (w : World) :
    perform limit (fuel + 1) (.evaluate c top (.defineFunction name exported clauses)) w =
      (.value (.procedure (.function w.made c.home name)),
        { w.update c.home (·.addClauses name exported clauses) with made := w.made + 1 }) := by
  have hmade := w.made_update c.home (·.addClauses name exported clauses)
  show (Outcome.value (Value.procedure (.function
      (w.update c.home (·.addClauses name exported clauses)).made c.home name)),
    { w.update c.home (·.addClauses name exported clauses) with
      made := (w.update c.home (·.addClauses name exported clauses)).made + 1 }) = _
  rw [hmade]

theorem forEach_defineFunction (clause : Clause) (clauses : List Clause) (w : World) : ∃ vs,
    Run.forEach (fun e => perform limit (fuel + 1) (.evaluate c top e))
        ((clause :: clauses).map fun k => .defineFunction name exported [k]) w =
      (.value vs, { w.update c.home (·.addClauses name exported (clause :: clauses)) with
        made := w.made + (clause :: clauses).length }) := by
  induction clauses generalizing clause w with
  | nil =>
    refine ⟨[.procedure (.function w.made c.home name)], ?_⟩
    rw [List.map_cons, Run.forEach, Run.bind_of_value (perform_defineFunction [clause] w)]
    rfl
  | cons next clauses ih =>
    let w' : World :=
      { w.update c.home (·.addClauses name exported [clause]) with made := w.made + 1 }
    obtain ⟨vs, hvs⟩ := ih next w'
    refine ⟨.procedure (.function w.made c.home name) :: vs, ?_⟩
    rw [List.map_cons, Run.forEach, Run.bind_of_value (perform_defineFunction [clause] w),
      Run.bind_of_value hvs]
    have hworld : w'.update c.home (·.addClauses name exported (next :: clauses)) =
        { w.update c.home (·.addClauses name exported (clause :: next :: clauses)) with
          made := w.made + 1 } := by
      rw [World.update_made, World.update_update]
      simp only [Module.addClauses_addClauses, List.singleton_append]
    rw [hworld]
    show (Outcome.value _, _) = _
    simp [w', Nat.add_assoc, Nat.add_comm 1]

/-- A definition that compiles to one clause for each form, and definitions of the forms one by one,
leave the same world but for the number of procedures made. The clauses come after those that the
function had, and the function is exported if it was or the definitions say so. -/
theorem evaluate_functionForm_accumulates {scope : Expr.Scope} {xs ys : List Form}
    {clauses : List Clause} {loc headLoc nameLoc : Location}
    (h : (Expr.ofForm scope (.functionForm exported loc headLoc nameLoc name xs)).result =
      .ok (.defineFunction name exported clauses))
    (hlength : clauses.length = xs.length)
    (hys : List.Forall₂ (fun x y => ∃ loc headLoc nameLoc,
      y = .functionForm exported loc headLoc nameLoc name [x]) xs ys) :
    ∃ es, List.Forall₂ (fun y e => (Expr.ofForm scope y).result = .ok e) ys es ∧
      ∀ (limit fuel : Nat) (c : Context) (top : Bool) (w : World),
        let w' := w.update c.home (·.addClauses name exported clauses)
        (∃ v, perform limit (fuel + 1)
          (.evaluate c top (.defineFunction name exported clauses)) w =
            (.value v, { w' with made := w.made + 1 })) ∧
        (∃ vs, Run.forEach (fun e => perform limit (fuel + 1) (.evaluate c top e)) es w =
          (.value vs, { w' with made := w.made + xs.length })) ∧
        ((w.module? c.home).isSome → w'.function? c.home name =
          some ⟨((w.function? c.home name).getD ⟨false, []⟩).exported || exported,
            ((w.function? c.home name).getD ⟨false, []⟩).clauses ++ clauses⟩) := by
  have hforms := Expr.compilesTo_of_ofForm h hlength
  have hcompiled : List.Forall₂ (fun y e => (Expr.ofForm scope y).result = .ok e) ys
      (clauses.map fun k => .defineFunction name exported [k]) := by
    rw [List.forall₂_map_right_iff]
    clear h hlength
    induction hforms generalizing ys with
    | nil =>
      cases hys
      exact .nil
    | cons hx _ ih =>
      cases hys with
      | cons hy hys =>
        obtain ⟨loc, headLoc, nameLoc, rfl⟩ := hy
        exact .cons (Expr.ofForm_functionForm_single exported hx loc headLoc nameLoc name) (ih hys)
  refine ⟨_, hcompiled, fun limit fuel c top w => ⟨⟨_, perform_defineFunction clauses w⟩, ?_, ?_⟩⟩
  · cases clauses with
    | nil =>
      -- A definition of no forms does not compile.
      obtain rfl := List.length_eq_zero_iff.mp hlength.symm
      cases exported <;> cases h
    | cons clause clauses =>
      rw [← hlength]
      exact forEach_defineFunction clause clauses w
  · intro hhome
    obtain ⟨m, hm⟩ := Option.isSome_iff_exists.mp hhome
    simp [World.function?, World.module?_update, hm, Module.function?_addClauses]

theorem evaluate_functionForm_accumulates_afterPrivate :
    let f := utf8 "f"
    let first := Expr.bindsA
    let second := Expr.clauseForm [Expr.symbolForm "a", Expr.symbolForm "b"] (Expr.symbolForm "a")
    let definition := Form.functionForm true .unknown .unknown .unknown f
    let old : Clause := ⟨.unknown, [], [], .literal .nil⟩
    let w := World.fresh.update .main (·.addClauses f false [old])
    ∃ k l, (Expr.ofForm [] (definition [first, second])).result =
        .ok (.defineFunction f true [k, l]) ∧
      (w.update .main (·.addClauses f true [k, l])).function? .main f = some ⟨true, [old, k, l]⟩ ∧
      ∃ es, List.Forall₂ (fun y e => (Expr.ofForm [] y).result = .ok e)
          [definition [first], definition [second]] es ∧
        ∃ vs, Run.forEach (fun e => perform 1000 1 (.evaluate ⟨.main, [], 0⟩ true e)) es w =
          (.value vs, { w.update .main (·.addClauses f true [k, l]) with made := 2 }) := by
  intro f first second definition old w
  obtain ⟨k, l, hcompiled⟩ : ∃ k l, (Expr.ofForm [] (definition [first, second])).result =
      .ok (.defineFunction f true [k, l]) := ⟨_, _, rfl⟩
  have hforms : List.Forall₂ (fun x y => ∃ loc headLoc nameLoc,
      y = Form.functionForm true loc headLoc nameLoc f [x]) [first, second]
      [definition [first], definition [second]] :=
    .cons ⟨_, _, _, rfl⟩ (.cons ⟨_, _, _, rfl⟩ .nil)
  obtain ⟨es, hes, hruns⟩ := evaluate_functionForm_accumulates hcompiled rfl hforms
  obtain ⟨-, hvs, hfound⟩ := hruns 1000 0 ⟨.main, [], 0⟩ true w
  exact ⟨k, l, hcompiled, hfound rfl, es, hes, hvs⟩

end Machine
end ClauseLisp
