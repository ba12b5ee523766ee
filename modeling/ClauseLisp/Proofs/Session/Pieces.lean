import ClauseLisp.Proofs.Machine.Fuel
import ClauseLisp.Proofs.Machine.Resolution
import ClauseLisp.Session

/-! Programs in one piece or in two. In one piece the names that the first forms define are known
while the later ones are compiled, in two pieces they are not: a reference or a call takes another
path. Both do the same where the names have no other meaning. -/

namespace ClauseLisp

namespace Expr

variable {rule : Rule} {scope : Scope} {x : Form} {xs ys : List Form} {es : List Expr}

def definedNames (xs : List Form) : List Bytes := xs.filterMap definedName?

theorem body_cons_eq_ok_iff :
    (body rule scope (x :: xs)).result = .ok es ↔
      ∃ e rest, (rule scope x).result = .ok e ∧
        (body rule ((definedName? x).toList ++ scope) xs).result = .ok rest ∧ es = e :: rest := by
  have hbody : (body rule scope (x :: xs)).result = (do
      let e ← (rule scope x).result
      let rest ← (body rule ((definedName? x).toList ++ scope) xs).result
      pure (e :: rest)) := by
    rw [body]
    cases he : (rule scope x).result with
    | error f => exact Report.bind_of_error he
    | ok e =>
      have hinner : ∀ inner, (body rule inner xs >>= fun rest => pure (e :: rest)).result =
          (do let rest ← (body rule inner xs).result; pure (e :: rest)) := by
        intro inner
        cases hrest : (body rule inner xs).result with
        | error f => exact Report.bind_of_error hrest
        | ok rest => exact Report.bind_of_ok hrest
      rw [Report.bind_of_ok he]
      cases hname : definedName? x with
      | none => exact hinner scope
      | some name =>
        exact (Report.bind_of_ok (result_bindName scope name x.loc)).trans (hinner (name :: scope))
  rw [hbody]
  cases (rule scope x).result with
  | error f => simp [bind, Except.bind]
  | ok e =>
    cases (body rule ((definedName? x).toList ++ scope) xs).result with
    | error f => simp [bind, Except.bind]
    | ok rest => simp [bind, Except.bind, pure, Except.pure, eq_comm]

theorem body_append_eq_ok (h : (body rule scope (xs ++ ys)).result = .ok es) :
    ∃ es₁ es₂, (body rule scope xs).result = .ok es₁ ∧
      (body rule ((definedNames xs).reverse ++ scope) ys).result = .ok es₂ ∧ es = es₁ ++ es₂ := by
  induction xs generalizing scope es with
  | nil => exact ⟨[], es, rfl, h, rfl⟩
  | cons x xs ih =>
    obtain ⟨e, rest, he, hrest, rfl⟩ := body_cons_eq_ok_iff.mp h
    obtain ⟨es₁, es₂, h₁, h₂, rfl⟩ := ih hrest
    have hnames : (definedNames (x :: xs)).reverse ++ scope =
        (definedNames xs).reverse ++ ((definedName? x).toList ++ scope) := by
      cases hname : definedName? x <;> simp [definedNames, hname]
    exact ⟨e :: es₁, es₂, body_cons_eq_ok_iff.mpr ⟨e, es₁, he, h₁, rfl⟩, hnames ▸ h₂, rfl⟩

theorem exists_bound_of_definedNames (h : (body ofForm scope xs).result = .ok es) {name : Bytes}
    (hname : name ∈ definedNames xs) : ∃ e ∈ es, e.bound = [name] := by
  induction xs generalizing scope es with
  | nil => exact absurd hname List.not_mem_nil
  | cons x xs ih =>
    obtain ⟨e, rest, he, hrest, rfl⟩ := body_cons_eq_ok_iff.mp h
    obtain ⟨y, hy, hdefined⟩ := List.mem_filterMap.mp hname
    rcases List.mem_cons.mp hy with rfl | hy
    · exact ⟨e, List.mem_cons_self, (scopes_ofForm y.height).defines (Nat.le_refl _) hdefined e he⟩
    · obtain ⟨e', he', hbound⟩ := ih hrest (List.mem_filterMap.mpr ⟨y, hy, hdefined⟩)
      exact ⟨e', List.mem_cons_of_mem e he', hbound⟩

theorem resolveAll_known {r : Resolver} {known : Scope} {es es' : List Expr}
    (hknown : ∀ name ∈ known, name ∈ r.names)
    (h : (body ofForm [] xs).result = .ok es) (h' : (body ofForm known xs).result = .ok es')
    (hu : ∀ u ∈ usesAll .main true [] es, r.Settles u) :
    resolveAll r .main true [] es = resolveAll r .main true [] es' := by
  have hxs : ∀ x ∈ xs, x.height ≤ Form.heightAll xs := Form.heightAll_le_iff.mp (Nat.le_refl _)
  have hagrees : Report.Agree (known = []) (List.Forall₂ (ResolvedAlike r)) (body ofForm [] xs)
      (body ofForm known (Form.relocateAll id xs)) :=
    (agrees_ofForm (congruence_resolvedAlike hknown) (Form.heightAll xs)).body hxs
  -- The comparison is one of forms at other locations; here they stay where they are.
  rw [Form.relocateAll_id] at hagrees
  exact resolveAll_alike (hagrees.2 es es' h h') hu

end Expr

namespace Machine

variable {m : Machine} {c : Context} {limit fuel : Nat} {es es' : List Expr} {last v : Value}
  {w w' : World}

theorem evaluateTop_append (m : Machine) (c : Context) (last : Value) (es es' : List Expr)
    (w : World) :
    evaluateTop m c last (es ++ es') w =
      (evaluateTop m c last es >>= fun v => evaluateTop m c v es') w := by
  induction es generalizing last w with
  | nil => rfl
  | cons e es ih =>
    show Run.bind _ _ w = Run.bind (Run.bind _ _) _ w
    rcases hfirst : m (.evaluate c true e) w with ⟨o, u⟩
    cases o with
    | value v =>
      simp only [Run.bind, hfirst]
      exact ih v u
    | fault f => simp only [Run.bind, hfirst]
    | exhausted => simp only [Run.bind, hfirst]

theorem grows_evaluateTop (limit fuel : Nat) (c : Context) (last : Value) (es : List Expr)
    (w : World) : w.Grows (evaluateTop (perform limit fuel) c last es w).2 := by
  induction es generalizing last w with
  | nil => exact .refl w
  | cons e es ih =>
    have hgrows := grows_evaluate limit fuel c true e w
    rw [evaluateTop]
    rcases hfirst : perform limit fuel (.evaluate c true e) w with ⟨o, u⟩
    rw [hfirst] at hgrows
    cases o with
    | value v =>
      rw [Run.bind_of_value hfirst]
      exact hgrows.trans (ih v u)
    | fault f =>
      rw [Run.bind_of_fault hfirst]
      exact hgrows
    | exhausted =>
      rw [Run.bind_of_exhausted hfirst]
      exact hgrows

theorem definition?_of_define {name : Bytes} {e : Expr} (hc : c.home = .main)
    (h : perform limit fuel (.evaluate c true (.define name e)) w = (.value v, w')) :
    (w'.definition? .main name).isSome := by
  match fuel with
  | 0 => exact nomatch h
  | fuel + 1 =>
    have hstep : (evaluate (perform limit fuel) c e >>= fun v => do
        Run.change (·.update c.home (·.define name v))
        return v) w = (.value v, w') := h
    obtain ⟨value, u, -, hdefine⟩ := Run.exists_of_bind_value hstep
    obtain ⟨-, rfl⟩ := Prod.mk.inj hdefine
    rw [hc, World.definition?_define u rfl, if_pos ⟨rfl, rfl⟩]
    rfl

theorem definition?_of_evaluateTop (hc : c.home = .main)
    (h : evaluateTop (perform limit fuel) c last es w = (.value v, w')) {e : Expr} (he : e ∈ es)
    {name : Bytes} (hname : e.bound = [name]) : (w'.definition? .main name).isSome := by
  induction es generalizing last w with
  | nil => exact absurd he List.not_mem_nil
  | cons e' es ih =>
    rw [evaluateTop] at h
    obtain ⟨v', u, hfirst, hrest⟩ := Run.exists_of_bind_value h
    rcases List.mem_cons.mp he with rfl | he
    · cases e with
      | define key value =>
        obtain rfl := (List.cons.inj hname).1
        -- What comes after the definition can change its value but not undo it.
        have hgrows := grows_evaluateTop limit fuel c v' es u
        rw [hrest] at hgrows
        exact hgrows.definition? (definition?_of_define hc hfirst)
      | _ => exact nomatch hname
    · exact ih hrest he

def Ends (limit : Nat) (es : List Expr) (w : World) (o : Outcome Value) (w' : World) : Prop :=
  o ≠ .exhausted ∧ ∃ fuel, evaluateTop (perform limit fuel) ⟨.main, [], 0⟩ .nil es w = (o, w')

end Machine

namespace Outcome

def isValue : Outcome Value → Bool
  | .value _ => true
  | _ => false

/-- Both are values with the same text, or both are faults with the same message. -/
def SameText : Outcome Value → Outcome Value → Prop
  | .value v, .value v' => v.text = v'.text
  | .fault f, .fault f' => f.message = f'.message
  | _, _ => False

instance : DecidableRel SameText
  | .value v, .value v' => inferInstanceAs (Decidable (v.text = v'.text))
  | .fault f, .fault f' => inferInstanceAs (Decidable (f.message = f'.message))
  | .value _, .fault _ | .value _, .exhausted | .fault _, .value _ | .fault _, .exhausted
  | .exhausted, _ => .isFalse id

theorem SameText.ne_exhausted {o o' : Outcome Value} (h : o.SameText o') : o ≠ .exhausted := by
  rintro rfl
  exact h

end Outcome

namespace Resolver

variable {r : Resolver} {limit : Nat} {es es' first : List Expr} {w w' : World} {o : Outcome Value}

theorem sameText_of_matches {end₁ end₂ : Outcome Value × World} (h : r.Matches r.value end₁ end₂)
    (hend : end₁.1 ≠ .exhausted) :
    end₂.1 ≠ .exhausted ∧ end₁.1.SameText end₂.1 ∧ end₂.2.output = end₁.2.output := by
  have hf := Procedure.faithful_resolve r
  have houtput : ∀ {u u' : World}, r.world u = r.world u' → u'.output = u.output := by
    intro u u' hu
    show (r.world u').output = (r.world u).output
    rw [hu]
  cases h with
  | value hv hw =>
    refine ⟨nofun, ?_, houtput hw⟩
    exact (Value.text_replace hf _).symm.trans ((congrArg Value.text hv).trans (Value.text_replace hf _))
  | fault hfault hw =>
    refine ⟨nofun, ?_, houtput hw⟩
    exact (Fault.message_replace hf _).symm.trans
      ((congrArg Fault.message hfault).trans (Fault.message_replace hf _))
  | exhausted => exact absurd rfl hend

theorem ends_append_alike
    (hready : ∀ {fuel v u}, Machine.evaluateTop (Machine.perform limit fuel) ⟨.main, [], 0⟩ .nil
      first w = (.value v, u) → r.Ready u)
    (hes : Expr.resolveAll r .main true [] es = Expr.resolveAll r .main true [] es')
    (h : Machine.Ends limit (first ++ es) w o w') (hclear : r.Clear w') :
    ∃ o' w'', Machine.Ends limit (first ++ es') w o' w'' ∧ o.SameText o' ∧
      w''.output = w'.output := by
  obtain ⟨hend, fuel, hrun⟩ := h
  rw [Machine.evaluateTop_append] at hrun
  rcases hfirst : Machine.evaluateTop (Machine.perform limit fuel) ⟨.main, [], 0⟩ .nil first w
    with ⟨o₁, u⟩
  cases o₁ with
  | exhausted =>
    rw [Run.bind_of_exhausted hfirst] at hrun
    exact absurd (Prod.mk.inj hrun).1.symm hend
  | fault f =>
    rw [Run.bind_of_fault hfirst] at hrun
    obtain ⟨rfl, rfl⟩ := Prod.mk.inj hrun
    refine ⟨.fault f, u, ⟨nofun, fuel, ?_⟩, rfl, rfl⟩
    rw [Machine.evaluateTop_append, Run.bind_of_fault hfirst]
    rfl
  | value v =>
    rw [Run.bind_of_value hfirst] at hrun
    have hsimulates : r.Simulates False r.value
        (Machine.evaluateTop (Machine.perform limit fuel) ⟨.main, [], 0⟩ v es)
        (Machine.evaluateTop (Machine.perform limit (fuel + 1)) ⟨.main, [], 0⟩ v es') :=
      simulates_evaluateTop (machines_perform r limit fuel) False.elim (.refl _) rfl hes
    have hmatches := hsimulates.ends (hready hfirst) rfl (hrun ▸ hclear)
    rw [hrun] at hmatches
    obtain ⟨hend', htext, houtput⟩ := sameText_of_matches hmatches hend
    refine ⟨_, _, ⟨hend', fuel + 1, ?_⟩, htext, houtput⟩
    -- The first expressions do the same with the fuel that the others need.
    have hmore : Run.Approximates
        (Machine.evaluateTop (Machine.perform limit fuel) ⟨.main, [], 0⟩ .nil first)
        (Machine.evaluateTop (Machine.perform limit (fuel + 1)) ⟨.main, [], 0⟩ .nil first) :=
      Machine.truncates_evaluateTop (Machine.approximates_perform limit (Nat.le_succ fuel)) _ _ _
    rw [Machine.evaluateTop_append, Run.bind_of_value (hmore.eq_of_ne_exhausted hfirst nofun)]

def ofUses (names : List Bytes) (uses : List Use) : Resolver where
  names := names
  calls := (uses.filter fun u => u.called && names.contains u.name).map fun u => (u.home, u.name)
  calls_names := by
    intro c hc
    obtain ⟨u, hu, rfl⟩ := List.mem_map.mp hc
    simpa using (Bool.and_eq_true_iff.mp (List.mem_filter.mp hu).2).2

theorem mem_calls_ofUses {names : List Bytes} {uses : List Use} {call : Home × Bytes} :
    call ∈ (ofUses names uses).calls ↔
      ∃ u ∈ uses, u.called = true ∧ u.name ∈ names ∧ (u.home, u.name) = call := by
  simp [ofUses, and_assoc]

end Resolver

/-- The name can mean nothing but a definition of the main module where it is used: no variable of
a frame and, if it is called, no member of a module, no function and no other definition. -/
def Use.Unambiguous (u : Use) (w : World) : Prop :=
  u.captured = false ∧ (u.called = true → Expr.qualified? u.name = none ∧
    w.function? u.home u.name = none ∧ w.function? .main u.name = none ∧
    (u.home ≠ .main → w.definition? u.home u.name = none))

instance (u : Use) (w : World) : Decidable (u.Unambiguous w) := inferInstanceAs (Decidable (_ ∧ _))

namespace Machine

open ClauseLisp.Expr (ofProgram usesAll definedNames)

variable {fs gs : List Form} {es es₁ es₂ : List Expr}

/-- A program ends in one piece as it does in two, if in the end the names that the first piece
defines are unambiguous where the second one uses them. -/
theorem ends_in_pieces (h : (ofProgram (fs ++ gs)).result = .ok es)
    (h₁ : (ofProgram fs).result = .ok es₁) (h₂ : (ofProgram gs).result = .ok es₂)
    (limit : Nat) (w : World) (o : Outcome Value) (w' : World)
    (huses : ∀ u ∈ usesAll .main true [] es₂, u.name ∈ definedNames fs → u.Unambiguous w') :
    (Ends limit (es₁ ++ es₂) w o w' →
      ∃ o' w'', Ends limit es w o' w'' ∧ o.SameText o' ∧ w''.output = w'.output) ∧
    (Ends limit es w o w' →
      ∃ o' w'', Ends limit (es₁ ++ es₂) w o' w'' ∧ o.SameText o' ∧ w''.output = w'.output) := by
  obtain ⟨first, rest, hfirst, hrest, rfl⟩ := Expr.body_append_eq_ok h
  obtain rfl : first = es₁ := Except.ok.inj (hfirst.symm.trans h₁)
  let r := Resolver.ofUses (definedNames fs) (usesAll .main true [] es₂)
  have hready : ∀ {fuel v u}, evaluateTop (perform limit fuel) ⟨.main, [], 0⟩ .nil first w =
      (.value v, u) → r.Ready u := by
    intro fuel v u hrun name hname
    obtain ⟨e, he, hbound⟩ := Expr.exists_bound_of_definedNames hfirst hname
    exact definition?_of_evaluateTop rfl hrun he hbound
  have hes : Expr.resolveAll r .main true [] es₂ = Expr.resolveAll r .main true [] rest := by
    refine Expr.resolveAll_known (fun name hname => ?_) h₂ hrest fun u hu hname => ?_
    · rw [List.append_nil] at hname
      exact List.mem_reverse.mp hname
    · obtain ⟨hfree, hcalled⟩ := huses u hu hname
      exact ⟨hfree, fun hcall =>
        ⟨Resolver.mem_calls_ofUses.mpr ⟨u, hu, hcall, hname, rfl⟩, (hcalled hcall).1⟩⟩
  have hclear : r.Clear w' := by
    intro call hcall
    obtain ⟨u, hu, hcalled, hname, rfl⟩ := Resolver.mem_calls_ofUses.mp hcall
    exact ((huses u hu hname).2 hcalled).2
  exact ⟨fun hends => Resolver.ends_append_alike hready hes hends hclear,
    fun hends => Resolver.ends_append_alike hready hes.symm hends hclear⟩

def formsOf (source : Bytes) : List Form := (Form.readAll source []).toOption.getD []

def programOf (xs : List Form) : List Expr := (ofProgram xs).result.toOption.getD []

theorem ofProgram_eq_ok_programOf {xs : List Form} (h : (ofProgram xs).result.isOk = true) :
    (ofProgram xs).result = .ok (programOf xs) := by
  cases hes : (ofProgram xs).result with
  | ok es => simp [programOf, hes, Except.toOption]
  | error f => simp [hes, Except.isOk, Except.toBool] at h

def endOf (es : List Expr) : Outcome Value × World :=
  evaluateTop (perform 1000 100) ⟨.main, [], 0⟩ .nil es .fresh

theorem ends_endOf {es : List Expr} {o : Outcome Value} (h : (endOf es).1.SameText o) :
    Ends 1000 es .fresh (endOf es).1 (endOf es).2 :=
  ⟨h.ne_exhausted, 100, rfl⟩

def endInTwo (fs gs : List Form) : Outcome Value × World := endOf (programOf fs ++ programOf gs)

def endInOne (fs gs : List Form) : Outcome Value × World := endOf (programOf (fs ++ gs))

def doubling : List Form := formsOf (utf8 "(def double (fn [x] (* x 2)))")

def quadrupling : List Form :=
  formsOf (utf8 "(print double) (defn twice [y] (double (double y))) (twice 4)")

theorem ends_in_pieces_doubling :
    utf8 "double" ∈ definedNames doubling ∧
      ⟨.main, utf8 "double", true, false⟩ ∈ usesAll .main true [] (programOf quadrupling) ∧
      (endInTwo doubling quadrupling).1.SameText (.value (.integer 16)) ∧
      (endInTwo doubling quadrupling).2.output = utf8 "<procedure fn>" ∧
      ∃ o w', Ends 1000 (programOf (doubling ++ quadrupling)) .fresh o w' ∧
        (endInTwo doubling quadrupling).1.SameText o ∧
        w'.output = (endInTwo doubling quadrupling).2.output := by
  have hok : (ofProgram (doubling ++ quadrupling)).result.isOk = true ∧
      (ofProgram doubling).result.isOk = true ∧ (ofProgram quadrupling).result.isOk = true := by
    decide +kernel
  have hend : (endInTwo doubling quadrupling).1.SameText (.value (.integer 16)) ∧
      (endInTwo doubling quadrupling).2.output = utf8 "<procedure fn>" ∧
      ∀ u ∈ usesAll .main true [] (programOf quadrupling), u.name ∈ definedNames doubling →
        u.Unambiguous (endInTwo doubling quadrupling).2 := by
    decide +kernel
  obtain ⟨hboth, hfirst, hrest⟩ := hok
  obtain ⟨htext, houtput, huses⟩ := hend
  exact ⟨by decide +kernel, by decide +kernel, htext, houtput,
    (ends_in_pieces (ofProgram_eq_ok_programOf hboth) (ofProgram_eq_ok_programOf hfirst)
      (ofProgram_eq_ok_programOf hrest) 1000 .fresh _ _ huses).1 (ends_endOf htext)⟩

/-- Pieces of which the second one uses a name that the first one defines and that is ambiguous
there: it is also a function of the main module, a member of a module, a variable that an unquoted
definition leaves in the frame, or a definition or a function of the module that calls it. -/
def ambiguousPieces : List (List Form × List Form) :=
  [(formsOf (utf8 "(defn f [x] x) (def f 1)"), formsOf (utf8 "(f 2)")),
    (formsOf (utf8 "(defmodule M (defn f [x] x)) (def M.f 1)"), formsOf (utf8 "(M.f 2)")),
    (formsOf (utf8 "(def f 1)"), formsOf (utf8 "[(do ~(def f 5) f)]")),
    (formsOf (utf8 "(def f (fn [x] x))"),
      formsOf (utf8 "(defmodule M (print (f (do (defmodule M (def f (fn [x] 7))) 1))))")),
    (formsOf (utf8 "(def f (fn [x] x))"),
      formsOf (utf8 "(defmodule M (defn f [x] 7) (print (f 1)))"))]

def EndApart (fs gs : List Form) : Prop :=
  ∃ es es₁ es₂ o w' o' w'', (ofProgram (fs ++ gs)).result = .ok es ∧
    (ofProgram fs).result = .ok es₁ ∧ (ofProgram gs).result = .ok es₂ ∧
    Ends 1000 (es₁ ++ es₂) .fresh o w' ∧ Ends 1000 es .fresh o' w'' ∧ o.isValue = true ∧
    ¬ (o.SameText o' ∧ w''.output = w'.output)

theorem ambiguousPieces_endApart : ambiguousPieces.Forall fun p => EndApart p.1 p.2 := by
  have hok : ∀ p ∈ ambiguousPieces, (ofProgram (p.1 ++ p.2)).result.isOk = true ∧
      (ofProgram p.1).result.isOk = true ∧ (ofProgram p.2).result.isOk = true := by
    decide +kernel
  have hends : ∀ p ∈ ambiguousPieces,
      (endInTwo p.1 p.2).1.SameText (endInTwo p.1 p.2).1 ∧
      (endInOne p.1 p.2).1.SameText (endInOne p.1 p.2).1 ∧
      (endInTwo p.1 p.2).1.isValue = true ∧
      ¬ ((endInTwo p.1 p.2).1.SameText (endInOne p.1 p.2).1 ∧
        (endInOne p.1 p.2).2.output = (endInTwo p.1 p.2).2.output) := by
    decide +kernel
  rw [List.forall_iff_forall_mem]
  intro p hp
  obtain ⟨hboth, hfirst, hrest⟩ := hok p hp
  obtain ⟨htwo, hone, hapart⟩ := hends p hp
  exact ⟨_, _, _, _, _, _, _, ofProgram_eq_ok_programOf hboth, ofProgram_eq_ok_programOf hfirst,
    ofProgram_eq_ok_programOf hrest, ends_endOf htwo, ends_endOf hone, hapart⟩

end Machine
end ClauseLisp
