import ClauseLisp.Proofs.Machine.Growth

/-! Which clause a call runs. A call of clauses first picks one and then evaluates its body, and a
call of a member of a module picks one only if the member is exported. -/

namespace ClauseLisp

theorem Run.bind_assoc {α β γ : Type} (x : Run α) (f : α → Run β) (g : β → Run γ) :
    x >>= f >>= g = x >>= fun a => f a >>= g := by
  funext w
  show Run.bind (Run.bind x f) g w = Run.bind x (fun a => Run.bind (f a) g) w
  simp only [Run.bind]
  rcases x w with ⟨o, w'⟩
  cases o <;> rfl

theorem Callee.clauses_of_grows (callee : Callee) {w w' : World} (h : w.Grows w') :
    callee.clauses w <+: callee.clauses w' := by
  unfold clauses
  cases callee.lambda? with
  | some clause => exact List.prefix_rfl
  | none =>
    cases hf : w.function? callee.home callee.name with
    | none => exact List.nil_prefix
    | some f =>
      obtain ⟨m, hm, hmf⟩ := Option.bind_eq_some_iff.mp hf
      obtain ⟨m', hm', hgrows⟩ := h.modules hm
      obtain ⟨f', hf', hclauses⟩ := hgrows.functions hmf
      have hfound : w'.function? callee.home callee.name = some f' :=
        Option.bind_eq_some_iff.mpr ⟨m', hm', hf'⟩
      rw [hfound]
      exact hclauses.clauses

namespace Machine

structure Picked where
  clause : Clause
  frame : ValueFrame
  fuel : Nat

def pick (limit depth : Nat) (callee : Callee) (args : List Value) : Nat → Nat → Run Picked
  | 0, _ => .exhaust
  | fuel + 1, index => do
    match ← Run.look fun w => (callee.clauses w)[index]? with
    | none => .raise (.noClause callee.name args)
    | some clause =>
      match Pattern.matchAll? clause.parameters args callee.frame with
      | none => pick limit depth callee args fuel (index + 1)
      | some frame =>
        if ← guardsHold (perform limit fuel) ⟨callee.home, frame, depth⟩ clause.guards then
          return ⟨clause, frame, fuel⟩
        else pick limit depth callee args fuel (index + 1)

def runPicked (limit depth : Nat) (home : Home) (p : Picked) : Run Value :=
  evaluate (perform limit p.fuel) ⟨home, p.frame, depth⟩ p.clause.body

theorem perform_select (limit depth : Nat) (callee : Callee) (args : List Value) (fuel index : Nat) :
    perform limit fuel (.select depth callee args index) =
      pick limit depth callee args fuel index >>= runPicked limit depth callee.home := by
  induction fuel generalizing index with
  | zero => rfl
  | succ fuel ih =>
    show select (perform limit fuel) depth callee args index = _
    unfold select pick
    rw [Run.bind_assoc]
    congr 1
    funext clause?
    rcases clause? with _ | clause
    · rfl
    · rcases hmatch : Pattern.matchAll? clause.parameters args callee.frame with _ | frame
      · simp only [hmatch]
        exact ih (index + 1)
      · simp only [hmatch]
        rw [Run.bind_assoc]
        congr 1
        funext b
        cases b with
        | true => rfl
        | false => exact ih (index + 1)

theorem grows_guardsHold (limit fuel : Nat) (c : Context) (gs : List Expr) (w : World) :
    w.Grows (guardsHold (perform limit fuel) c gs w).2 := by
  have hframe : growing.HoldsFrame w c.frame := fun _ _ _ _ => trivial
  have hmachines := growing.machines_perform limit fuel
  exact (Discipline.agree_guardsHold hmachines trivial hframe fun _ _ => trivial).next.2

theorem pick_value {limit depth fuel index : Nat} {callee : Callee} {args : List Value}
    {w w' : World} {p : Picked} (h : pick limit depth callee args fuel index w = (.value p, w')) :
    p.clause ∈ callee.clauses w' := by
  induction fuel generalizing index w with
  | zero => cases h
  | succ fuel ih =>
    unfold pick at h
    rw [Run.bind_of_value (x := Run.look _) rfl] at h
    cases hclause : (callee.clauses w)[index]? with
    | none =>
      rw [hclause] at h
      cases h
    | some clause =>
      rw [hclause] at h
      cases hmatch : Pattern.matchAll? clause.parameters args callee.frame with
      | none =>
        simp only [hmatch] at h
        exact ih h
      | some frame =>
        simp only [hmatch] at h
        -- Guards can define clauses, but these come behind the one at hand.
        have hgrows := grows_guardsHold limit fuel ⟨callee.home, frame, depth⟩ clause.guards w
        rcases hguards : guardsHold (perform limit fuel) ⟨callee.home, frame, depth⟩ clause.guards w
          with ⟨o, u⟩
        rw [hguards] at hgrows
        cases o with
        | value b =>
          rw [Run.bind_of_value hguards] at h
          cases b with
          | true =>
            obtain ⟨⟨rfl⟩, rfl⟩ := Prod.mk.inj h
            exact (callee.clauses_of_grows hgrows).subset (List.mem_of_getElem? hclause)
          | false => exact ih h
        | fault f =>
          rw [Run.bind_of_fault hguards] at h
          cases h
        | exhausted =>
          rw [Run.bind_of_exhausted hguards] at h
          cases h

section Members

variable (limit depth : Nat) (loc : Location) (home member : Bytes) (args : List Value) (fuel : Nat)

def pickMember : Run Picked := do
  match ← Run.look (·.module? (.named home)) with
  | none => .raise (.unknownModule loc home)
  | some m =>
    match m.function? member with
    | none => .raise (.undefinedMember loc home member args.length)
    | some f =>
      if f.exported then
        if limit ≤ depth then .raise (.callDepth limit)
        else pick limit (depth + 1) (.function (.named home) member) args fuel 0
      else .raise (.privateMember loc home member)

theorem callMember_eq (h : home ≠ coreName) :
    callMember limit (perform limit fuel) depth loc home member args =
      pickMember limit depth loc home member args fuel >>=
        runPicked limit (depth + 1) (.named home) := by
  unfold callMember pickMember
  rw [if_neg h, Run.bind_assoc]
  congr 1
  funext module?
  rcases module? with _ | m
  · rfl
  · rcases hf : m.function? member with _ | f
    · simp only [hf]
      rfl
    · simp only [hf]
      rcases f.exported with _ | _
      · rfl
      · show invoke limit (perform limit fuel) depth (.function (.named home) member) args =
          (if limit ≤ depth then .raise (.callDepth limit)
            else pick limit (depth + 1) (.function (.named home) member) args fuel 0) >>= _
        unfold invoke
        by_cases hdepth : limit ≤ depth
        · rw [if_pos hdepth, if_pos hdepth]
          rfl
        · rw [if_neg hdepth, if_neg hdepth]
          exact perform_select limit (depth + 1) _ args fuel 0

theorem pickMember_cases (w : World) :
    (∃ fault, pickMember limit depth loc home member args fuel w = (.fault fault, w)) ∨
      ∃ f, w.function? (.named home) member = some f ∧ f.exported = true ∧
        pickMember limit depth loc home member args fuel w =
          pick limit (depth + 1) (.function (.named home) member) args fuel 0 w := by
  unfold pickMember
  rw [Run.bind_of_value (x := Run.look _) rfl]
  cases hm : w.module? (.named home) with
  | none => exact Or.inl ⟨_, rfl⟩
  | some m =>
    cases hf : m.function? member with
    | none =>
      simp only [hf]
      exact Or.inl ⟨_, rfl⟩
    | some f =>
      have hfound : w.function? (.named home) member = some f :=
        Option.bind_eq_some_iff.mpr ⟨m, hm, hf⟩
      simp only [hf]
      by_cases hexported : f.exported = true
      · rw [if_pos hexported]
        by_cases hdepth : limit ≤ depth
        · rw [if_pos hdepth]
          exact Or.inl ⟨_, rfl⟩
        · rw [if_neg hdepth]
          exact Or.inr ⟨f, hfound, hexported, rfl⟩
      · rw [if_neg hexported]
        exact Or.inl ⟨_, rfl⟩

variable {limit depth loc home member args fuel} in
theorem pickMember_value {w w' : World} {p : Picked}
    (h : pickMember limit depth loc home member args fuel w = (.value p, w')) :
    p.clause ∈ (Callee.function (.named home) member).clauses w' := by
  rcases pickMember_cases limit depth loc home member args fuel w with
    ⟨fault, hfault⟩ | ⟨f, -, -, hpick⟩
  · rw [hfault] at h
    cases h
  · rw [hpick] at h
    exact pick_value h

end Members

end Machine
end ClauseLisp
