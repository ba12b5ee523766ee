import ClauseLisp.Proofs.Expr.Shape
import ClauseLisp.Proofs.Machine.Discipline
import ClauseLisp.Proofs.World.Contents

/-! Operands of operations at run time. Compiled programs, and the clauses and closures that they
leave in a world, have for each operation the operands that it takes. So it does not matter what
operations would do without them. -/

namespace ClauseLisp

namespace Expr

variable {e x : Expr} {es : List Expr}

theorem WellFormed.hasOperands (h : e.WellFormed) : e.hasOperands = true := by
  cases h with
  | node hops _ => exact hops

theorem WellFormed.of_mem (h : e.WellFormed) (hx : x ∈ e.children) : x.WellFormed := by
  cases h with
  | node _ hchildren => exact hchildren x hx

theorem WellFormed.of_parts (h : e.WellFormed) (hx : x ∈ e.parts) : x.WellFormed := by
  refine h.of_mem ?_
  cases e with
  | letIn | lambda | defineFunction | sequence | defineModule => exact absurd hx List.not_mem_nil
  | _ => exact hx

theorem wellFormed_sequence : (sequence es).WellFormed ↔ ∀ e ∈ es, e.WellFormed :=
  ⟨fun h _ he => h.of_mem he, fun h => .node rfl h⟩

theorem wellFormed_letIn {bs : List Binding} :
    (letIn bs e).WellFormed ↔ e.WellFormed ∧ ∀ b ∈ bs, b.value.WellFormed := by
  have hchildren : (letIn bs e).WellFormed ↔
      ∀ x ∈ e :: bs.map Binding.value, x.WellFormed :=
    ⟨fun h _ hx => h.of_mem hx, fun h => .node rfl h⟩
  rw [hchildren, List.forall_mem_cons, List.forall_mem_map]

end Expr

def Clause.WellFormed (clause : Clause) : Prop :=
  ∀ e ∈ clause.body :: clause.guards, e.WellFormed

def Procedure.WellFormed : Procedure → Prop
  | closure _ clause _ _ => clause.WellFormed
  | _ => True

def World.WellFormed (w : World) : Prop :=
  w.Holds Procedure.WellFormed fun _ clause => clause.WellFormed

def Context.WellFormed (c : Context) : Prop := ∀ b ∈ c.frame, b.2.All Procedure.WellFormed

theorem World.wellFormed_fresh : fresh.WellFormed := holds_fresh fun _ _ => trivial

def operating : Discipline where
  Good := World.WellFormed
  Later := fun _ _ => True
  Sound := fun _ => Procedure.WellFormed
  Allowed := fun f => f ≠ .malformed
  later_refl := fun _ => trivial
  later_trans := fun _ _ => trivial
  sound_later := fun _ h => h
  sound_combined := by
    intro w p hp
    cases p with
    | closure => exact Bool.noConfusion hp
    | _ => trivial
  allowed := by
    rintro f hf rfl
    exact Bool.noConfusion hf
  good_made := fun {w} n hw => hw.of_module? (w.module?_made n)
  later_made := fun _ _ => trivial
  good_print := fun {w} s hw => hw.of_module? (w.module?_print s)
  later_print := fun _ _ => trivial
  Fits := fun _ _ _ e => e.WellFormed
  Runs := fun _ _ _ clause => clause.WellFormed
  Leaves := fun _ _ _ => True
  fits_later := fun _ h => h
  runs_later := fun _ h => h
  good_definition := fun hw h => hw.definitions h
  good_function := fun hw h => hw.functions h
  runs_closure := id
  fits_clause := fun h _ he => h _ he
  fits_parts := fun h hx => h.of_parts hx
  fits_localRef := fun _ _ _ _ => by simp
  fits_operation := by
    intro w c top loc op operands n h hop hlength
    have hops := h.hasOperands
    rw [Expr.hasOperands, hop] at hops
    exact absurd (beq_iff_eq.mp hops).symm hlength
  fits_letNil := fun h => (Expr.wellFormed_letIn.mp h).1
  fits_letCons := by
    intro w c top b bs body h
    obtain ⟨hbody, hvalues⟩ := Expr.wellFormed_letIn.mp h
    rw [List.forall_mem_cons] at hvalues
    exact ⟨hvalues.1, fun _ => Expr.wellFormed_letIn.mpr ⟨hbody, hvalues.2⟩⟩
  fits_lambda := fun h _ _ he => h.of_mem he
  fits_bodyCons := by
    intro w c e es h
    rw [Expr.wellFormed_sequence, List.forall_mem_cons] at h
    exact ⟨h.1, fun _ => Expr.wellFormed_sequence.mpr h.2⟩
  fits_bodyDefine := by
    intro w c name e es h v
    rw [Expr.wellFormed_sequence, List.forall_mem_cons] at h
    exact Expr.wellFormed_sequence.mpr h.2
  fits_topCons := by
    intro w c e es h
    rw [Expr.wellFormed_sequence, List.forall_mem_cons] at h
    exact ⟨h.1, fun _ _ => Expr.wellFormed_sequence.mpr h.2⟩
  leaves := fun _ => trivial
  define := fun hw _ hv => ⟨⟨hw.define hv, trivial⟩, trivial⟩
  defineFunction := by
    intro w c top name exported clauses hw h
    refine ⟨⟨hw.addClauses (fun _ => trivial) fun clause hc e he => ?_, trivial⟩, fun _ => trivial⟩
    exact h.of_mem (List.mem_flatMap.mpr ⟨clause, hc, he⟩)
  defineModule := fun {_ _ _ name _} hw h =>
    ⟨⟨hw.ensureModule name, trivial⟩, Expr.wellFormed_sequence.mpr fun _ he => h.of_mem he⟩

namespace Machine

/-- A step in which an operation with the wrong number of operands goes astray. -/
def stepUnchecked (astray : Run Value) (limit : Nat) (machine : Machine) : Machine
  | .evaluate c _ (.operation _ op operands) => do
    let args ← evaluateAll machine c operands
    if op.operands?.all (· == args.length) then operate op args else astray
  | task => step limit machine task

def performUnchecked (astray : Run Value) (limit : Nat) : Nat → Machine
  | 0, _ => .exhaust
  | fuel + 1, task => stepUnchecked astray limit (performUnchecked astray limit fuel) task

theorem operate_of_count {op : Operation} {args : List Value}
    (h : ¬ op.operands?.all (· == args.length) = true) : operate op args = .raise .malformed := by
  obtain ⟨n, hop, hne⟩ : ∃ n, op.operands? = some n ∧ args.length ≠ n := by
    cases hop : op.operands? with
    | none => simp [hop] at h
    | some n => exact ⟨n, rfl, fun hn => h (by simp [hop, hn])⟩
  have hcompute := compute_of_operands?_ne hop hne
  unfold operate
  split
  · exact absurd hop (by simp [Operation.operands?])
  · exact absurd hop (by simp [Operation.operands?])
  · rw [hcompute]
    rfl

theorem performUnchecked_raise (limit fuel : Nat) :
    performUnchecked (.raise .malformed) limit fuel = perform limit fuel := by
  induction fuel with
  | zero => rfl
  | succ fuel ih =>
    funext task
    rw [performUnchecked, perform, ih]
    unfold stepUnchecked
    split
    · rename_i c top loc op operands
      show _ = evaluateAll (perform limit fuel) c operands >>= operate op
      congr 1
      funext args
      split
      · rfl
      · exact (operate_of_count ‹_›).symm
    · rfl

theorem machines_performUnchecked (astray : Run Value) (limit fuel : Nat) :
    operating.Machines (perform limit fuel) (performUnchecked astray limit fuel) := by
  induction fuel with
  | zero => exact fun _ _ hw _ => Contract.agree_exhaust hw
  | succ fuel ih =>
    intro w task hw htask
    rw [perform, performUnchecked]
    unfold stepUnchecked
    split
    · rename_i c top loc op operands
      obtain ⟨hframe, hfits⟩ := htask
      have hcount : op.operands?.all (· == operands.length) = true := hfits.hasOperands
      have hparts : ∀ e ∈ operands, e.WellFormed := fun e he => hfits.of_parts he
      have hall := Discipline.agree_evaluateAll ih hw hframe hparts
      have hrun : operating.Agree w (evaluateAll (perform limit fuel) c operands >>= operate op)
          (evaluateAll (performUnchecked astray limit fuel) c operands >>= fun args =>
            if op.operands?.all (· == args.length) then operate op args else astray)
          operating.Holds := by
        refine hall.bind fun args w' hnext hargs => ?_
        -- There are as many arguments as operands, so that the operation does not go astray.
        rw [hargs.1, if_pos hcount]
        refine Discipline.agree_operate hnext.1 hargs.2 fun n hop hne => absurd ?_ hne
        rw [hop] at hcount
        rw [hargs.1]
        exact (beq_iff_eq.mp hcount).symm
      exact hrun.weaken fun _ _ _ hv => ⟨hv, fun _ _ _ => trivial⟩
    · exact Discipline.agree_step ih hw htask

/-- Expressions of forms are well formed, and where all clauses in the world and in the frame are,
their evaluation is the same whatever an operation with the wrong number of operands would do. So
no operand is missing anywhere on the way, not even where a fault would be caught, and the clauses
that are left behind are well formed again. -/
theorem evaluate_has_operands {scope : Expr.Scope} {x : Form} {e : Expr}
    (h : (Expr.ofForm scope x).result = .ok e) :
    e.WellFormed ∧ ∀ (limit fuel : Nat) (c : Context) (top : Bool) (w : World),
      w.WellFormed → c.WellFormed →
        (∀ astray, performUnchecked astray limit fuel (.evaluate c top e) w =
          perform limit fuel (.evaluate c top e) w) ∧
        (perform limit fuel (.evaluate c top e) w).1 ≠ .fault .malformed ∧
        (perform limit fuel (.evaluate c top e) w).2.WellFormed ∧
        ∀ v, (perform limit fuel (.evaluate c top e) w).1 = .value v →
          v.All Procedure.WellFormed := by
  have he := (Expr.shaped_ofForm scope x e h).wellFormed
  refine ⟨he, fun limit fuel c top w hw hc => ?_⟩
  have hagree : ∀ astray, operating.Agree w (perform limit fuel (.evaluate c top e))
      (performUnchecked astray limit fuel (.evaluate c top e)) _ :=
    fun astray => machines_performUnchecked astray limit fuel w _ hw ⟨hc, he⟩
  have hends := (hagree .exhaust).ends
  refine ⟨fun astray => (hagree astray).eq.symm, fun hfault => ?_, (hagree .exhaust).next.1,
    fun v hv => ?_⟩
  · rw [hfault] at hends
    exact hends rfl
  · rw [hv] at hends
    exact hends.1

theorem evaluate_has_operands_closure :
    let x : Form := .sequence .unknown .paren [.atom .unknown (.symbol (utf8 "try")),
      .sequence .unknown .paren [.atom .unknown (.symbol (utf8 "-")),
        .sequence .unknown .paren [.atom .unknown (.symbol (utf8 "double")),
          .atom .unknown (.number (.integer 1))]]]
    let e : Expr := .attempt (.operation .unknown .negate
      [.apply .unknown (.localRef (utf8 "double")) [.literal (.integer 1)]])
    let double : Clause := ⟨.unknown, [.variable (utf8 "n")], [],
      .operation .unknown .add [.localRef (utf8 "n"), .localRef (utf8 "n")]⟩
    let c : Context := ⟨.main, [(utf8 "double", .procedure (.closure 0 double [] .main))], 0⟩
    (Expr.ofForm [utf8 "double"] x).result = .ok e ∧ World.fresh.WellFormed ∧ c.WellFormed ∧
      e.WellFormed ∧
      ∀ astray, (performUnchecked astray 10 7 (.evaluate c false e) .fresh).1 =
        .value (.integer (-2)) := by
  intro x e double c
  have hcompile : (Expr.ofForm [utf8 "double"] x).result = .ok e := rfl
  have hleaf : (Expr.localRef (utf8 "n")).WellFormed := .node rfl (List.forall_mem_nil _)
  have hclause : double.WellFormed := by
    refine List.forall_mem_singleton.mpr (.node rfl ?_)
    exact List.forall_mem_cons.mpr ⟨hleaf, List.forall_mem_singleton.mpr hleaf⟩
  have hc : c.WellFormed := by
    refine List.forall_mem_singleton.mpr (Value.all_closure.mpr ⟨hclause, ?_⟩)
    exact List.forall_mem_nil _
  obtain ⟨he, hrun⟩ := evaluate_has_operands hcompile
  obtain ⟨hsame, -, -, -⟩ := hrun 10 7 c false .fresh World.wellFormed_fresh hc
  refine ⟨hcompile, World.wellFormed_fresh, hc, he, fun astray => ?_⟩
  rw [hsame astray]
  rfl

end Machine
end ClauseLisp
