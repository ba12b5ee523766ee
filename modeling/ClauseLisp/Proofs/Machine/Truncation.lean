import ClauseLisp.Machine
import ClauseLisp.Proofs.Run.Truncation

/-! Evaluation that is cut short. Nothing in a step but a call of clauses looks at the limit of
calls, and nothing but an attempt catches what a call beyond the limit raises. So a step under a
smaller limit truncates one under a larger limit, if the tasks inside of it do. -/

namespace ClauseLisp

/-- The stops include what a call beyond the smaller limit raises, and guards let them through. -/
structure Cutoff (S : Stop → Prop) (limit limit' : Nat) : Prop where
  le : limit ≤ limit'
  callDepth : limit = limit' ∨ S (.fault (.callDepth limit))
  notTypeFault : ∀ f, S (.fault f) → f.isTypeFault = false

def Expr.isAttempt : Expr → Bool
  | attempt _ => true
  | _ => false

def Task.isAttempt : Task → Bool
  | evaluate _ _ e => e.isAttempt
  | _ => false

namespace Machine

open Run (Truncates truncates_refl truncates_raise truncates_bind_left truncates_ite
  truncates_forEach)

variable {S : Stop → Prop} {limit limit' : Nat} {m m' : Machine}

section Parts

variable (hm : ∀ task, Truncates S (m task) (m' task))

include hm

theorem truncates_callValue (depth : Nat) (v : Value) (args : List Value) :
    Truncates S (callValue m depth v args) (callValue m' depth v args) :=
  truncates_bind_left _ fun _ => hm _

theorem truncates_evaluate (c : Context) (e : Expr) :
    Truncates S (evaluate m c e) (evaluate m' c e) :=
  hm _

theorem truncates_evaluateAll (c : Context) (es : List Expr) :
    Truncates S (evaluateAll m c es) (evaluateAll m' c es) :=
  truncates_forEach (truncates_evaluate hm c) es

theorem truncates_guardsHold (hS : ∀ f, S (.fault f) → f.isTypeFault = false) (c : Context)
    (gs : List Expr) : Truncates S (guardsHold m c gs) (guardsHold m' c gs) := by
  -- Guards catch type faults only.
  have hguard : ∀ g, Truncates S (guardHolds m c g) (guardHolds m' c g) := by
    intro g
    apply ((hm _).bind_right _).catching
    intro f hf
    rw [hS f hf]
    rfl
  induction gs with
  | nil => exact truncates_refl _
  | cons g gs ih => exact (hguard g).bind fun b => truncates_ite ih (truncates_refl _)

theorem truncates_select (hS : ∀ f, S (.fault f) → f.isTypeFault = false) (depth : Nat)
    (callee : Callee) (args : List Value) (index : Nat) :
    Truncates S (select m depth callee args index) (select m' depth callee args index) := by
  apply truncates_bind_left
  intro clause?
  rcases clause? with _ | clause
  · exact truncates_refl _
  · rcases hmatch : Pattern.matchAll? clause.parameters args callee.frame with _ | frame
    · simp only [hmatch]
      exact hm _
    · simp only [hmatch]
      apply (truncates_guardsHold hm hS _ clause.guards).bind
      intro b
      exact truncates_ite (hm _) (hm _)

theorem truncates_evaluateBranches (c : Context) (loc : Location) (bs : List Branch) :
    Truncates S (evaluateBranches m c loc bs) (evaluateBranches m' c loc bs) := by
  induction bs with
  | nil => exact truncates_refl _
  | cons b bs ih => exact (hm _).bind fun v => truncates_ite (hm _) ih

theorem truncates_evaluateChoices (c : Context) (loc : Location) (v : Value)
    (choices : List Choice) :
    Truncates S (evaluateChoices m c loc v choices) (evaluateChoices m' c loc v choices) := by
  unfold evaluateChoices
  split
  · exact hm _
  · exact truncates_refl _

theorem truncates_evaluateLet (body : Expr) (c : Context) (bs : List Binding) :
    Truncates S (evaluateLet m body c bs) (evaluateLet m' body c bs) := by
  induction bs generalizing c with
  | nil => exact hm _
  | cons b bs ih => exact (hm _).bind fun v => ih _

theorem truncates_evaluateBody (c : Context) (last : Value) (es : List Expr) :
    Truncates S (evaluateBody m c last es) (evaluateBody m' c last es) := by
  induction es generalizing c last with
  | nil => exact truncates_refl _
  | cons e es ih =>
    -- A definition goes on in another context than the other expressions.
    cases e <;> exact (hm _).bind fun v => ih _ v

theorem truncates_evaluateTop (c : Context) (last : Value) (es : List Expr) :
    Truncates S (evaluateTop m c last es) (evaluateTop m' c last es) := by
  induction es generalizing last with
  | nil => exact truncates_refl _
  | cons e es ih => exact (hm _).bind ih

theorem truncates_evaluateElements (c : Context) (es : List Element) :
    Truncates S (evaluateElements m c es) (evaluateElements m' c es) := by
  induction es with
  | nil => exact truncates_refl _
  | cons e es ih =>
    have hrest : ∀ vs : List Value, Truncates S (do return vs ++ (← evaluateElements m c es))
        (do return vs ++ (← evaluateElements m' c es)) := fun vs => ih.bind_right _
    apply (hm _).bind
    intro v
    exact truncates_ite (truncates_bind_left _ hrest) (truncates_bind_left _ hrest)

end Parts

section Calls

variable (hS : Cutoff S limit limit') (hm : ∀ task, Truncates S (m task) (m' task))

include hS hm

theorem truncates_invoke (depth : Nat) (callee : Callee) (args : List Value) :
    Truncates S (invoke limit m depth callee args) (invoke limit' m' depth callee args) := by
  -- This is the only place where the limit counts.
  unfold invoke
  rcases hS.callDepth with rfl | hstop
  · exact truncates_ite (truncates_refl _) (hm _)
  · by_cases hdepth : limit ≤ depth
    · rw [if_pos hdepth]
      exact truncates_raise hstop _
    · have hdepth' : ¬ limit' ≤ depth := fun h => hdepth (Nat.le_trans hS.le h)
      rw [if_neg hdepth, if_neg hdepth']
      exact hm _

theorem truncates_callFunction (depth : Nat) (home : Home) (name : Bytes) (args : List Value) :
    Truncates S (callFunction limit m depth home name args)
      (callFunction limit' m' depth home name args) :=
  truncates_invoke hS hm depth _ args

theorem truncates_callProcedure (depth : Nat) (args : List Value) (p : Procedure) :
    Truncates S (callProcedure limit m depth args p) (callProcedure limit' m' depth args p) := by
  cases p with
  | closure id clause frame home => exact truncates_invoke hS hm depth _ args
  | function id home name =>
    apply truncates_bind_left
    intro f?
    rcases f? with _ | f
    · exact truncates_refl _
    · exact truncates_callFunction hS hm depth home name args
  | builtin name b => exact Builtin.truncates_invoke (fun p args => hm _) name b args
  | composition id outer inner => exact (hm _).bind fun v => hm _
  | partialApplication id p arg => exact hm _
  | constant id v => exact truncates_refl _

theorem truncates_functionReference (depth : Nat) (home : Home) (name : Bytes) (f : Function) :
    Truncates S (functionReference limit m depth home name f)
      (functionReference limit' m' depth home name f) :=
  truncates_ite (truncates_callFunction hS hm depth home name []) (truncates_refl _)

theorem truncates_freeReference (c : Context) (loc : Location) (name : Bytes) :
    Truncates S (freeReference limit m c loc name) (freeReference limit' m' c loc name) := by
  apply truncates_bind_left
  intro v?
  rcases v? with _ | v
  · apply truncates_bind_left
    intro f?
    rcases f? with _ | f
    · apply truncates_bind_left
      intro f?
      rcases f? with _ | f
      · exact truncates_refl _
      · exact truncates_functionReference hS hm c.depth .main name f
    · exact truncates_functionReference hS hm c.depth c.home name f
  · exact truncates_refl _

theorem truncates_callNamed (depth : Nat) (loc : Location) (home : Home) (name : Bytes)
    (args : List Value) :
    Truncates S (callNamed limit m depth loc home name args)
      (callNamed limit' m' depth loc home name args) := by
  apply truncates_bind_left
  intro f?
  rcases f? with _ | f
  · apply truncates_bind_left
    intro v?
    rcases v? with _ | v
    · exact truncates_refl _
    · exact truncates_callValue hm depth v args
  · exact truncates_callFunction hS hm depth home name args

theorem truncates_callByName (c : Context) (loc : Location) (name : Bytes) (args : List Value) :
    Truncates S (callByName limit m c loc name args) (callByName limit' m' c loc name args) := by
  apply truncates_bind_left
  intro home?
  rcases home? with _ | home
  · exact truncates_refl _
  · exact truncates_callNamed hS hm c.depth loc home name args

theorem truncates_callMember (depth : Nat) (loc : Location) (home member : Bytes)
    (args : List Value) :
    Truncates S (callMember limit m depth loc home member args)
      (callMember limit' m' depth loc home member args) := by
  apply truncates_ite
  · exact truncates_callNamed hS hm depth loc .core member args
  · apply truncates_bind_left
    intro module?
    rcases module? with _ | mod
    · exact truncates_refl _
    · rcases hf : mod.function? member with _ | f
      · simp only [hf]
        exact truncates_refl _
      · simp only [hf]
        exact truncates_ite (truncates_callFunction hS hm depth _ member args) (truncates_refl _)

theorem truncates_evaluateStep {e : Expr} (h : e.isAttempt = false) (c : Context) (top : Bool) :
    Truncates S (evaluateStep limit m c top e) (evaluateStep limit' m' c top e) := by
  have hall := truncates_evaluateAll hm c
  cases e with
  | literal | localRef | lambda | defineFunction => exact truncates_refl _
  | freeRef loc name => exact truncates_freeReference hS hm c loc name
  | call loc name args => exact (hall args).bind (truncates_callByName hS hm c loc name)
  | memberCall loc home member args =>
    exact (hall args).bind (truncates_callMember hS hm c.depth loc home member)
  | apply loc target args =>
    exact (hm _).bind fun v => (hall args).bind (truncates_callValue hm c.depth v)
  | operation loc op operands => exact (hall operands).bind_right _
  | and left right => exact (hm _).bind fun v => truncates_ite (hm _) (truncates_refl _)
  | or left right => exact (hm _).bind fun v => truncates_ite (truncates_refl _) (hm _)
  | ifThenElse test yes no => exact (hm _).bind fun v => truncates_ite (hm _) (hm _)
  | cond loc branches => exact truncates_evaluateBranches hm c loc branches
  | caseOf loc scrutinee choices =>
    exact (hm _).bind fun v => truncates_evaluateChoices hm c loc v choices
  | letIn bindings body => exact truncates_evaluateLet hm body c bindings
  | define name value => exact (hm _).bind_right _
  | sequence es =>
    exact truncates_ite (truncates_evaluateTop hm c .nil es) (truncates_evaluateBody hm c .nil es)
  | attempt body => exact Bool.noConfusion h
  | makeList elements => exact (truncates_evaluateElements hm c elements).bind_right _
  | makeTuple elements => exact (hall elements).bind_right _
  | defineModule name es =>
    exact truncates_bind_left _ fun _ => (truncates_evaluateTop hm _ .nil es).bind_right _

theorem truncates_step {task : Task} (h : task.isAttempt = false) :
    Truncates S (step limit m task) (step limit' m' task) := by
  cases task with
  | evaluate c top e => exact truncates_evaluateStep hS hm h c top
  | call depth p args => exact truncates_callProcedure hS hm depth args p
  | select depth callee args index =>
    exact truncates_select hm hS.notTypeFault depth callee args index

end Calls

def performBare (limit : Nat) : Nat → Machine
  | 0, _ => .exhaust
  | fuel + 1, task =>
    if task.isAttempt then .exhaust else step limit (performBare limit fuel) task

theorem truncates_performBare (hS : Cutoff S limit limit') (fuel : Nat) (task : Task) :
    Truncates S (performBare limit fuel task) (performBare limit' fuel task) := by
  induction fuel generalizing task with
  | zero => exact truncates_refl _
  | succ fuel ih =>
    unfold performBare
    by_cases htask : task.isAttempt = true
    · rw [if_pos htask, if_pos htask]
      exact truncates_refl _
    · rw [if_neg htask, if_neg htask]
      rw [Bool.not_eq_true] at htask
      exact truncates_step hS ih htask

end Machine
end ClauseLisp
