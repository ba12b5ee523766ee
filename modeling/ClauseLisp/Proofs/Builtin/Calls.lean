import ClauseLisp.Proofs.Run.Contract

/-! Builtin procedures keep every contract that the procedures they call keep. -/

namespace ClauseLisp

namespace Contract

variable (K : Contract)

def HoldsAll (w : World) (vs : List Value) : Prop := ∀ v ∈ vs, K.Holds w v

/-- From the world `w` on, both ways of calling procedures agree. -/
def Calls (w : World) (call call' : Builtin.Caller) : Prop :=
  ∀ w' p args, K.Next w w' → K.Holds w' (.procedure p) → K.HoldsAll w' args →
    K.Agree w' (call p args) (call' p args) K.Holds

variable {K} {w w' : World} {call call' : Builtin.Caller}

theorem HoldsAll.later {vs : List Value} (h : K.HoldsAll w vs) (hl : K.Later w w') :
    K.HoldsAll w' vs :=
  fun v hv => (h v hv).later hl

theorem holdsAll_singleton {v : Value} (h : K.Holds w v) : K.HoldsAll w [v] :=
  List.forall_mem_singleton.mpr h

theorem Calls.next (h : K.Calls w call call') (hnext : K.Next w w') : K.Calls w' call call' :=
  fun w'' p args hnext' => h w'' p args (hnext.trans hnext')

end Contract

namespace Builtin

open Contract (agree_pure agree_ofExcept agree_freshId agree_forEach agree_foldLeft agree_findFirst
  agree_splitBy next_refl holdsAll_singleton)

variable {K : Contract} {w : World} {call call' : Caller} {v : Value} {p : Procedure}

theorem agree_procedure (hw : K.Good w) (hv : K.Holds w v) :
    K.Agree w (procedure v) (procedure v) fun w' p => K.Holds w' (.procedure p) :=
  agree_ofExcept hw (Value.computes_expectProcedure hv) fun _ h => h

theorem agree_elements (hw : K.Good w) (hv : K.Holds w v) :
    K.Agree w (elements v) (elements v) K.HoldsAll :=
  agree_ofExcept hw (Value.computes_expectList hv) fun _ h => h

theorem agree_procedure_elements {f : Procedure → List Value → Run Value}
    {f' : Procedure → List Value → Run Value} {xs : Value} (hw : K.Good w) (hv : K.Holds w v)
    (hxs : K.Holds w xs)
    (h : ∀ p xs w', K.Next w w' → K.Holds w' (.procedure p) → K.HoldsAll w' xs →
      K.Agree w' (f p xs) (f' p xs) K.Holds) :
    K.Agree w (do f (← procedure v) (← elements xs)) (do f' (← procedure v) (← elements xs))
      K.Holds := by
  refine (agree_procedure hw hv).bind fun p w' hnext hp => ?_
  refine (agree_elements hnext.1 (hxs.later hnext.2)).bind fun ys w'' hnext' hys => ?_
  exact h p ys w'' (hnext.trans hnext') (hp.later hnext'.2) hys

theorem agree_newProcedure {make : Nat → Procedure} (hw : K.Good w)
    (h : ∀ n w', K.Next w w' → K.Holds w' (.procedure (make n))) :
    K.Agree w (newProcedure make) (newProcedure make) K.Holds :=
  (agree_freshId hw).bind fun n w' hnext _ => agree_pure hnext.1 (h n w' hnext)

theorem perform_eq_compute {b : Builtin} (h : b.isHigherOrder = false) (call : Caller)
    (args : List Value) : perform call b args = .ofExcept (b.compute args) := by
  -- The builtins that call others contradict the hypothesis.
  cases b <;> cases h <;> rfl

theorem agree_perform_binary {b : Builtin} {x y : Value} (hb : b.isHigherOrder = true)
    (harity : b.arity? = some 2) (hw : K.Good w) (hcall : K.Calls w call call')
    (hx : K.Holds w x) (hy : K.Holds w y) :
    K.Agree w (perform call b [x, y]) (perform call' b [x, y]) K.Holds := by
  -- One element given to the procedure, at a later point of the run.
  have hone : ∀ {p xs w' z w''}, K.Next w w' → K.Holds w' (.procedure p) → K.HoldsAll w' xs →
      z ∈ xs → K.Next w' w'' → K.Agree w'' (call p [z]) (call' p [z]) K.Holds := by
    intro p xs w' z w'' hnext hp hxs hz hnext'
    exact hcall w'' p [z] (hnext.trans hnext') (hp.later hnext'.2)
      (holdsAll_singleton ((hxs z hz).later hnext'.2))
  have htest : ∀ {p xs w' z w''}, K.Next w w' → K.Holds w' (.procedure p) → K.HoldsAll w' xs →
      z ∈ xs → K.Next w' w'' → K.Agree w'' (accepts call p z) (accepts call' p z) fun _ _ => True :=
    fun hnext hp hxs hz hnext' =>
      (hone hnext hp hxs hz hnext').bind fun _ _ hnext'' _ => agree_pure hnext''.1 trivial
  cases b with
  | map =>
    refine agree_procedure_elements hw hx hy fun p xs w' hnext hp hxs => ?_
    refine (agree_forEach (R := K.Holds) hnext.1 (fun hl h => h.later hl) fun z hz w'' =>
      hone hnext hp hxs hz).bind fun ys w'' hnext' hys => ?_
    exact agree_pure hnext'.1 (Value.all_list.mpr hys.2)
  | filter =>
    refine agree_procedure_elements hw hx hy fun p xs w' hnext hp hxs => ?_
    refine (agree_splitBy hnext.1 fun z hz w'' => htest hnext hp hxs hz).bind
      fun r w'' hnext' hr => agree_pure hnext'.1 (Value.all_list.mpr fun z hz => ?_)
    exact (hxs z (hr z (Or.inl hz))).later hnext'.2
  | partition =>
    refine agree_procedure_elements hw hx hy fun p xs w' hnext hp hxs => ?_
    refine (agree_splitBy hnext.1 fun z hz w'' => htest hnext hp hxs hz).bind
      fun r w'' hnext' hr => agree_pure hnext'.1 ?_
    have hyes : K.Holds w'' (.list r.1) :=
      Value.all_list.mpr fun z hz => (hxs z (hr z (Or.inl hz))).later hnext'.2
    have hno : K.Holds w'' (.list r.2) :=
      Value.all_list.mpr fun z hz => (hxs z (hr z (Or.inr hz))).later hnext'.2
    exact Value.all_list.mpr (List.forall_mem_cons.mpr ⟨hyes, holdsAll_singleton hno⟩)
  | apply =>
    exact agree_procedure_elements hw hx hy fun p xs w' hnext hp hxs => hcall w' p xs hnext hp hxs
  | all =>
    refine agree_procedure_elements hw hx hy fun p xs w' hnext hp hxs => ?_
    refine (agree_findFirst hnext.1 fun z hz w'' hnext' => ?_).bind fun _ _ hnext' _ =>
      agree_pure hnext'.1 (Value.all_boolean _)
    exact (htest hnext hp hxs hz hnext').bind fun _ _ hnext'' _ => agree_pure hnext''.1 trivial
  | any =>
    refine agree_procedure_elements hw hx hy fun p xs w' hnext hp hxs => ?_
    exact (agree_findFirst hnext.1 fun z hz w'' => htest hnext hp hxs hz).bind
      fun _ _ hnext' _ => agree_pure hnext'.1 (Value.all_boolean _)
  | find =>
    refine agree_procedure_elements hw hx hy fun p xs w' hnext hp hxs => ?_
    refine (agree_findFirst hnext.1 fun z hz w'' => htest hnext hp hxs hz).bind
      fun r w'' hnext' hr => agree_pure hnext'.1 ?_
    cases r with
    | none => exact Value.all_nil
    | some z => exact (hxs z (hr z rfl)).later hnext'.2
  | compose =>
    refine (agree_procedure hw hx).bind fun p w' hnext hp => ?_
    refine (agree_procedure hnext.1 (hy.later hnext.2)).bind fun q w'' hnext' hq => ?_
    refine agree_newProcedure hnext'.1 fun n u hnext'' => Value.all_composition.mpr ?_
    exact ⟨K.sound_combined rfl, (hp.later hnext'.2).later hnext''.2, hq.later hnext''.2⟩
  | partialApply =>
    refine (agree_procedure hw hx).bind fun p w' hnext hp => ?_
    refine agree_newProcedure hnext.1 fun n u hnext' => Value.all_partialApplication.mpr ?_
    exact ⟨K.sound_combined rfl, hp.later hnext'.2, (hy.later hnext.2).later hnext'.2⟩
  | _ => simp [isHigherOrder, arity?] at hb harity

theorem agree_perform_constantly (hw : K.Good w) (hv : K.Holds w v) :
    K.Agree w (perform call constantly [v]) (perform call' constantly [v]) K.Holds :=
  agree_newProcedure hw fun _ _ hnext =>
    Value.all_constant.mpr ⟨K.sound_combined rfl, hv.later hnext.2⟩

theorem agree_fold {xs : List Value} (hw : K.Good w) (hcall : K.Calls w call call')
    (hp : K.Holds w (.procedure p)) (hv : K.Holds w v) (hxs : K.HoldsAll w xs) :
    K.Agree w (Run.foldLeft (combine call p) v xs) (Run.foldLeft (combine call' p) v xs)
      K.Holds := by
  refine agree_foldLeft hw hv fun z hz acc w' hnext hacc => ?_
  refine hcall w' p [z, acc] hnext (hp.later hnext.2) ?_
  exact List.forall_mem_cons.mpr ⟨(hxs z hz).later hnext.2, holdsAll_singleton hacc⟩

theorem agree_perform_ternary {b : Builtin} {x y z : Value} (hb : b.isHigherOrder = true)
    (harity : b.arity? = some 3) (hw : K.Good w) (hcall : K.Calls w call call')
    (hx : K.Holds w x) (hy : K.Holds w y) (hz : K.Holds w z) :
    K.Agree w (perform call b [x, y, z]) (perform call' b [x, y, z]) K.Holds := by
  cases b with
  | foldLeft =>
    refine agree_procedure_elements hw hx hz fun p xs w' hnext hp hxs => ?_
    exact agree_fold hnext.1 (hcall.next hnext) hp (hy.later hnext.2) hxs
  | foldRight =>
    refine agree_procedure_elements hw hx hz fun p xs w' hnext hp hxs => ?_
    exact agree_fold hnext.1 (hcall.next hnext) hp (hy.later hnext.2)
      fun u hu => hxs u (List.mem_reverse.mp hu)
  | _ => simp [isHigherOrder, arity?] at hb harity

theorem arity?_of_isHigherOrder {b : Builtin} (h : b.isHigherOrder = true) :
    b.arity? = some 1 ∨ b.arity? = some 2 ∨ b.arity? = some 3 := by
  cases b <;> simp [isHigherOrder, arity?] at h ⊢

theorem agree_perform {b : Builtin} {args : List Value} (hw : K.Good w)
    (hcall : K.Calls w call call') (harity : ∀ n ∈ b.arity?, args.length = n)
    (hargs : K.HoldsAll w args) :
    K.Agree w (perform call b args) (perform call' b args) K.Holds := by
  by_cases hb : b.isHigherOrder = true
  · rcases arity?_of_isHigherOrder hb with hn | hn | hn
    · obtain rfl : b = constantly := by cases b <;> simp [arity?, isHigherOrder] at hn hb ⊢
      obtain ⟨v, rfl⟩ := List.length_eq_one_iff.mp (harity 1 hn)
      exact agree_perform_constantly hw (hargs v (by simp))
    · have hlength := harity 2 hn
      rcases args with _ | ⟨x, _ | ⟨y, _ | ⟨z, zs⟩⟩⟩ <;> simp at hlength
      exact agree_perform_binary hb hn hw hcall (hargs x (by simp)) (hargs y (by simp))
    · have hlength := harity 3 hn
      rcases args with _ | ⟨x, _ | ⟨y, _ | ⟨z, _ | ⟨u, us⟩⟩⟩⟩ <;> simp at hlength
      exact agree_perform_ternary hb hn hw hcall (hargs x (by simp)) (hargs y (by simp))
        (hargs z (by simp))
  · rw [Bool.not_eq_true] at hb
    rw [perform_eq_compute hb, perform_eq_compute hb]
    exact agree_ofExcept hw (computes_compute hb harity hargs) fun _ h => h

theorem agree_invoke {name : Bytes} {b : Builtin} {args : List Value} (hw : K.Good w)
    (hcall : K.Calls w call call') (hargs : K.HoldsAll w args) :
    K.Agree w (invoke call name b args) (invoke call' name b args) K.Holds := by
  unfold invoke
  cases hn : b.arity? with
  | none => exact agree_perform hw hcall (by simp [hn]) hargs
  | some n =>
    refine Contract.agree_ite (fun h => ?_) fun _ => ?_
    · exact agree_perform hw hcall (by simp [hn, h]) hargs
    · exact Contract.agree_raise hw (K.allowed rfl)

end Builtin
end ClauseLisp
