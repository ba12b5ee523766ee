import ClauseLisp.World

/-! What is found in a world after a change of it. -/

namespace ClauseLisp

theorem Table.get?_set {α : Type} (t : Table α) (name : Bytes) (a : α) (other : Bytes) :
    (t.set name a).get? other = if other = name then some a else t.get? other := by
  by_cases h : other = name
  · rw [if_pos h, h, get?_set_self]
  · rw [if_neg h, get?_set_of_ne t a h]

theorem Table.set_set {α : Type} (t : Table α) (name : Bytes) (a b : α) :
    (t.set name a).set name b = t.set name b := by
  fun_induction set t name a <;> simp_all [set]

namespace Module

variable (m : Module) (name : Bytes)

theorem definition?_define (v : Value) (other : Bytes) :
    (m.define name v).definition? other = if other = name then some v else m.definition? other :=
  Table.get?_set _ _ _ _

theorem function?_addClauses (exported : Bool) (clauses : List Clause) (other : Bytes) :
    (m.addClauses name exported clauses).function? other =
      if other = name then
        some ⟨((m.function? name).getD ⟨false, []⟩).exported || exported,
          ((m.function? name).getD ⟨false, []⟩).clauses ++ clauses⟩
      else m.function? other :=
  Table.get?_set _ _ _ _

theorem addClauses_addClauses (exported : Bool) (clauses more : List Clause) :
    (m.addClauses name exported clauses).addClauses name exported more =
      m.addClauses name exported (clauses ++ more) := by
  have hold := m.function?_addClauses name exported clauses name
  rw [if_pos rfl] at hold
  rw [addClauses, hold]
  simp [addClauses, Table.set_set]

theorem get?_foldl_builtin {fill : Table Value → Bytes × Builtin → Table Value}
    (hfill : ∀ t p, fill t p = t.set p.1 (.procedure (.builtin p.1 p.2)))
    (entries : List (Bytes × Builtin)) (t : Table Value) (name : Bytes) :
    Table.get? (entries.foldl fill t) name =
      ((entries.reverse.lookup name).map fun b => .procedure (.builtin name b)).or
        (t.get? name) := by
  induction entries generalizing t with
  | nil => rfl
  | cons entry entries ih =>
    obtain ⟨key, b⟩ := entry
    rw [List.foldl_cons, ih, hfill, Table.get?_set, List.reverse_cons, List.lookup_append,
      Option.map_or, Option.or_assoc, List.lookup_cons]
    by_cases hname : name = key
    · simp [hname]
    · simp [hname, beq_eq_false_iff_ne.mpr hname]

theorem definition?_core_eq (name : Bytes) :
    core.definition? name =
      (Builtin.table.reverse.lookup name).map fun b => .procedure (.builtin name b) := by
  rw [core, definition?, get?_foldl_builtin (fun _ _ => rfl), Table.get?_nil, Option.or_none]

theorem definition?_core_of_mem {name : Bytes} {b : Builtin} (h : (name, b) ∈ Builtin.table) :
    core.definition? name = some (.procedure (.builtin name b)) := by
  have hlookup : ∀ entry ∈ Builtin.table,
      Builtin.table.reverse.lookup entry.1 = some entry.2 := by decide +kernel
  rw [definition?_core_eq, hlookup _ h, Option.map_some]

theorem definition?_core {name : Bytes} {v : Value} (h : core.definition? name = some v) :
    ∃ key b, v = .procedure (.builtin key b) := by
  rw [definition?_core_eq] at h
  obtain ⟨b, -, rfl⟩ := Option.map_eq_some_iff.mp h
  exact ⟨name, b, rfl⟩

end Module

namespace World

variable (w : World)

theorem module?_update (home other : Home) (f : Module → Module) :
    (w.update home f).module? other =
      if other = home then (w.module? home).map f else w.module? other := by
  cases home with
  | main => cases other <;> simp [update, module?]
  | core => cases other <;> simp [update, module?]
  | named name =>
    cases hm : w.modules.get? name with
    | none =>
      have hw : w.update (.named name) f = w := by simp [update, hm]
      rw [hw]
      split
      · rename_i h
        simp [h, module?, hm]
      · rfl
    | some m =>
      have hw : w.update (.named name) f = { w with modules := w.modules.set name (f m) } := by
        simp [update, hm]
      rw [hw]
      cases other with
      | main => simp [module?]
      | core => simp [module?]
      | named key => simp [module?, hm, Table.get?_set]

theorem update_update (home : Home) (f g : Module → Module) :
    (w.update home f).update home g = w.update home fun m => g (f m) := by
  cases home with
  | main => rfl
  | core => rfl
  | named name => cases hm : w.modules.get? name <;>
      simp [update, hm, Table.get?_set_self, Table.set_set]

theorem update_made (home : Home) (f : Module → Module) (n : Nat) :
    { w with made := n }.update home f = { w.update home f with made := n } := by
  cases home with
  | main => rfl
  | core => rfl
  | named name => cases hm : w.modules.get? name <;> simp [update, hm]

theorem made_update (home : Home) (f : Module → Module) : (w.update home f).made = w.made := by
  have h := congrArg made (w.update_made home f w.made)
  exact h

theorem module?_ensureModule (name : Bytes) (other : Home) :
    (w.ensureModule name).module? other =
      if other = .named name then some ((w.module? other).getD .empty) else w.module? other := by
  cases hm : w.modules.get? name with
  | some m =>
    have hw : w.ensureModule name = w := by simp [ensureModule, hm]
    rw [hw]
    split
    · rename_i h
      simp [h, module?, hm]
    · rfl
  | none =>
    have hw : w.ensureModule name = { w with modules := w.modules.set name .empty } := by
      simp [ensureModule, hm]
    rw [hw]
    cases other with
    | main => simp [module?]
    | core => simp [module?]
    | named key =>
      by_cases h : key = name
      · simp [module?, h, hm, Table.get?_set]
      · simp [module?, h, Table.get?_set]

theorem module?_made (n : Nat) (home : Home) :
    { w with made := n }.module? home = w.module? home := by
  cases home <;> rfl

theorem module?_print (s : Bytes) (home : Home) : (w.print s).module? home = w.module? home := by
  cases home <;> rfl

theorem definition?_define {home : Home} (h : (w.module? home).isSome) (name : Bytes) (v : Value)
    (other : Home) (key : Bytes) :
    (w.update home (·.define name v)).definition? other key =
      if other = home ∧ key = name then some v else w.definition? other key := by
  obtain ⟨m, hm⟩ := Option.isSome_iff_exists.mp h
  unfold definition?
  rw [module?_update]
  by_cases ho : other = home
  · simp [ho, hm, Module.definition?_define]
  · simp [ho]

theorem function?_define (home : Home) (name : Bytes) (v : Value) (other : Home) (key : Bytes) :
    (w.update home (·.define name v)).function? other key = w.function? other key := by
  unfold function?
  rw [module?_update]
  split
  · rename_i h
    rw [h]
    cases w.module? home <;> rfl
  · rfl

theorem definition?_addClauses (home : Home) (name : Bytes) (exported : Bool)
    (clauses : List Clause) (other : Home) (key : Bytes) :
    (w.update home (·.addClauses name exported clauses)).definition? other key =
      w.definition? other key := by
  unfold definition?
  rw [module?_update]
  split
  · rename_i h
    rw [h]
    cases w.module? home <;> rfl
  · rfl

theorem function?_addClauses_cases {home other : Home} {name key : Bytes} {exported : Bool}
    {clauses : List Clause} {f : Function}
    (hf : (w.update home (·.addClauses name exported clauses)).function? other key = some f) :
    w.function? other key = some f ∨ other = home ∧ key = name ∧
      f = ⟨((w.function? home name).getD ⟨false, []⟩).exported || exported,
        ((w.function? home name).getD ⟨false, []⟩).clauses ++ clauses⟩ := by
  unfold function? at hf ⊢
  rw [module?_update] at hf
  by_cases ho : other = home
  · subst ho
    cases hm : w.module? other with
    | none => simp [hm] at hf
    | some m =>
      simp only [hm, Option.map_some, if_true, Option.bind_some, Module.function?_addClauses] at hf
      by_cases hk : key = name
      · rw [if_pos hk] at hf
        exact Or.inr ⟨rfl, hk, (Option.some.inj hf).symm⟩
      · rw [if_neg hk] at hf
        exact Or.inl hf
  · rw [if_neg ho] at hf
    exact Or.inl hf

theorem mem_clauses_addClauses {home other : Home} {name key : Bytes} {exported : Bool}
    {clauses : List Clause} {f : Function} {clause : Clause}
    (hf : (w.update home (·.addClauses name exported clauses)).function? other key = some f)
    (hc : clause ∈ f.clauses) :
    (∃ g, w.function? other key = some g ∧ clause ∈ g.clauses) ∨
      other = home ∧ key = name ∧ clause ∈ clauses := by
  rcases w.function?_addClauses_cases hf with hold | ⟨rfl, rfl, rfl⟩
  · exact Or.inl ⟨f, hold, hc⟩
  · rcases List.mem_append.mp hc with hc | hc
    · left
      cases hg : w.function? other key with
      | none => simp [hg] at hc
      | some g => exact ⟨g, rfl, by simpa [hg] using hc⟩
    · exact Or.inr ⟨rfl, rfl, hc⟩

theorem definition?_ensureModule (name : Bytes) (home : Home) (key : Bytes) :
    (w.ensureModule name).definition? home key = w.definition? home key := by
  unfold definition?
  rw [module?_ensureModule]
  split
  · cases w.module? home <;> rfl
  · rfl

theorem function?_ensureModule (name : Bytes) (home : Home) (key : Bytes) :
    (w.ensureModule name).function? home key = w.function? home key := by
  unfold function?
  rw [module?_ensureModule]
  split
  · cases w.module? home <;> rfl
  · rfl

theorem definition?_fresh {home : Home} {name : Bytes} {v : Value}
    (h : fresh.definition? home name = some v) : ∃ key b, v = .procedure (.builtin key b) := by
  cases home with
  | main => exact absurd h (by simp [definition?, module?, fresh, Module.empty, Module.definition?,
      Table.get?_nil])
  | core =>
    rw [definition?, module?, fresh, Option.bind_some] at h
    exact Module.definition?_core h
  | named key => exact absurd h (by simp [definition?, module?, fresh, Table.get?_nil])

theorem function?_fresh (home : Home) (name : Bytes) : fresh.function? home name = none := by
  cases home <;> rfl

end World
end ClauseLisp
