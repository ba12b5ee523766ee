import ClauseLisp.Expr.Printer
import ClauseLisp.Proofs.Expr.Agreement

/-! The text of programs does not tell where they stand: forms that differ in their locations
compile to expressions with the same text, or none of them compiles. -/

namespace ClauseLisp.Expr

def SameText (e e' : Expr) : Prop :=
  e'.binding = e.binding ∧ ∀ indent, shown indent e' = shown indent e

section Texts

variable {m : Location → Location} {e e' : Expr} {es es' : List Expr}

theorem SameText.parenthesized (h : SameText e e') (around : Nat) (right : Bool) (text : Bytes) :
    parenthesized around right e' text = parenthesized around right e text := by
  unfold Expr.parenthesized
  rw [h.1]

theorem shownList_sameText (indent : Nat) (h : List.Forall₂ SameText es es') :
    shownList indent es' = shownList indent es := by
  induction h with
  | nil => rfl
  | cons he hes ih =>
    cases hes with
    | nil => rw [shownList, shownList, he.2]
    | cons => rw [shownList, shownList, he.2, ih]

theorem shownBlock_sameText (indent : Nat) (h : List.Forall₂ SameText es es') :
    shownBlock indent es' = shownBlock indent es := by
  induction h with
  | nil => rfl
  | cons he _ ih => rw [shownBlock, shownBlock, he.2, ih]

theorem shownOperation_sameText (indent : Nat) (op : Operation) (h : List.Forall₂ SameText es es') :
    shownOperation indent op es' = shownOperation indent op es := by
  match h with
  | .nil => rfl
  | .cons he .nil => simp only [shownOperation, he.2, he.parenthesized]
  | .cons he (.cons hf .nil) => simp only [shownOperation, he.2, hf.2, he.parenthesized, hf.parenthesized]
  | .cons he (.cons hf (.cons hg hs)) =>
    rw [shownOperation, shownOperation, he.2, shownList_sameText indent (.cons hf (.cons hg hs))]
    all_goals nofun

theorem shownBranches_sameText (indent : Nat) {bs bs' : List Branch}
    (h : List.Forall₂ (Branch.Related SameText) bs bs') :
    shownBranches indent bs' = shownBranches indent bs := by
  induction h with
  | nil => rfl
  | @cons b b' _ _ hb _ ih =>
    obtain ⟨test, result⟩ := b
    obtain ⟨test', result'⟩ := b'
    obtain ⟨⟨-, htest⟩, -, hresult⟩ := hb
    rw [shownBranches, shownBranches, htest, hresult, ih]

theorem shownChoices_sameText (indent : Nat) {cs cs' : List Choice}
    (h : List.Forall₂ (Choice.Related SameText) cs cs') :
    shownChoices indent cs' = shownChoices indent cs := by
  induction h with
  | nil => rfl
  | @cons c c' _ _ hc _ ih =>
    obtain ⟨datum, body⟩ := c
    obtain ⟨datum', body'⟩ := c'
    obtain ⟨rfl, -, hbody⟩ := hc
    rw [shownChoices, shownChoices, hbody, ih]

theorem shownBindings_sameText (indent : Nat) {bs bs' : List Binding}
    (h : List.Forall₂ (Binding.Related SameText) bs bs') :
    shownBindings indent bs' = shownBindings indent bs := by
  induction h with
  | nil => rfl
  | @cons b b' _ _ hb hbs ih =>
    obtain ⟨name, value⟩ := b
    obtain ⟨name', value'⟩ := b'
    obtain ⟨rfl, -, hvalue⟩ := hb
    cases hbs with
    | nil => rw [shownBindings, shownBindings, hvalue]
    | cons => rw [shownBindings, shownBindings, hvalue, ih]

theorem shownElements_sameText (indent : Nat) {es es' : List Element}
    (h : List.Forall₂ (Element.Related SameText) es es') :
    shownElements indent es' = shownElements indent es := by
  induction h with
  | nil => rfl
  | @cons e e' _ _ he hes ih =>
    obtain ⟨spliced, value⟩ := e
    obtain ⟨spliced', value'⟩ := e'
    obtain ⟨rfl, -, hvalue⟩ := he
    cases hes with
    | nil => rw [shownElements, shownElements, hvalue]
    | cons => rw [shownElements, shownElements, hvalue, ih]

theorem shownMoreGuards_sameText (indent : Nat) (h : List.Forall₂ SameText es es') :
    shownMoreGuards indent es' = shownMoreGuards indent es := by
  induction h with
  | nil => rfl
  | cons he _ ih => rw [shownMoreGuards, shownMoreGuards, he.2, ih]

theorem shownGuards_sameText (indent : Nat) (h : List.Forall₂ SameText es es') :
    shownGuards indent es' = shownGuards indent es := by
  cases h with
  | nil => rfl
  | cons he hes => rw [shownGuards, shownGuards, he.2, shownMoreGuards_sameText indent hes]

theorem shownClauses_sameText (indent : Nat) (head : Bytes) {cs cs' : List Clause}
    (h : List.Forall₂ (Clause.Related m SameText) cs cs') :
    shownClauses indent head cs' = shownClauses indent head cs := by
  induction h with
  | nil => rfl
  | @cons c c' _ _ hc hcs ih =>
    obtain ⟨loc, ps, guards, body⟩ := c
    obtain ⟨loc', ps', guards', body'⟩ := c'
    obtain ⟨-, rfl, hguards, -, hbody⟩ := hc
    cases hcs with
    | nil => rw [shownClauses, shownClauses, shownGuards_sameText indent hguards, hbody]
    | cons => rw [shownClauses, shownClauses, shownGuards_sameText indent hguards, hbody, ih]

theorem SameText.lambda {c c' : Clause} (h : Clause.Related m SameText c c') :
    SameText (.lambda c) (.lambda c') := by
  obtain ⟨loc, ps, guards, body⟩ := c
  obtain ⟨loc', ps', guards', body'⟩ := c'
  obtain ⟨-, rfl, hguards, -, hbody⟩ := h
  exact ⟨rfl, fun i => by rw [shown, shown, shownGuards_sameText i hguards, hbody]⟩

end Texts

theorem congruence_sameText (m : Location → Location) : Congruence m [] SameText where
  literal _ := ⟨rfl, fun _ => rfl⟩
  localRef _ := ⟨rfl, fun _ => rfl⟩
  freeRef _ _ := ⟨rfl, fun _ => rfl⟩
  call _ _ _ _ hes := ⟨rfl, fun i => by rw [shown, shown, shownList_sameText i hes]⟩
  memberCall _ _ _ _ _ hes := ⟨rfl, fun i => by rw [shown, shown, shownList_sameText i hes]⟩
  apply _ _ _ _ _ he hes := ⟨rfl, fun i => by rw [shown, shown, he.2, shownList_sameText i hes]⟩
  operation _ _ _ _ hes :=
    ⟨rfl, fun i => by rw [shown, shown, shownOperation_sameText i _ hes]⟩
  and he hf := ⟨rfl, fun i => by
    rw [shown, shown, he.2, hf.2, he.parenthesized, hf.parenthesized]⟩
  or he hf := ⟨rfl, fun i => by
    rw [shown, shown, he.2, hf.2, he.parenthesized, hf.parenthesized]⟩
  ifThenElse he hf hg := ⟨rfl, fun i => by rw [shown, shown, he.2, hf.2, hg.2]⟩
  cond _ _ _ hbs := ⟨rfl, fun i => by rw [shown, shown, shownBranches_sameText _ hbs]⟩
  caseOf _ _ _ _ _ he hcs :=
    ⟨rfl, fun i => by rw [shown, shown, he.2, shownChoices_sameText _ hcs]⟩
  letIn hbs he := ⟨rfl, fun i => by rw [shown, shown, shownBindings_sameText _ hbs, he.2]⟩
  lambda hc := .lambda hc
  defineFunction _ _ _ _ hcs :=
    ⟨rfl, fun i => by rw [shown, shown, shownClauses_sameText i _ hcs]⟩
  define _ _ _ he := ⟨rfl, fun i => by rw [shown, shown, he.2]⟩
  sequence hes := ⟨rfl, fun i => by
    cases hes with
    | nil => rfl
    | cons he hes => rw [shown, shown, he.2, shownBlock_sameText _ hes]⟩
  attempt he := ⟨rfl, fun i => by rw [shown, shown, he.2]⟩
  makeList hes := ⟨rfl, fun i => by rw [shown, shown, shownElements_sameText i hes]⟩
  makeTuple hes := ⟨rfl, fun i => by rw [shown, shown, shownList_sameText i hes]⟩
  defineModule _ _ _ hes := ⟨rfl, fun i => by rw [shown, shown, shownBlock_sameText _ hes]⟩
  knownRef _ _ h := absurd h List.not_mem_nil
  knownCall _ _ _ _ h := absurd h List.not_mem_nil
  knownMember _ _ _ _ _ _ h := absurd h List.not_mem_nil

theorem shownProgram_sameText {es es' : List Expr} (h : List.Forall₂ SameText es es') :
    shownProgram es' = shownProgram es := by
  have htexts : es'.map (shown 0) = es.map (shown 0) := by
    induction h with
    | nil => rfl
    | cons he _ ih => rw [List.map_cons, List.map_cons, he.2, ih]
  rw [shownProgram, htexts, shownProgram]

theorem shownProgram_relocateAll (m : Location → Location) (forms : List Form) :
    (ofProgram (Form.relocateAll m forms)).result.toOption.map shownProgram =
      (ofProgram forms).result.toOption.map shownProgram := by
  have hforms : ∀ x ∈ forms, x.height ≤ Form.heightAll forms :=
    Form.heightAll_le_iff.mp (Nat.le_refl _)
  have hagrees := agrees_ofForm (congruence_sameText m) (Form.heightAll forms)
  have hbody : Report.Agree ([] = []) (List.Forall₂ SameText) (ofProgram forms)
      (body ofForm ([] ++ []) (Form.relocateAll m forms)) := hagrees.body hforms
  exact hbody.map_toOption rfl fun es es' => shownProgram_sameText

end ClauseLisp.Expr
