import ClauseLisp.Expr.OfForm
import ClauseLisp.Proofs.Form.Placed

/-! Parts of expressions and of forms. The forms that the rules of compiling take hold of are parts
of the form that is compiled: a hereditary property of it is one of them all. -/

namespace ClauseLisp

/-- The parts of an expression that are evaluated where the expression is. -/
def Expr.parts : Expr → List Expr
  | call _ _ args => args
  | memberCall _ _ _ args => args
  | apply _ target args => target :: args
  | operation _ _ operands => operands
  | and left right => [left, right]
  | or left right => [left, right]
  | ifThenElse test yes no => [test, yes, no]
  | cond _ branches => branches.flatMap fun b => [b.test, b.result]
  | caseOf _ scrutinee choices => scrutinee :: choices.map Choice.body
  | define _ value => [value]
  | attempt body => [body]
  | makeList elements => elements.map Element.value
  | makeTuple elements => elements
  | _ => []

def Expr.isDefinition : Expr → Bool
  | define .. => true
  | _ => false

namespace Report

variable {α β : Type}

def Gives (r : Report α) (Q : α → Prop) : Prop := ∀ a, r.result = .ok a → Q a

variable {Q : α → Prop} {R : β → Prop} {r : Report α}

theorem gives_pure {a : α} (h : Q a) : (pure a : Report α).Gives Q := by
  intro b hb
  exact Except.ok.inj hb ▸ h

theorem gives_fail (error : CompileError) (loc : Location) :
    (fail error loc : Report α).Gives Q := by
  intro a ha
  simp [fail] at ha

theorem gives_ofExcept {x : Except CompileFault α} (h : ∀ a, x = .ok a → Q a) :
    (ofExcept x).Gives Q :=
  h

theorem Gives.mono {Q' : α → Prop} (h : r.Gives Q) (hQ : ∀ a, Q a → Q' a) : r.Gives Q' :=
  fun a ha => hQ a (h a ha)

theorem Gives.bind {f : α → Report β} (h : r.Gives Q) (hf : ∀ a, Q a → (f a).Gives R) :
    (r >>= f).Gives R := by
  intro b hb
  match hr : r.result with
  | .ok a =>
    have hfa : (r >>= f).result = (f a).result := by simp only [Bind.bind, hr]
    exact hf a (h a hr) b (hfa ▸ hb)
  | .error e =>
    have herror : (r >>= f).result = .error e := by simp only [Bind.bind, hr]
    simp [herror] at hb

theorem gives_any (r : Report α) : r.Gives fun _ => True := fun _ _ => trivial

theorem gives_forEach {f : α → Report β} {as : List α} (h : ∀ a ∈ as, (f a).Gives R) :
    (forEach f as).Gives fun bs => ∀ b ∈ bs, R b := by
  induction as with
  | nil => exact gives_pure (List.forall_mem_nil _)
  | cons a as ih =>
    rw [List.forall_mem_cons] at h
    exact h.1.bind fun b hb => (ih h.2).bind fun bs hbs =>
      gives_pure (List.forall_mem_cons.mpr ⟨hb, hbs⟩)

end Report

namespace Form.Elementwise

open Report (gives_pure gives_fail)

variable {H : Form → Prop}

theorem listed? (hH : Elementwise H) {x : Form} {xs : List Form} (hx : H x)
    (h : Expr.listed? x = some xs) : ∀ y ∈ xs, H y := by
  match x with
  | .sequence _ .paren ys => 
    obtain rfl := Option.some.inj h
    exact hH.elements hx
  | .sequence _ .square ys =>
    obtain rfl := Option.some.inj h
    exact hH.elements hx
  | .sequence _ .brace _ | .atom .. | .marked .. => simp [Expr.listed?] at h

theorem clauseParts? (hH : Elementwise H) {x params body : Form} {guard : Option Form} (hx : H x)
    (h : Expr.clauseParts? x = some (params, guard, body)) :
    H params ∧ (∀ g ∈ guard, H g) ∧ H body := by
  unfold Expr.clauseParts? at h
  cases hl : Expr.listed? x with
  | none => simp [hl] at h
  | some xs =>
    have hxs := hH.listed? hx hl
    rw [hl] at h
    split at h
    · rename_i heq
      obtain rfl := Option.some.inj heq
      obtain ⟨-, rfl, rfl, rfl⟩ := by simpa using h
      simpa using hxs
    · rename_i heq
      obtain rfl := Option.some.inj heq
      obtain ⟨-, rfl, rfl, rfl⟩ := by simpa using h
      simpa using hxs
    · rename_i heq
      obtain rfl := Option.some.inj heq
      obtain ⟨-, rfl, rfl, rfl⟩ := by simpa using h
      simp only [List.forall_mem_cons] at hxs
      simpa using ⟨hxs.1, hxs.2.2.1, hxs.2.2.2.1⟩
    · simp at h

theorem clausePair (hH : Elementwise H) {x : Form} (hx : H x) (form : Bytes) :
    (Expr.clausePair form x).Gives fun p => H p.1 ∧ H p.2 := by
  unfold Expr.clausePair
  split
  · rename_i y z hl
    have hxs := hH.listed? hx hl
    exact gives_pure (by simpa using hxs)
  · exact gives_fail _ _

theorem pair? (hH : Elementwise H) {x y z : Form} (hx : H x) (h : Expr.pair? x = some (y, z)) :
    H y ∧ H z := by
  unfold Expr.pair? at h
  split at h
  · obtain ⟨rfl, rfl⟩ := by simpa using h
    simpa using hH.elements hx
  · simp at h

end Form.Elementwise

theorem Form.Hereditary.spliced? {H : Form → Prop} (hH : Hereditary H) {x y : Form} (hx : H x)
    (h : Expr.spliced? x = some y) : H y := by
  unfold Expr.spliced? at h
  split at h
  · obtain rfl := Option.some.inj h
    exact hH.datum hx
  · simp at h

theorem mem_of_mapM_eq_some {α β : Type} {f : α → Option β} {as : List α} {bs : List β}
    (h : as.mapM f = some bs) : ∀ b ∈ bs, ∃ a ∈ as, f a = some b := by
  induction as generalizing bs with
  | nil =>
    obtain rfl : [] = bs := by simpa using h
    exact List.forall_mem_nil _
  | cons a as ih =>
    obtain ⟨c, cs, hc, hcs, rfl⟩ : ∃ c cs, f a = some c ∧ as.mapM f = some cs ∧ c :: cs = bs := by
      simpa [List.mapM_cons, Option.bind_eq_some_iff] using h
    intro b hb
    rcases List.mem_cons.mp hb with rfl | hb
    · exact ⟨a, by simp, hc⟩
    · obtain ⟨d, hd, hdb⟩ := ih hcs b hb
      exact ⟨d, by simp [hd], hdb⟩

namespace Expr

open Form (Elementwise)
open Report (gives_pure gives_fail)

variable {H : Form → Prop}

theorem alternating?_mem {xs : List Form} {pairs : List (Form × Form)}
    (h : alternating? xs = some pairs) : ∀ p ∈ pairs, p.1 ∈ xs ∧ p.2 ∈ xs := by
  fun_induction alternating? xs generalizing pairs with
  | case1 =>
    obtain rfl := Option.some.inj h
    simp
  | case2 => simp at h
  | case3 x y rest ih =>
    obtain ⟨ps, hps, rfl⟩ := Option.map_eq_some_iff.mp h
    intro p hp
    rcases List.mem_cons.mp hp with rfl | hp
    · simp
    · have hrest := ih hps p hp
      simp [hrest]

theorem letPairs_gives (hH : Elementwise H) {x : Form} (hx : H x) :
    (letPairs x).Gives fun pairs => ∀ p ∈ pairs, H p.1 ∧ H p.2 := by
  unfold letPairs
  split
  · exact gives_fail _ _
  · rename_i xs hl
    have hxs := hH.listed? hx hl
    split
    · rename_i pairs hpairs
      refine gives_pure fun p hp => ?_
      rcases Option.or_eq_some_iff.mp hpairs with hpairs | ⟨-, hpairs⟩
      · obtain ⟨y, hy, hpy⟩ := mem_of_mapM_eq_some hpairs p hp
        exact hH.pair? (hxs y hy) hpy
      · obtain ⟨h1, h2⟩ := alternating?_mem hpairs p hp
        exact ⟨hxs _ h1, hxs _ h2⟩
    · exact gives_fail _ _

theorem onlyArgument_gives {args : List Form} (hargs : ∀ x ∈ args, H x) (form : SpecialForm)
    (loc : Location) : (onlyArgument form loc args).Gives H := by
  unfold onlyArgument
  split
  · exact gives_pure (hargs _ (by simp))
  · exact gives_fail _ _

end Expr

namespace Pattern

open Form (Elementwise)

namespace Guarded

variable {α β : Type}

def Collects (H : Form → Prop) (x : Guarded α) : Prop :=
  ∀ a guards, x.result = .ok (a, guards) → ∀ g ∈ guards, H g

variable {H : Form → Prop}

theorem collects_pure (a : α) : Collects H (pure a) := by
  intro b guards h
  obtain ⟨-, rfl⟩ := Prod.mk.inj (Except.ok.inj h)
  exact List.forall_mem_nil _

theorem collects_fail (error : CompileError) (loc : Location) :
    Collects H (fail error loc : Guarded α) := by
  intro a guards h
  simp [fail] at h

theorem collects_guard {x : Form} (hx : H x) : Collects H (guard x) := by
  intro a guards h
  obtain ⟨-, rfl⟩ := Prod.mk.inj (Except.ok.inj h)
  exact List.forall_mem_singleton.mpr hx

theorem Collects.bind {x : Guarded α} {f : α → Guarded β} (hx : Collects H x)
    (hf : ∀ a, Collects H (f a)) : Collects H (x >>= f) := by
  intro b guards h
  match hr : x.result with
  | .error e =>
    have herror : (x >>= f).result = .error e := by simp only [Bind.bind, hr]
    simp [herror] at h
  | .ok (a, first) =>
    match hfa : (f a).result with
    | .error e =>
      have herror : (x >>= f).result = .error e := by simp only [Bind.bind, hr, hfa]
      simp [herror] at h
    | .ok (c, more) =>
      have hok : (x >>= f).result = .ok (c, first ++ more) := by simp only [Bind.bind, hr, hfa]
      obtain ⟨-, rfl⟩ := Prod.mk.inj (Except.ok.inj (hok.symm.trans h))
      exact List.forall_mem_append.mpr ⟨hx a first hr, hf a c more hfa⟩

end Guarded

open Guarded (Collects collects_pure collects_fail collects_guard)

variable {H : Form → Prop}

theorem collects_ofSymbol (loc : Location) (name : Bytes) : Collects H (ofSymbol loc name) := by
  unfold ofSymbol
  split
  · exact collects_pure _
  · split
    · exact collects_fail _ _
    · exact collects_pure _

mutual

theorem collects_ofForm (hH : Elementwise H) {x : Form} (hx : H x) : Collects H (ofForm x) := by
  match x with
  | .atom loc a =>
    cases a with
    | symbol name => exact collects_ofSymbol loc name
    | interpolation name => exact collects_fail _ _
    | _ => exact collects_pure _
  | .marked loc m y =>
    cases m with
    | quote => exact collects_pure _
    | _ => exact collects_fail _ _
  | .sequence loc .square xs =>
    rw [ofForm]
    split
    · exact (collects_ofElements hH (hH.elements hx)).bind fun _ => collects_pure _
    · exact collects_fail _ _
  | .sequence loc .brace xs =>
    exact (collects_ofForms hH (hH.elements hx)).bind fun _ => collects_pure _
  | .sequence loc .paren [] => exact collects_pure _
  | .sequence loc .paren (y :: xs) =>
    have hxs := hH.elements hx
    rw [ofForm.eq_def]
    dsimp only
    split
    · split
      · rename_i first rest
        exact (collects_ofForm hH (hxs first (by simp))).bind fun _ =>
          (collects_ofForm hH (hxs rest (by simp))).bind fun _ => collects_pure _
      · exact collects_fail _ _
    · split
      · split
        · rename_i y guard
          exact (collects_ofForm hH (hxs y (by simp))).bind fun _ =>
            (collects_guard (hxs guard (by simp))).bind fun _ => collects_pure _
        · exact collects_fail _ _
      · exact (collects_ofForm hH (hxs y (by simp))).bind fun _ =>
          (collects_ofForms hH (fun z hz => hxs z (by simp [hz]))).bind fun _ => collects_pure _

theorem collects_ofForms (hH : Elementwise H) {xs : List Form} (hxs : ∀ x ∈ xs, H x) :
    Collects H (ofForms xs) := by
  match xs with
  | [] => exact collects_pure _
  | x :: xs =>
    rw [List.forall_mem_cons] at hxs
    exact (collects_ofForm hH hxs.1).bind fun _ =>
      (collects_ofForms hH hxs.2).bind fun _ => collects_pure _

theorem collects_ofElements (hH : Elementwise H) {xs : List Form} (hxs : ∀ x ∈ xs, H x) :
    Collects H (ofElements xs) := by
  match xs with
  | [] => exact collects_pure _
  | x :: ys =>
    rw [List.forall_mem_cons] at hxs
    rw [ofElements.eq_def]
    dsimp only
    split
    · split
      · exact collects_pure _
      · rename_i y _
        exact (collects_ofForm hH (hxs.2 y (by simp))).bind fun _ => collects_pure _
    · exact (collects_ofForm hH hxs.1).bind fun _ =>
        (collects_ofElements hH hxs.2).bind fun _ => collects_pure _

end

end Pattern

end ClauseLisp
