import ClauseLisp.Proofs.Builtin.Computed

/-! Contracts of computations. A contract says what is kept while a program runs: which worlds are
good, how a world may change, which procedures values may hold and which faults may be raised. Two
computations agree in a world if they do the same there and keep the contract. -/

namespace ClauseLisp

namespace Run

variable {α β : Type} {x : Run α} {f : α → Run β} {handle : Fault → Run α} {w w' : World}

theorem bind_of_value {a : α} (h : x w = (.value a, w')) : (x >>= f) w = f a w' := by
  show Run.bind x f w = _
  simp only [Run.bind, h]

theorem bind_of_fault {e : Fault} (h : x w = (.fault e, w')) : (x >>= f) w = raise e w' := by
  show Run.bind x f w = _
  simp only [Run.bind, h, raise]

theorem bind_of_exhausted (h : x w = (.exhausted, w')) : (x >>= f) w = exhaust w' := by
  show Run.bind x f w = _
  simp only [Run.bind, h, exhaust]

theorem exists_of_bind_value {b : β} (h : (x >>= f) w = (.value b, w')) :
    ∃ a u, x w = (.value a, u) ∧ f a u = (.value b, w') := by
  rcases hx : x w with ⟨o, u⟩
  cases o with
  | value a =>
    rw [bind_of_value hx] at h
    exact ⟨a, u, rfl, h⟩
  | fault e =>
    rw [bind_of_fault hx] at h
    exact nomatch (Prod.mk.inj h).1
  | exhausted =>
    rw [bind_of_exhausted hx] at h
    exact nomatch (Prod.mk.inj h).1

theorem catching_of_value {a : α} (h : x w = (.value a, w')) : catching x handle w = x w := by
  simp only [catching, h]

theorem catching_of_fault {e : Fault} (h : x w = (.fault e, w')) :
    catching x handle w = handle e w' := by
  simp only [catching, h]

theorem catching_of_exhausted (h : x w = (.exhausted, w')) : catching x handle w = x w := by
  simp only [catching, h]

end Run

def Procedure.isCombined : Procedure → Bool
  | composition .. => true
  | partialApplication .. => true
  | constant .. => true
  | _ => false

structure Contract where
  Good : World → Prop
  /-- The worlds that a world can change to. -/
  Later : World → World → Prop
  Sound : World → Procedure → Prop
  Allowed : Fault → Prop
  later_refl : ∀ w, Later w w
  later_trans : ∀ {u v w}, Later u v → Later v w → Later u w
  sound_later : ∀ {w w' p}, Later w w' → Sound w p → Sound w' p
  sound_combined : ∀ {w p}, p.isCombined = true → Sound w p
  allowed : ∀ {f : Fault}, f.isInternal = false → Allowed f
  good_made : ∀ {w} n, Good w → Good { w with made := n }
  later_made : ∀ w n, Later w { w with made := n }
  good_print : ∀ {w} s, Good w → Good (w.print s)
  later_print : ∀ w s, Later w (w.print s)

namespace Contract

variable (K : Contract)

def Next (w w' : World) : Prop := K.Good w' ∧ K.Later w w'

def Holds (w : World) (v : Value) : Prop := v.All (K.Sound w)

def Ends {α : Type} (Q : World → α → Prop) (w : World) : Outcome α → Prop
  | .value a => Q w a
  | .fault f => K.Allowed f
  | .exhausted => True

/-- In the world `w` both computations do the same, and what they do keeps the contract. A result
has the property `Q` in the world that is left. -/
structure Agree {α : Type} (w : World) (x y : Run α) (Q : World → α → Prop) : Prop where
  eq : x w = y w
  next : K.Next w (x w).2
  ends : K.Ends Q (x w).2 (x w).1

section

variable {K} {α β : Type} {w w' w'' : World} {x y : Run α} {Q : World → α → Prop}
  {R : World → β → Prop}

theorem next_refl (hw : K.Good w) : K.Next w w := ⟨hw, K.later_refl w⟩

theorem Next.trans (h : K.Next w w') (h' : K.Next w' w'') : K.Next w w'' :=
  ⟨h'.1, K.later_trans h.2 h'.2⟩

theorem Holds.later {v : Value} (h : K.Holds w v) (hl : K.Later w w') : K.Holds w' v :=
  Value.All.mono (fun _ => K.sound_later hl) h

theorem Agree.cases (h : K.Agree w x y Q) :
    ∃ o w', x w = (o, w') ∧ y w = (o, w') ∧ K.Next w w' ∧ K.Ends Q w' o :=
  ⟨(x w).1, (x w).2, rfl, h.eq.symm, h.next, h.ends⟩

theorem Agree.after {x' y' : Run α} (h : K.Agree w' x' y' Q) (hnext : K.Next w w')
    (hx : x w = x' w') (hy : y w = y' w') : K.Agree w x y Q := by
  refine ⟨?_, ?_, ?_⟩
  · rw [hx, hy]
    exact h.eq
  · rw [hx]
    exact hnext.trans h.next
  · rw [hx]
    exact h.ends

theorem agree_pure (hw : K.Good w) {a : α} (h : Q w a) : K.Agree w (pure a) (pure a) Q :=
  ⟨rfl, next_refl hw, h⟩

theorem agree_raise (hw : K.Good w) {f : Fault} (h : K.Allowed f) :
    K.Agree w (Run.raise f) (Run.raise f) Q :=
  ⟨rfl, next_refl hw, h⟩

theorem agree_exhaust (hw : K.Good w) : K.Agree w Run.exhaust Run.exhaust Q :=
  ⟨rfl, next_refl hw, trivial⟩

theorem Agree.weaken {Q' : World → α → Prop} (h : K.Agree w x y Q)
    (hQ : ∀ a w', K.Next w w' → Q w' a → Q' w' a) : K.Agree w x y Q' := by
  obtain ⟨o, w', hx, hy, hnext, hends⟩ := h.cases
  cases o with
  | value a => exact (agree_pure hnext.1 (hQ a w' hnext hends)).after hnext hx hy
  | fault e => exact (agree_raise hnext.1 hends).after hnext hx hy
  | exhausted => exact (agree_exhaust hnext.1).after hnext hx hy

theorem Agree.bind {f g : α → Run β} (h : K.Agree w x y Q)
    (hf : ∀ a w', K.Next w w' → Q w' a → K.Agree w' (f a) (g a) R) :
    K.Agree w (x >>= f) (y >>= g) R := by
  obtain ⟨o, w', hx, hy, hnext, hends⟩ := h.cases
  cases o with
  | value a => exact (hf a w' hnext hends).after hnext (Run.bind_of_value hx) (Run.bind_of_value hy)
  | fault e =>
    exact (agree_raise hnext.1 hends).after hnext (Run.bind_of_fault hx) (Run.bind_of_fault hy)
  | exhausted =>
    exact (agree_exhaust hnext.1).after hnext (Run.bind_of_exhausted hx) (Run.bind_of_exhausted hy)

theorem Agree.catching {handle handle' : Fault → Run α} (hw : K.Good w) (h : K.Agree w x y Q)
    (hf : ∀ f w', K.Next w w' → K.Allowed f → K.Agree w' (handle f) (handle' f) Q) :
    K.Agree w (Run.catching x handle) (Run.catching y handle') Q := by
  obtain ⟨o, w', hx, hy, hnext, hends⟩ := h.cases
  cases o with
  | value a =>
    exact h.after (next_refl hw) (Run.catching_of_value hx) (Run.catching_of_value hy)
  | fault e =>
    exact (hf e w' hnext hends).after hnext (Run.catching_of_fault hx) (Run.catching_of_fault hy)
  | exhausted =>
    exact h.after (next_refl hw) (Run.catching_of_exhausted hx) (Run.catching_of_exhausted hy)

theorem agree_ite {c : Prop} [Decidable c] {x' y' : Run α} (hx : c → K.Agree w x x' Q)
    (hy : ¬c → K.Agree w y y' Q) :
    K.Agree w (if c then x else y) (if c then x' else y') Q := by
  split
  · exact hx ‹c›
  · exact hy ‹¬c›

theorem agree_ofExcept {P : α → Prop} {e : Except Fault α} (hw : K.Good w) (h : Computes P e)
    (hP : ∀ a, P a → Q w a) : K.Agree w (Run.ofExcept e) (Run.ofExcept e) Q := by
  refine ⟨rfl, ?_, ?_⟩
  · cases e <;> exact next_refl hw
  · cases e with
    | ok a => exact hP a h
    | error f => exact K.allowed h

theorem agree_look_bind {g : World → α} {f f' : α → Run β}
    (h : K.Agree w (f (g w)) (f' (g w)) R) : K.Agree w (Run.look g >>= f) (Run.look g >>= f') R :=
  ⟨h.eq, h.next, h.ends⟩

theorem agree_change {f : World → World} (h : K.Next w (f w)) {Q : World → Unit → Prop}
    (hQ : Q (f w) ()) : K.Agree w (Run.change f) (Run.change f) Q :=
  ⟨rfl, h, hQ⟩

theorem agree_freshId (hw : K.Good w) : K.Agree w Run.freshId Run.freshId fun _ _ => True :=
  ⟨rfl, ⟨K.good_made _ hw, K.later_made _ _⟩, trivial⟩

theorem agree_forEach {as : List α} {f g : α → Run β} (hw : K.Good w)
    (hR : ∀ {w w' b}, K.Later w w' → R w b → R w' b)
    (h : ∀ a ∈ as, ∀ w', K.Next w w' → K.Agree w' (f a) (g a) R) :
    K.Agree w (Run.forEach f as) (Run.forEach g as)
      fun w' bs => bs.length = as.length ∧ ∀ b ∈ bs, R w' b := by
  induction as generalizing w with
  | nil => exact agree_pure hw (by simp)
  | cons a as ih =>
    refine (h a (by simp) w (next_refl hw)).bind fun b w' hnext hb => ?_
    have hrest := ih hnext.1 fun c hc w'' hnext' => h c (by simp [hc]) w'' (hnext.trans hnext')
    refine hrest.bind fun bs w'' hnext' hbs => agree_pure hnext'.1 ?_
    exact ⟨congrArg (· + 1) hbs.1, List.forall_mem_cons.mpr ⟨hR hnext'.2 hb, hbs.2⟩⟩

theorem agree_foldLeft {as : List α} {b : β} {f g : β → α → Run β} (hw : K.Good w) (hb : R w b)
    (h : ∀ a ∈ as, ∀ b w', K.Next w w' → R w' b → K.Agree w' (f b a) (g b a) R) :
    K.Agree w (Run.foldLeft f b as) (Run.foldLeft g b as) R := by
  induction as generalizing w b with
  | nil => exact agree_pure hw hb
  | cons a as ih =>
    refine (h a (by simp) b w (next_refl hw) hb).bind fun c w' hnext hc => ?_
    exact ih hnext.1 hc fun d hd c w'' hnext' => h d (by simp [hd]) c w'' (hnext.trans hnext')

theorem agree_findFirst {as : List α} {f g : α → Run Bool} (hw : K.Good w)
    (h : ∀ a ∈ as, ∀ w', K.Next w w' → K.Agree w' (f a) (g a) fun _ _ => True) :
    K.Agree w (Run.findFirst f as) (Run.findFirst g as) fun _ r => ∀ a ∈ r, a ∈ as := by
  induction as generalizing w with
  | nil => exact agree_pure hw (by simp)
  | cons a as ih =>
    refine (h a (by simp) w (next_refl hw)).bind fun b w' hnext _ => ?_
    split
    · exact agree_pure hnext.1 (by simp)
    · have hrest := ih hnext.1 fun c hc w'' hnext' => h c (by simp [hc]) w'' (hnext.trans hnext')
      exact hrest.weaken fun r _ _ hr c hc => List.mem_cons_of_mem a (hr c hc)

theorem agree_splitBy {as : List α} {f g : α → Run Bool} (hw : K.Good w)
    (h : ∀ a ∈ as, ∀ w', K.Next w w' → K.Agree w' (f a) (g a) fun _ _ => True) :
    K.Agree w (Run.splitBy f as) (Run.splitBy g as) fun _ r => ∀ a, a ∈ r.1 ∨ a ∈ r.2 → a ∈ as := by
  induction as generalizing w with
  | nil => exact agree_pure hw (by simp)
  | cons a as ih =>
    refine (h a (by simp) w (next_refl hw)).bind fun b w' hnext _ => ?_
    have hrest := ih hnext.1 fun c hc w'' hnext' => h c (by simp [hc]) w'' (hnext.trans hnext')
    refine hrest.bind fun r w'' hnext' hr => agree_pure hnext'.1 ?_
    intro c hc
    have hmem : c = a ∨ c ∈ r.1 ∨ c ∈ r.2 := by
      split at hc <;> simp only [List.mem_cons] at hc <;> grind
    rcases hmem with rfl | hmem
    · simp
    · exact List.mem_cons_of_mem a (hr c hmem)

end

end Contract
end ClauseLisp
