import ClauseLisp.Proofs.Form.Spelling

/-! The reader accepts exactly the grammar of forms. One token changes the open frames and the
complete forms in a way that `Form.step?` states; what has been read up to then always spells the
complete forms and the frames. -/

namespace ClauseLisp.Form

abbrev Progress := List Frame × List Form

def step? (p : Progress) (t : Token) : Option Progress :=
  match t.lexeme with
  | .closing c =>
    match p.1 with
    | .sequence loc b xs :: outer =>
      if b = c then some (complete outer p.2 (.sequence loc b xs.reverse)) else none
    | _ => none
  | .opening b => if maxNesting ≤ p.1.length then none else some (.sequence t.loc b [] :: p.1, p.2)
  | .mark m => if maxNesting ≤ p.1.length then none else some (.mark t.loc m :: p.1, p.2)
  | .atom a => if maxNesting ≤ p.1.length then none else some (complete p.1 p.2 (.atom t.loc a))

def run? (p : Progress) (ts : List Token) : Option Progress := ts.foldlM step? p

theorem run?_cons (p : Progress) (t : Token) (ts : List Token) :
    run? p (t :: ts) = (step? p t).bind (run? · ts) := List.foldlM_cons

theorem run?_append (p : Progress) (ts us : List Token) :
    run? p (ts ++ us) = (run? p ts).bind (run? · us) := List.foldlM_append

theorem closes?_eq_none {l : Lexeme} (h : ∀ c, l ≠ .closing c) (stack : List Frame) :
    readFrom.closes? stack l = none := by
  unfold readFrom.closes?
  split
  · exact absurd rfl (h _)
  · rfl

theorem readFrom_cons (stack : List Frame) (done : List Form) (t : Token) (ts : List Token) :
    (readFrom stack done (t :: ts)).toOption =
      (step? (stack, done) t).bind fun p => (readFrom p.1 p.2 ts).toOption := by
  obtain ⟨l, loc⟩ := t
  cases l with
  | closing c =>
    match stack with
    | [] => rfl
    | .sequence loc' b xs :: outer =>
      by_cases hb : b = c
      · simp [readFrom, readFrom.closes?, step?, hb]
      · by_cases hn : maxNesting ≤ outer.length + 1 <;>
          simp [readFrom, readFrom.closes?, step?, hb, hn, Except.toOption]
    | .mark loc' m :: outer =>
      by_cases hn : maxNesting ≤ outer.length + 1 <;>
        simp [readFrom, readFrom.closes?, step?, hn, Except.toOption]
  | opening b =>
    have hc := closes?_eq_none (l := .opening b) (by simp) stack
    by_cases hn : maxNesting ≤ stack.length <;> simp [readFrom, step?, hc, hn, Except.toOption]
  | mark m =>
    have hc := closes?_eq_none (l := .mark m) (by simp) stack
    by_cases hn : maxNesting ≤ stack.length <;> simp [readFrom, step?, hc, hn, Except.toOption]
  | atom a =>
    have hc := closes?_eq_none (l := .atom a) (by simp) stack
    by_cases hn : maxNesting ≤ stack.length <;> simp [readFrom, step?, hc, hn, Except.toOption]

theorem readFrom_eq_ok_iff {stack : List Frame} {done : List Form} {ts : List Token}
    {fs : List Form} :
    readFrom stack done ts = .ok fs ↔ run? (stack, done) ts = some ([], fs.reverse) := by
  have hopt : ∀ x : Except ParseFault (List Form), x = .ok fs ↔ x.toOption = some fs := by
    intro x
    cases x <;> simp [Except.toOption]
  induction ts generalizing stack done with
  | nil =>
    match stack with
    | [] => simp [readFrom, run?, List.reverse_eq_iff]
    | .sequence loc b xs :: outer => simp [readFrom, run?]
    | .mark loc m :: outer => simp [readFrom, run?]
  | cons t ts ih =>
    rw [hopt, readFrom_cons, run?_cons]
    cases step? (stack, done) t with
    | none => simp
    | some p => exact (hopt _).symm.trans ih

section Completeness

theorem step?_opening {p : Progress} (h : p.1.length < maxNesting) (loc : Location) (b : Bracket) :
    step? p ⟨.opening b, loc⟩ = some (.sequence loc b [] :: p.1, p.2) := by
  simp [step?, Nat.not_le.mpr h]

theorem step?_mark {p : Progress} (h : p.1.length < maxNesting) (loc : Location) (m : Mark) :
    step? p ⟨.mark m, loc⟩ = some (.mark loc m :: p.1, p.2) := by
  simp [step?, Nat.not_le.mpr h]

theorem step?_atom {p : Progress} (h : p.1.length < maxNesting) (loc : Location) (a : Atom) :
    step? p ⟨.atom a, loc⟩ = some (complete p.1 p.2 (.atom loc a)) := by
  simp [step?, Nat.not_le.mpr h]

theorem step?_closing (loc close : Location) (b : Bracket) (xs : List Form) (outer : List Frame)
    (done : List Form) :
    step? (.sequence loc b xs :: outer, done) ⟨.closing b, close⟩ =
      some (complete outer done (.sequence loc b xs.reverse)) := by
  simp [step?]

mutual

theorem Spelled.run? {x : Form} {ts : List Token} (h : Spelled x ts) (stack : List Frame)
    (done : List Form) (hx : stack.length + x.height ≤ maxNesting) :
    Form.run? (stack, done) ts = some (complete stack done x) := by
  match h with
  | .atom loc a =>
    have hn : stack.length < maxNesting := by
      simp only [height] at hx
      omega
    rw [run?_cons, step?_atom hn]
    rfl
  | @Spelled.sequence xs _ loc b close h =>
    have hn : stack.length + 1 + heightAll xs ≤ maxNesting := by
      simp only [height] at hx
      omega
    rw [run?_cons, step?_opening (by simp only; omega), Option.bind_some, run?_append,
      h.run? loc b [] stack done hn, Option.bind_some, run?_cons, step?_closing]
    simp [Form.run?]
  | .marked loc m h =>
    have hn : stack.length < maxNesting := by
      simp only [height] at hx
      omega
    rw [run?_cons, step?_mark hn, Option.bind_some, h.run? (.mark loc m :: stack) done ?_]
    · rfl
    · simp only [height] at hx
      simp only [List.length_cons]
      omega

theorem SpelledAll.run? {xs : List Form} {ts : List Token} (h : SpelledAll xs ts) (loc : Location)
    (b : Bracket) (ys : List Form) (stack : List Frame) (done : List Form)
    (hx : stack.length + 1 + heightAll xs ≤ maxNesting) :
    Form.run? (.sequence loc b ys :: stack, done) ts =
      some (.sequence loc b (xs.reverse ++ ys) :: stack, done) := by
  match h with
  | .nil => rfl
  | @SpelledAll.cons x xs _ _ h hs =>
    simp only [heightAll] at hx
    rw [run?_append,
      h.run? (.sequence loc b ys :: stack) done (by simp only [List.length_cons]; omega),
      Option.bind_some, complete, hs.run? loc b (x :: ys) stack done (by omega)]
    simp

end

theorem run?_spelledAll {fs : List Form} {ts : List Token} (h : SpelledAll fs ts)
    (hx : ∀ x ∈ fs, x.height ≤ maxNesting) (done : List Form) :
    run? ([], done) ts = some ([], fs.reverse ++ done) := by
  induction fs generalizing ts done with
  | nil =>
    cases h
    rfl
  | cons x fs ih =>
    obtain _ | ⟨h, hs⟩ := h
    rw [run?_append, h.run? [] done (by simpa using hx x (by simp)), Option.bind_some, complete,
      ih hs (fun y hy => hx y (by simp [hy]))]
    simp

end Completeness

section Soundness

inductive Opened : List Frame → List Token → Prop
  | nil : Opened [] []
  | sequence {outer : List Frame} {xs : List Form} {ts us : List Token} (loc : Location)
      (b : Bracket) : Opened outer ts → SpelledAll xs.reverse us →
      (∀ x ∈ xs, outer.length + 1 + x.height ≤ maxNesting) →
      Opened (.sequence loc b xs :: outer) (ts ++ ⟨.opening b, loc⟩ :: us)
  | mark {outer : List Frame} {ts : List Token} (loc : Location) (m : Mark) :
      Opened outer ts → Opened (.mark loc m :: outer) (ts ++ [⟨.mark m, loc⟩])

/-- What is known after the tokens `ts`: they spell the complete forms and then the open frames, and
nothing is higher than it may be. -/
def Holds (ts : List Token) (p : Progress) : Prop :=
  ∃ us vs, ts = us ++ vs ∧ SpelledAll p.2.reverse us ∧ (∀ x ∈ p.2, x.height ≤ maxNesting) ∧
    Opened p.1 vs ∧ p.1.length ≤ maxNesting

theorem holds_complete {stack : List Frame} {done : List Form} {us vs ws : List Token} {x : Form}
    (hdone : SpelledAll done.reverse us) (hheight : ∀ y ∈ done, y.height ≤ maxNesting)
    (hopen : Opened stack vs) (hx : Spelled x ws) (hn : stack.length + x.height ≤ maxNesting) :
    Holds (us ++ vs ++ ws) (complete stack done x) := by
  induction stack generalizing vs ws x with
  | nil =>
    cases hopen
    refine ⟨us ++ ws, [], by simp, hdone.concat hx, ?_, .nil, Nat.zero_le _⟩
    intro y hy
    rcases List.mem_cons.mp hy with rfl | hy
    · simpa using hn
    · exact hheight y hy
  | cons frame outer ih =>
    cases hopen with
    | @sequence _ xs ts ts' loc b houter hxs hlow =>
      refine ⟨us, ts ++ ⟨.opening b, loc⟩ :: (ts' ++ ws), by simp, hdone, hheight,
        .sequence loc b houter (hxs.concat hx) ?_, ?_⟩
      · intro y hy
        rcases List.mem_cons.mp hy with rfl | hy
        · exact hn
        · exact hlow y hy
      · simp only [complete, List.length_cons] at hn ⊢
        omega
    | @mark _ ts loc m houter =>
      have hmarked : outer.length + (Form.marked loc m x).height ≤ maxNesting := by
        simp only [List.length_cons, height] at hn ⊢
        omega
      have h := ih houter (.marked loc m hx) hmarked
      simpa [complete] using h

theorem holds_step {ts : List Token} {p q : Progress} {t : Token} (h : Holds ts p)
    (hstep : step? p t = some q) : Holds (ts ++ [t]) q := by
  obtain ⟨us, vs, rfl, hdone, hheight, hopen, hn⟩ := h
  obtain ⟨stack, done⟩ := p
  obtain ⟨l, loc⟩ := t
  cases l with
  | opening b =>
    obtain ⟨hlt, rfl⟩ : stack.length < maxNesting ∧ (.sequence loc b [] :: stack, done) = q := by
      simpa [step?] using hstep
    have hframe : Opened (.sequence loc b [] :: stack) (vs ++ [⟨.opening b, loc⟩]) :=
      .sequence loc b hopen .nil (by simp)
    exact ⟨us, _, by simp, hdone, hheight, hframe, hlt⟩
  | mark m =>
    obtain ⟨hlt, rfl⟩ : stack.length < maxNesting ∧ (.mark loc m :: stack, done) = q := by
      simpa [step?] using hstep
    exact ⟨us, vs ++ [⟨.mark m, loc⟩], by simp, hdone, hheight, .mark loc m hopen, hlt⟩
  | atom a =>
    obtain ⟨hlt, rfl⟩ : stack.length < maxNesting ∧ complete stack done (.atom loc a) = q := by
      simpa [step?] using hstep
    exact holds_complete hdone hheight hopen (.atom loc a) hlt
  | closing c =>
    match stack with
    | [] => simp [step?] at hstep
    | .mark loc' m :: outer => simp [step?] at hstep
    | .sequence loc' b xs :: outer =>
      obtain ⟨rfl, rfl⟩ : b = c ∧ complete outer done (.sequence loc' b xs.reverse) = q := by
        simpa [step?] using hstep
      obtain _ | ⟨_, _, houter, hxs, hlow⟩ := hopen
      have hx : outer.length + (Form.sequence loc' b xs.reverse).height ≤ maxNesting := by
        have hall : heightAll xs.reverse ≤ maxNesting - (outer.length + 1) := by
          rw [heightAll_le_iff]
          intro x hx
          have := hlow x (List.mem_reverse.mp hx)
          omega
        simp only [List.length_cons] at hn
        simp only [height]
        omega
      have h := holds_complete hdone hheight houter (.sequence loc' b loc hxs) hx
      simpa using h

theorem holds_nil : Holds [] ([], []) := ⟨[], [], rfl, .nil, by simp, .nil, Nat.zero_le _⟩

theorem holds_run {ts us : List Token} {p q : Progress} (h : Holds ts p)
    (hrun : run? p us = some q) : Holds (ts ++ us) q := by
  induction us generalizing ts p with
  | nil =>
    obtain rfl : p = q := by simpa [run?] using hrun
    simpa using h
  | cons t us ih =>
    rw [run?_cons] at hrun
    obtain ⟨p', hstep, hrun⟩ := Option.bind_eq_some_iff.mp hrun
    simpa using ih (holds_step h hstep) hrun

end Soundness

theorem readTokens_eq_ok_iff_spelled {ts : List Token} {fs : List Form} :
    readTokens ts = .ok fs ↔ SpelledAll fs ts ∧ ∀ x ∈ fs, x.height ≤ maxNesting := by
  rw [readTokens, readFrom_eq_ok_iff]
  constructor
  · intro h
    obtain ⟨us, vs, hts, hspell, hheight, hopen, -⟩ := holds_run holds_nil h
    obtain rfl : [] = vs := by
      cases hopen
      rfl
    rw [List.nil_append, List.append_nil] at hts
    subst hts
    exact ⟨by simpa using hspell, by simpa using hheight⟩
  · rintro ⟨hspell, hheight⟩
    simpa using run?_spelledAll hspell hheight []

theorem mapError_eq_ok_iff {α ε ε' : Type} {x : Except ε α} {f : ε → ε'} {a : α} :
    x.mapError f = .ok a ↔ x = .ok a := by
  cases x with
  | error e =>
    have hfault : (Except.error e : Except ε α).mapError f = .error (f e) := rfl
    simp [hfault]
  | ok b =>
    have hok : (Except.ok b : Except ε α).mapError f = .ok b := rfl
    simp [hok]

theorem readAll_eq_ok_iff {source file : Bytes} {forms : List Form} :
    readAll source file = .ok forms ↔
      ∃ ts, Token.tokenize source file = .ok ts ∧ readTokens ts = .ok forms := by
  cases htokens : Token.tokenize source file with
  | error e =>
    have hread : readAll source file = .error (.lex e) := by
      unfold readAll
      rw [htokens]
      rfl
    simp [hread]
  | ok ts =>
    have hread : readAll source file = (readTokens ts).mapError .parse := by
      unfold readAll
      rw [htokens]
      rfl
    rw [hread, mapError_eq_ok_iff]
    simp

/-- Tokens are read as some forms exactly if their lexemes are those of the forms, no form is too
high, and each node has the location of its first token. All other tokens are refused. -/
theorem readTokens_iff_grammar (ts : List Token) :
    (∀ fs, readTokens ts = .ok fs ↔ ts.map Token.lexeme = flattenAll fs ∧
      (∀ x ∈ fs, x.height ≤ maxNesting) ∧ LocatedAllAt fs ts) ∧
    ((∃ f : ParseFault, readTokens ts = .error f) ↔
      ¬ ∃ fs, ts.map Token.lexeme = flattenAll fs ∧ ∀ x ∈ fs, x.height ≤ maxNesting) := by
  have hiff : ∀ fs, readTokens ts = .ok fs ↔ ts.map Token.lexeme = flattenAll fs ∧
      (∀ x ∈ fs, x.height ≤ maxNesting) ∧ LocatedAllAt fs ts := by
    intro fs
    rw [readTokens_eq_ok_iff_spelled, spelledAll_iff, and_assoc, and_comm (a := LocatedAllAt fs ts)]
  refine ⟨hiff, ?_, ?_⟩
  · rintro ⟨f, hf⟩ ⟨fs, hlex, hheight⟩
    obtain ⟨gs, hspell, herase⟩ := exists_spelledAll hlex
    have hgs : ∀ x ∈ gs, x.height ≤ maxNesting := by
      rw [← heightAll_le_iff, ← heightAll_eraseAll, herase, heightAll_eraseAll, heightAll_le_iff]
      exact hheight
    rw [readTokens_eq_ok_iff_spelled.mpr ⟨hspell, hgs⟩] at hf
    cases hf
  · intro h
    match hread : readTokens ts with
    | .error f => exact ⟨f, rfl⟩
    | .ok fs =>
      obtain ⟨hlex, hheight, -⟩ := (hiff fs).mp hread
      exact absurd ⟨fs, hlex, hheight⟩ h

end ClauseLisp.Form
