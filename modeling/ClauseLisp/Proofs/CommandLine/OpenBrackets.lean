import ClauseLisp.CommandLine
import ClauseLisp.Proofs.Form.Lines
import ClauseLisp.Proofs.Form.RoundTrip

/-! When the prompt waits for another line. The brackets that are open at the end of a text are
counted without regard to their kinds. Still the count is right: it is zero for a text that can be
read, and it is positive for one that lacks nothing but its end. -/

namespace ClauseLisp

def Lexeme.opens : Lexeme → Int
  | opening _ => 1
  | closing _ => -1
  | _ => 0

def Form.Frame.isSequence : Form.Frame → Bool
  | sequence .. => true
  | mark .. => false

namespace CommandLine

theorem openBrackets_cons (t : Token) (ts : List Token) :
    openBrackets (t :: ts) = t.lexeme.opens + openBrackets ts := by
  have hfold : ∀ step : Int → Token → Int, (∀ n t, step n t = n + t.lexeme.opens) →
      ∀ n, ts.foldl step n = n + ts.foldl step 0 := by
    intro step hstep
    induction ts with
    | nil => exact fun n => (Int.add_zero n).symm
    | cons u us ih =>
      intro n
      rw [List.foldl_cons, List.foldl_cons, ih (step n u), ih (step 0 u), hstep, hstep, Int.zero_add,
        Int.add_assoc]
  unfold openBrackets
  rw [List.foldl_cons, hfold]
  · obtain ⟨l, loc⟩ := t
    cases l <;> simp [Lexeme.opens]
  · intro n t
    obtain ⟨l, loc⟩ := t
    cases l <;> simp [Lexeme.opens, Int.sub_eq_add_neg]

theorem openBrackets_append (ts us : List Token) :
    openBrackets (ts ++ us) = openBrackets ts + openBrackets us := by
  induction ts with
  | nil => exact (Int.zero_add _).symm
  | cons t ts ih => rw [List.cons_append, openBrackets_cons, openBrackets_cons, ih, Int.add_assoc]

section Spelled

open Form (Spelled SpelledAll Opened Frame)

mutual

theorem openBrackets_spelled {x : Form} {ts : List Token} (h : Spelled x ts) :
    openBrackets ts = 0 :=
  match h with
  | .atom loc a => rfl
  | .sequence loc b close h => by
    rw [openBrackets_cons, openBrackets_append, openBrackets_spelledAll h]
    rfl
  | .marked loc m h => by
    rw [openBrackets_cons, openBrackets_spelled h]
    rfl

theorem openBrackets_spelledAll {xs : List Form} {ts : List Token} (h : SpelledAll xs ts) :
    openBrackets ts = 0 :=
  match h with
  | .nil => rfl
  | .cons h hs => by
    rw [openBrackets_append, openBrackets_spelled h, openBrackets_spelledAll hs]
    rfl

end

theorem openBrackets_opened {stack : List Frame} {ts : List Token} (h : Opened stack ts) :
    openBrackets ts = stack.countP Frame.isSequence := by
  induction h with
  | nil => rfl
  | @sequence outer xs ts us loc b _ hus _ ih =>
    have hcount : (Frame.sequence loc b xs :: outer).countP Frame.isSequence =
        outer.countP Frame.isSequence + 1 := List.countP_cons_of_pos rfl
    rw [openBrackets_append, openBrackets_cons, openBrackets_spelledAll hus, ih, hcount]
    rfl
  | @mark outer ts loc m _ ih =>
    have hcount : (Frame.mark loc m :: outer).countP Frame.isSequence =
        outer.countP Frame.isSequence := List.countP_cons_of_neg Bool.false_ne_true
    rw [openBrackets_append, ih, hcount]
    rfl

theorem openBrackets_pos_of_run? {ts : List Token} {p : Form.Progress}
    (h : Form.run? ([], []) ts = some p) (hopen : p.1 ≠ [])
    (hlast : ∀ t ∈ ts.getLast?, t.lexeme.isMark = false) : 0 < openBrackets ts := by
  obtain ⟨us, vs, hts, hdone, -, hframes, -⟩ := Form.holds_run Form.holds_nil h
  rw [List.nil_append] at hts
  have hcount : openBrackets ts = p.1.countP Frame.isSequence := by
    rw [hts, openBrackets_append, openBrackets_spelledAll hdone, openBrackets_opened hframes,
      Int.zero_add]
  rw [hcount, Int.natCast_pos]
  -- A mark on top of the stack would be the last token.
  match hp : p.1, hframes with
  | [], _ => exact absurd hp hopen
  | .sequence loc b xs :: outer, _ => simp [Frame.isSequence]
  | .mark loc m :: outer, hframes =>
    cases hframes with
    | mark loc m houter =>
      have hmark := hlast ⟨.mark m, loc⟩ (by simp [hts])
      exact absurd hmark (by simp [Lexeme.isMark])

theorem readTokens_append_ne_ok {ts : List Token} (hcount : openBrackets ts ≤ 0)
    (hlast : ∀ t ∈ ts.getLast?, t.lexeme.isMark = false)
    (hfail : ∀ fs, Form.readTokens ts ≠ .ok fs) (us : List Token) (fs : List Form) :
    Form.readTokens (ts ++ us) ≠ .ok fs := by
  have hnone : Form.run? ([], []) ts = none := by
    -- A run that gets through has read complete forms, or a bracket is open.
    by_contra hsome
    obtain ⟨p, hp⟩ := Option.ne_none_iff_exists'.mp hsome
    by_cases hopen : p.1 = []
    · apply hfail p.2.reverse
      rw [Form.readTokens, Form.readFrom_eq_ok_iff, hp, List.reverse_reverse, ← hopen]
    · have hpos := openBrackets_pos_of_run? hp hopen hlast
      exact absurd hpos (Int.not_lt.mpr hcount)
  intro hread
  rw [Form.readTokens, Form.readFrom_eq_ok_iff, Form.run?_append, hnone] at hread
  simp at hread

end Spelled

theorem openBrackets_of_readAll {s file : Bytes} {ts : List Token} {fs : List Form}
    (h : Token.tokenize s file = .ok ts) (hread : Form.readAll s file = .ok fs) :
    openBrackets ts = 0 := by
  obtain ⟨us, hus, hfs⟩ := Form.readAll_eq_ok_iff.mp hread
  obtain rfl : ts = us := Except.ok.inj (h.symm.trans hus)
  exact openBrackets_spelledAll (Form.readTokens_eq_ok_iff_spelled.mp hfs).1

theorem readAll_append_fails {s file : Bytes} {ts : List Token} (hs : s.getLast? = some newline)
    (h : Token.tokenize s file = .ok ts) (hcount : openBrackets ts ≤ 0)
    (hlast : ∀ t ∈ ts.getLast?, t.lexeme.isMark = false)
    (hfail : ∃ f, Form.readAll s file = .error f) (t : Bytes) :
    ∃ f, Form.readAll (s ++ t) file = .error f := by
  have hfail' : ∀ fs, Form.readTokens ts ≠ .ok fs := by
    intro fs hfs
    obtain ⟨f, hf⟩ := hfail
    have hread := Form.readAll_eq_ok_iff.mpr ⟨ts, h, hfs⟩
    rw [hf] at hread
    cases hread
  cases hread : Form.readAll (s ++ t) file with
  | error g => exact ⟨g, rfl⟩
  | ok fs =>
    obtain ⟨us, hus, hfs⟩ := Form.readAll_eq_ok_iff.mp hread
    -- The tokens of the lines are the first tokens of the whole text.
    have hjoin := Token.tokenizeFrom_append (b := t) h (Or.inr (Or.inl hs))
    have htokens : ∃ vs, us = ts ++ vs := by
      rw [Token.tokenize, hjoin] at hus
      cases hrest : Token.tokenizeFrom ((Location.start file).advance s) t with
      | error g => simp [hrest, Except.map] at hus
      | ok vs =>
        rw [hrest] at hus
        exact ⟨vs, (Except.ok.inj hus).symm⟩
    obtain ⟨vs, rfl⟩ := htokens
    exact absurd hfs (readTokens_append_ne_ok hcount hlast hfail' vs fs)

/-- What the prompt decides by for lines that have tokens. Lines that can be read leave no bracket
open. And if no bracket is open and the last token is no mark, but the lines cannot be read, then
they cannot be read with any text after them. -/
theorem openBrackets_decides {s file : Bytes} {ts : List Token} (hs : s.getLast? = some newline)
    (h : Token.tokenize s file = .ok ts) :
    (∀ fs, Form.readAll s file = .ok fs → openBrackets ts = 0) ∧
    (openBrackets ts ≤ 0 → (∀ t ∈ ts.getLast?, t.lexeme.isMark = false) →
      (∃ f, Form.readAll s file = .error f) → ∀ t, ∃ f, Form.readAll (s ++ t) file = .error f) := by
  constructor
  · intro fs hread
    exact openBrackets_of_readAll h hread
  · intro hcount hlast hfail t
    exact readAll_append_fails hs h hcount hlast hfail t

theorem openBrackets_decides_reversed :
    let lines := utf8 "[f\n'x]\n"
    let reversed := utf8 ") (\n"
    (∃ ts fs, Token.tokenize lines stdinName = .ok ts ∧ Form.readAll lines stdinName = .ok fs ∧
      openBrackets ts = 0) ∧
    (∃ ts f, Token.tokenize reversed stdinName = .ok ts ∧ openBrackets ts = 0 ∧
      Form.readAll reversed stdinName = .error f) ∧
    ∀ t, ∃ f, Form.readAll (reversed ++ t) stdinName = .error f := by
  intro lines reversed
  have hlines : Token.tokenize lines stdinName = .ok [⟨.opening .square, ⟨stdinName, 1, 1⟩⟩,
      ⟨.atom (.symbol (utf8 "f")), ⟨stdinName, 1, 2⟩⟩, ⟨.mark .quote, ⟨stdinName, 2, 1⟩⟩,
      ⟨.atom (.symbol (utf8 "x")), ⟨stdinName, 2, 2⟩⟩,
      ⟨.closing .square, ⟨stdinName, 2, 3⟩⟩] := by decide +kernel
  have hreversed : Token.tokenize reversed stdinName = .ok
      [⟨.closing .paren, ⟨stdinName, 1, 1⟩⟩, ⟨.opening .paren, ⟨stdinName, 1, 3⟩⟩] := by
    decide +kernel
  have hread := Form.readAll_eq_ok_iff.mpr ⟨_, hlines, rfl⟩
  have hfail : ∃ f, Form.readAll reversed stdinName = .error f := by
    unfold Form.readAll
    rw [hreversed]
    exact ⟨_, rfl⟩
  have hclosed := (openBrackets_decides (by decide) hlines).1 _ hread
  have hnever := (openBrackets_decides (by decide) hreversed).2 (by decide) (by decide) hfail
  obtain ⟨f, hf⟩ := hfail
  exact ⟨⟨_, _, hlines, hread, hclosed⟩, ⟨_, f, hreversed, by decide, hf⟩, hnever⟩

end CommandLine
end ClauseLisp
