import ClauseLisp.Proofs.CommandLine.OpenBrackets

/-! The prompt, fed with lines. It waits for another line just if the lines it has leave a bracket
open, and the lines it has waited for are run as one text. -/

namespace ClauseLisp.CommandLine

def Waits (source : Bytes) : Prop :=
  ∃ ts, Token.tokenize source stdinName = .ok ts ∧ 0 < openBrackets ts

theorem not_waits_of_readAll {source : Bytes} {fs : List Form}
    (h : Form.readAll source stdinName = .ok fs) : ¬ Waits source := by
  rintro ⟨ts, hts, hopen⟩
  rw [openBrackets_of_readAll hts h] at hopen
  exact Int.lt_irrefl 0 hopen

def joinLines (lines : List Bytes) : Bytes := lines.flatMap (· ++ utf8 "\n")

theorem joinLines_cons (line : Bytes) (lines : List Bytes) :
    joinLines (line :: lines) = line ++ utf8 "\n" ++ joinLines lines := rfl

theorem joinLines_concat (lines : List Bytes) (line : Bytes) :
    joinLines (lines ++ [line]) = joinLines lines ++ (line ++ utf8 "\n") := by
  simp [joinLines]

namespace Prompt

variable {o : Options} {p : Prompt} {line : Bytes} {lines : List Bytes} {s : Session}

section Steps

def source (p : Prompt) (line : Bytes) : Bytes := p.pending ++ line ++ utf8 "\n"

theorem feed_of_waits (h : Waits (p.source line)) :
    p.feed o line = ([], { p with pending := p.source line }) := by
  obtain ⟨ts, hts, hopen⟩ := h
  rw [source] at hts ⊢
  simp only [feed, hts, hopen, decide_true, if_true]

theorem feed_of_not_waits (h : ¬ Waits (p.source line)) :
    p.feed o line =
      ((runSource o true (p.source line) stdinName p.session).1,
        ⟨(runSource o true (p.source line) stdinName p.session).2.2, []⟩) := by
  rw [source] at h ⊢
  cases hts : Token.tokenize (p.pending ++ line ++ utf8 "\n") stdinName with
  | error f => simp only [feed, hts, Bool.false_eq_true, if_false]
  | ok ts =>
    have hclosed : ¬ 0 < openBrackets ts := fun hopen => h ⟨ts, hts, hopen⟩
    simp only [feed, hts, hclosed, decide_false, Bool.false_eq_true, if_false]

theorem feed_pending_iff : (p.feed o line).2.pending ≠ [] ↔ Waits (p.source line) := by
  constructor
  · intro h
    by_contra hruns
    rw [feed_of_not_waits hruns] at h
    exact h rfl
  · intro h
    rw [feed_of_waits h]
    exact List.append_ne_nil_of_right_ne_nil _ (by decide)

theorem readAll_append_fails_of_feed {ts : List Token} (hruns : (p.feed o line).2.pending = [])
    (hts : Token.tokenize (p.source line) stdinName = .ok ts)
    (hlast : ∀ t ∈ ts.getLast?, t.lexeme.isMark = false)
    (hfail : ∃ f, Form.readAll (p.source line) stdinName = .error f) (t : Bytes) :
    ∃ f, Form.readAll (p.source line ++ t) stdinName = .error f := by
  have hnewline : (p.source line).getLast? = some newline := List.getLast?_concat
  have hclosed : openBrackets ts ≤ 0 := by
    by_contra hopen
    exact feed_pending_iff.mpr ⟨ts, hts, Int.not_le.mp hopen⟩ hruns
  exact readAll_append_fails hnewline hts hclosed hlast hfail t

end Steps

section Runs

def after (o : Options) : List Bytes → Prompt → Prompt
  | [], p => p
  | line :: lines, p => after o lines (p.feed o line).2

def shown (o : Options) : List Bytes → Prompt → Bytes
  | [], _ => []
  | line :: lines, p => p.text ++ (p.feed o line).1 ++ shown o lines (p.feed o line).2

theorem runLines_eq (p : Prompt) (lines : List Bytes) :
    p.runLines o lines = shown o lines p ++ (after o lines p).text := by
  induction lines generalizing p with
  | nil => rfl
  | cons line lines ih =>
    show p.text ++ (p.feed o line).1 ++ runLines o (p.feed o line).2 lines = _
    rw [ih, shown, after]
    simp only [List.append_assoc]

theorem after_pending (h : p.pending = [] ∨ Waits p.pending) (lines : List Bytes) :
    (after o lines p).pending = [] ∨ Waits (after o lines p).pending := by
  induction lines generalizing p with
  | nil => exact h
  | cons line lines ih =>
    apply ih
    by_cases hwaits : Waits (p.source line)
    · right
      rw [feed_of_waits hwaits]
      exact hwaits
    · left
      rw [feed_of_not_waits hwaits]

theorem after_of_waits (h : ∀ part line rest, lines = part ++ line :: rest →
    Waits (p.pending ++ joinLines (part ++ [line]))) :
    after o lines p = { p with pending := p.pending ++ joinLines lines } := by
  induction lines generalizing p with
  | nil => simp [after, joinLines]
  | cons line lines ih =>
    have hfirst : Waits (p.source line) := by
      have hwaits := h [] line lines rfl
      rwa [List.nil_append, joinLines_cons, joinLines, List.flatMap_nil, List.append_nil,
        ← List.append_assoc] at hwaits
    rw [after, feed_of_waits hfirst, ih]
    · rw [joinLines_cons, source, List.append_assoc, List.append_assoc, List.append_assoc]
    · rintro part line' rest rfl
      have hwaits := h (line :: part) line' rest rfl
      rwa [List.cons_append, joinLines_cons, ← List.append_assoc, ← List.append_assoc] at hwaits

/-- Lines of which every initial part leaves a bracket open, but which can be read with one more,
are run with it as one text. -/
theorem feed_after_waits {fs : List Form} (h : ∀ part line rest, lines = part ++ line :: rest →
    Waits (joinLines (part ++ [line])))
    (hread : Form.readAll (joinLines (lines ++ [line])) stdinName = .ok fs) :
    (after o lines ⟨s, []⟩).feed o line =
      ((runSource o true (joinLines (lines ++ [line])) stdinName s).1,
        ⟨(runSource o true (joinLines (lines ++ [line])) stdinName s).2.2, []⟩) := by
  have hafter : after o lines ⟨s, []⟩ = ⟨s, joinLines lines⟩ := after_of_waits h
  have hsource : (⟨s, joinLines lines⟩ : Prompt).source line = joinLines (lines ++ [line]) := by
    rw [source, joinLines_concat, List.append_assoc]
  rw [hafter, feed_of_not_waits]
  · rw [hsource]
  · rw [hsource]
    exact not_waits_of_readAll hread

end Runs

end Prompt
end ClauseLisp.CommandLine
