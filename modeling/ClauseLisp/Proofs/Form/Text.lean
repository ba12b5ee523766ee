import ClauseLisp.Proofs.Form.Spelling
import ClauseLisp.Proofs.Lexeme.Reread

/-! The text of a form is read as the lexemes of the form, in every layout, up to the first place
where an unquote stands before a tuple: there the tilde and the brace become one lexeme. -/

namespace ClauseLisp

open Token (Leads)
open Lexeme (AtDelimiter)

theorem Bracket.leads_opener (b : Bracket) (rest : Bytes) :
    Leads [b.opener] rest [.opening b] := by
  have hs : Lexeme.single? b.opener = some (.opening b) := by cases b <;> decide
  exact Token.leads_of_scan (by cases b <;> decide) (Lexeme.scan_single hs rest)

theorem Bracket.leads_closer (b : Bracket) (rest : Bytes) :
    Leads [b.closer] rest [.closing b] := by
  have hs : Lexeme.single? b.closer = some (.closing b) := by cases b <;> decide
  exact Token.leads_of_scan (by cases b <;> decide) (Lexeme.scan_single hs rest)

theorem Mark.leads_text {m : Mark} {rest : Bytes}
    (h : m = .unquote → (Lexeme.mark .unquote).Stops [] rest) : Leads m.text rest [.mark m] := by
  cases m with
  | quote => exact Token.leads_of_scan (by decide) (Lexeme.scan_single (by decide) rest)
  | quasiquote => exact Token.leads_of_scan (by decide) (Lexeme.scan_single (by decide) rest)
  | unquote =>
    have hscan := (Lexeme.scan_tilde rest).trans (Lexeme.tilde_of_leaves (h rfl).1 (h rfl).2)
    exact Token.leads_of_scan (by decide) hscan
  | splice => exact Token.leads_of_scan (by decide) (Lexeme.scan_tilde _)

namespace Lexeme

theorem atDelimiter_nil : AtDelimiter [] := leaves_nil _

theorem atDelimiter_cons {c : UInt8} (h : isDelimiter c = true) (rest : Bytes) :
    AtDelimiter (c :: rest) := by
  simp [AtDelimiter, Bytes.Leaves, h]

theorem atDelimiter_space (rest : Bytes) : AtDelimiter (utf8 " " ++ rest) :=
  atDelimiter_cons (c := byte ' ') (by decide) rest

theorem atDelimiter_newline (rest : Bytes) : AtDelimiter (utf8 "\n" ++ rest) :=
  atDelimiter_cons (c := byte '\n') (by decide) rest

end Lexeme

theorem Bracket.atDelimiter_closer (b : Bracket) (rest : Bytes) :
    AtDelimiter (b.closer :: rest) :=
  Lexeme.atDelimiter_cons (by cases b <;> decide) rest

namespace Form

def Legible (x : Form) : Prop := ∀ a, Lexeme.atom a ∈ x.flatten → a.Rereads

def LegibleAll (xs : List Form) : Prop := ∀ a, Lexeme.atom a ∈ flattenAll xs → a.Rereads

def isTuple : Form → Bool
  | sequence _ .brace _ => true
  | _ => false

mutual

def hasUnquotedTuple : Form → Bool
  | atom .. => false
  | sequence _ _ xs => anyUnquotedTuple xs
  | marked _ m x => (m == .unquote && x.isTuple) || hasUnquotedTuple x

def anyUnquotedTuple : List Form → Bool
  | [] => false
  | x :: xs => hasUnquotedTuple x || anyUnquotedTuple xs

end

theorem Legible.elements {loc : Location} {b : Bracket} {xs : List Form}
    (h : Legible (.sequence loc b xs)) : LegibleAll xs :=
  fun a ha => h a (by simp [flatten, ha])

theorem Legible.datum {loc : Location} {m : Mark} {x : Form} (h : Legible (.marked loc m x)) :
    Legible x :=
  fun a ha => h a (by simp [flatten, ha])

theorem LegibleAll.head {x : Form} {xs : List Form} (h : LegibleAll (x :: xs)) : Legible x :=
  fun a ha => h a (by simp [flattenAll, ha])

theorem LegibleAll.tail {x : Form} {xs : List Form} (h : LegibleAll (x :: xs)) : LegibleAll xs :=
  fun a ha => h a (by simp [flattenAll, ha])

theorem isWhitespace_levelPadding (indent : UInt32) :
    ∀ c ∈ levelPadding indent, isWhitespace c = true := by
  intro c hc
  obtain rfl := List.eq_of_mem_replicate hc
  decide

theorem isWhitespace_margin (indent : UInt32) :
    ∀ c ∈ levelPadding indent ++ utf8 "  ", isWhitespace c = true := by
  intro c hc
  rcases List.mem_append.1 hc with hc | hc
  · exact isWhitespace_levelPadding indent c hc
  · have hspace : (utf8 "  ").all isWhitespace = true := by decide
    exact List.all_eq_true.mp hspace c hc

theorem write_sequence_cases (layout : Layout) (loc : Location) (b : Bracket) (xs : List Form) :
    write layout (.sequence loc b xs) = [b.opener] ++ (writeSpaced layout xs ++ [b.closer]) ∨
    ∃ indent, write layout (.sequence loc b xs) = [b.opener] ++ (utf8 "\n" ++
      (writeLines (levelPadding indent ++ utf8 "  ") (.spread (indent + 1)) xs ++
        (levelPadding indent ++ [b.closer]))) := by
  rw [write]
  split
  · exact Or.inl rfl
  · rename_i indent h
    obtain rfl : b = .paren := by
      unfold spreads? at h
      split at h
      · rfl
      · simp at h
    have hopen : utf8 "(\n" = [Bracket.paren.opener] ++ utf8 "\n" := rfl
    have hclose : utf8 ")" = [Bracket.paren.closer] := rfl
    exact Or.inr ⟨indent, by rw [hopen, hclose]; simp only [List.append_assoc]⟩

theorem write_sequence_eq_cons (layout : Layout) (loc : Location) (b : Bracket) (xs : List Form) :
    ∃ t, write layout (.sequence loc b xs) = b.opener :: t := by
  rcases write_sequence_cases layout loc b xs with h | ⟨indent, h⟩
  · exact ⟨_, h⟩
  · exact ⟨_, h⟩

theorem stops_write (layout : Layout) {x : Form} (hx : x.Legible) (ht : x.isTuple = false)
    (rest : Bytes) : (Lexeme.mark .unquote).Stops [] (write layout x ++ rest) := by
  have key : ∀ (c : UInt8) (t : Bytes), write layout x = c :: t → c ≠ byte '@' →
      c ≠ Bracket.brace.opener → (Lexeme.mark .unquote).Stops [] (write layout x ++ rest) := by
    intro c t h hat hbrace
    rw [h]
    exact ⟨by simpa [Bytes.Leaves] using hat, by simpa [Bytes.Leaves] using hbrace⟩
  cases x with
  | atom loc a =>
    obtain ⟨c, t, h⟩ := hx a (by simp [flatten])
    exact key c t h.text h.ne_at h.ne_brace
  | sequence loc b xs =>
    obtain ⟨t, h⟩ := write_sequence_eq_cons layout loc b xs
    cases b with
    | paren => exact key _ t h (by decide) (by decide)
    | square => exact key _ t h (by decide) (by decide)
    | brace => simp [isTuple] at ht
  | marked loc m x =>
    cases m <;> exact key _ _ rfl (by decide) (by decide)

theorem leads_newline (rest : Bytes) : Leads (utf8 "\n") rest [] :=
  Token.leads_whitespace (List.all_eq_true.mp (by decide))

theorem leads_levelPadding (indent : UInt32) (rest : Bytes) :
    Leads (levelPadding indent) rest [] :=
  Token.leads_whitespace (isWhitespace_levelPadding indent)

theorem leads_space (rest : Bytes) : Leads (utf8 " ") rest [] :=
  Token.leads_whitespace (List.all_eq_true.mp (by decide))

mutual

theorem leads_write (layout : Layout) (x : Form) (hx : x.Legible)
    (ht : x.hasUnquotedTuple = false) {rest : Bytes} (hrest : AtDelimiter rest) :
    Leads (write layout x) rest x.flatten := by
  match x with
  | .atom loc a =>
    obtain ⟨c, t, h⟩ := hx a (by simp [flatten])
    rw [write, h.text]
    exact Token.leads_of_scan h.startsGap (h.scan rest hrest)
  | .marked loc m x =>
    rw [hasUnquotedTuple, Bool.or_eq_false_iff] at ht
    rw [write, flatten, ← List.singleton_append]
    refine Leads.append (Mark.leads_text ?_) (leads_write layout x hx.datum ht.2 hrest)
    rintro rfl
    exact stops_write layout hx.datum (by simpa using ht.1) rest
  | .sequence loc b xs =>
    rw [hasUnquotedTuple] at ht
    have hclose := b.leads_closer rest
    rw [flatten, List.cons_append, ← List.singleton_append]
    rcases write_sequence_cases layout loc b xs with h | ⟨indent, h⟩
    · have hinner := leads_writeSpaced layout xs hx.elements ht (b.atDelimiter_closer rest)
      rw [h]
      exact (b.leads_opener _).append (hinner.append hclose)
    · have hinner := leads_writeLines (.spread (indent + 1)) (isWhitespace_margin indent) xs
        hx.elements ht ((levelPadding indent ++ [b.closer]) ++ rest)
      have hpadding := leads_levelPadding indent ([b.closer] ++ rest)
      rw [h]
      exact (b.leads_opener _).append ((leads_newline _).append
        (hinner.append (hpadding.append hclose)))

theorem leads_writeSpaced (layout : Layout) (xs : List Form) (hx : LegibleAll xs)
    (ht : anyUnquotedTuple xs = false) {rest : Bytes} (hrest : AtDelimiter rest) :
    Leads (writeSpaced layout xs) rest (flattenAll xs) := by
  match xs with
  | [] => exact Token.leads_nil rest
  | [x] =>
    rw [anyUnquotedTuple, Bool.or_eq_false_iff] at ht
    simpa [writeSpaced, flattenAll] using leads_write layout x hx.head ht.1 hrest
  | x :: y :: zs =>
    rw [anyUnquotedTuple, Bool.or_eq_false_iff] at ht
    have hrests := leads_writeSpaced layout (y :: zs) hx.tail ht.2 hrest
    have hfirst := leads_write layout x hx.head ht.1
      (Lexeme.atDelimiter_space (writeSpaced layout (y :: zs) ++ rest))
    rw [← List.append_assoc] at hfirst
    have h := hfirst.append ((leads_space _).append hrests)
    simpa [writeSpaced, flattenAll] using h

theorem leads_writeLines (layout : Layout) {margin : Bytes}
    (hmargin : ∀ c ∈ margin, isWhitespace c = true) (xs : List Form) (hx : LegibleAll xs)
    (ht : anyUnquotedTuple xs = false) (rest : Bytes) :
    Leads (writeLines margin layout xs) rest (flattenAll xs) := by
  match xs with
  | [] => exact Token.leads_nil rest
  | x :: xs =>
    rw [anyUnquotedTuple, Bool.or_eq_false_iff] at ht
    have hrests := leads_writeLines layout hmargin xs hx.tail ht.2 rest
    have hfirst := leads_write layout x hx.head ht.1
      (Lexeme.atDelimiter_newline (writeLines margin layout xs ++ rest))
    rw [← List.append_assoc] at hfirst
    have h := (Token.leads_whitespace hmargin).append
      (hfirst.append ((leads_newline _).append hrests))
    simpa [writeLines, flattenAll] using h

end

/-- Where `ls` has an unquote, after lexemes that are read from the text, a tilde stands before an
opening brace. -/
def Clashes (s : Bytes) (ls : List Lexeme) : Prop :=
  ∃ w t p q, s = w ++ byte '~' :: Bracket.brace.opener :: t ∧
    Leads w (byte '~' :: Bracket.brace.opener :: t) p ∧ ls = p ++ .mark .unquote :: q

section Clashes

variable {s w : Bytes} {ls ms : List Lexeme}

theorem Clashes.append (h : Clashes s ls) (ms : List Lexeme) : Clashes s (ls ++ ms) := by
  obtain ⟨w, t, p, q, hs, hw, rfl⟩ := h
  exact ⟨w, t, p, q ++ ms, hs, hw, by simp⟩

theorem clashes_of_leads (hw : Leads w s ls) (h : Clashes s ms) : Clashes (w ++ s) (ls ++ ms) := by
  obtain ⟨v, t, p, q, rfl, hv, rfl⟩ := h
  exact ⟨w ++ v, t, ls ++ p, q, by simp, hw.append hv, by simp⟩

theorem Clashes.tokenizeFrom {loc : Location} {ts : List Token} (h : Clashes s ls)
    (hts : Token.tokenizeFrom loc s = .ok ts) :
    ∃ p q name q', ls = p ++ .mark .unquote :: q ∧
      ts.map Token.lexeme = p ++ .atom (.interpolation name) :: q' := by
  obtain ⟨w, t, p, q, rfl, hw, rfl⟩ := h
  obtain ⟨us, rfl, heq⟩ := hw loc
  rw [heq] at hts
  match hrest : Token.tokenizeFrom (loc.advance w) (byte '~' :: Bracket.brace.opener :: t) with
  | .error e => simp [hrest, Except.map] at hts
  | .ok vs =>
    obtain rfl : us ++ vs = ts := by simpa [hrest, Except.map] using hts
    have hstart := Lexeme.gap_of_not_startsGap (c := byte '~') (by decide)
    rcases Token.tokenizeFrom_cases hrest with
      ⟨-, hgap⟩ | ⟨blank, c, r, cut, vs', hgap, hscan, rfl, -⟩
    · simp [hstart] at hgap
    · obtain ⟨rfl, rfl, rfl⟩ := by simpa [hstart] using hgap
      -- Behind a tilde, an opening brace starts an interpolation and no tuple.
      rw [Lexeme.scan_tilde, Lexeme.tilde_brace] at hscan
      obtain ⟨name, rest, -, -, -, rfl⟩ := Lexeme.interpolation_eq_ok_iff.mp hscan
      exact ⟨_, q, name, vs'.map Token.lexeme, rfl, by simp⟩

theorem clashes_unquote (layout : Layout) {x : Form} (ht : x.isTuple = true) (rest : Bytes) :
    Clashes (Mark.unquote.text ++ (write layout x ++ rest)) (.mark .unquote :: x.flatten) := by
  unfold isTuple at ht
  split at ht
  · rename_i loc xs
    obtain ⟨t, h⟩ := write_sequence_eq_cons layout loc .brace xs
    exact ⟨[], t ++ rest, [], _, by rw [h]; rfl, Token.leads_nil _, rfl⟩
  · simp at ht

mutual

theorem clashes_write (layout : Layout) (x : Form) (hx : x.Legible)
    (ht : x.hasUnquotedTuple = true) (rest : Bytes) :
    Clashes (write layout x ++ rest) x.flatten := by
  match x with
  | .atom loc a => simp [hasUnquotedTuple] at ht
  | .marked loc m x =>
    rw [write, flatten, List.append_assoc]
    by_cases hm : m = .unquote ∧ x.isTuple = true
    · obtain ⟨rfl, htuple⟩ := hm
      exact clashes_unquote layout htuple rest
    · have hdatum : x.hasUnquotedTuple = true := by
        simpa [hasUnquotedTuple, hm] using ht
      rw [← List.singleton_append]
      refine clashes_of_leads (Mark.leads_text ?_) (clashes_write layout x hx.datum hdatum rest)
      rintro rfl
      exact stops_write layout hx.datum (by simpa using hm) rest
  | .sequence loc b xs =>
    rw [hasUnquotedTuple] at ht
    rw [flatten, List.cons_append, ← List.singleton_append]
    rcases write_sequence_cases layout loc b xs with h | ⟨indent, h⟩
    · have hinner := clashes_writeSpaced layout xs hx.elements ht ([b.closer] ++ rest)
      rw [h, List.append_assoc, List.append_assoc]
      exact clashes_of_leads (b.leads_opener _) (hinner.append [.closing b])
    · have hinner := clashes_writeLines (.spread (indent + 1)) (isWhitespace_margin indent) xs
        hx.elements ht (levelPadding indent ++ [b.closer] ++ rest)
      have hlines := clashes_of_leads (leads_newline _) (hinner.append [.closing b])
      rw [h, List.append_assoc, List.append_assoc, List.append_assoc]
      exact clashes_of_leads (b.leads_opener _) hlines

theorem clashes_writeSpaced (layout : Layout) (xs : List Form) (hx : LegibleAll xs)
    (ht : anyUnquotedTuple xs = true) (rest : Bytes) :
    Clashes (writeSpaced layout xs ++ rest) (flattenAll xs) := by
  match xs with
  | [] => simp [anyUnquotedTuple] at ht
  | [x] =>
    have hfirst : x.hasUnquotedTuple = true := by simpa [anyUnquotedTuple] using ht
    simpa [writeSpaced, flattenAll] using clashes_write layout x hx.head hfirst rest
  | x :: y :: zs =>
    rw [writeSpaced, flattenAll, List.append_assoc, List.append_assoc]
    by_cases hfirst : x.hasUnquotedTuple = true
    · exact (clashes_write layout x hx.head hfirst _).append _
    · have hrests : anyUnquotedTuple (y :: zs) = true := by
        rw [anyUnquotedTuple] at ht
        simpa [hfirst] using ht
      have h := clashes_of_leads (leads_space _)
        (clashes_writeSpaced layout (y :: zs) hx.tail hrests rest)
      exact clashes_of_leads (leads_write layout x hx.head (by simpa using hfirst)
        (Lexeme.atDelimiter_space _)) h

theorem clashes_writeLines (layout : Layout) {margin : Bytes}
    (hmargin : ∀ c ∈ margin, isWhitespace c = true) (xs : List Form) (hx : LegibleAll xs)
    (ht : anyUnquotedTuple xs = true) (rest : Bytes) :
    Clashes (writeLines margin layout xs ++ rest) (flattenAll xs) := by
  match xs with
  | [] => simp [anyUnquotedTuple] at ht
  | x :: xs =>
    rw [writeLines, flattenAll, List.append_assoc, List.append_assoc, List.append_assoc]
    rw [← List.nil_append (x.flatten ++ flattenAll xs)]
    refine clashes_of_leads (Token.leads_whitespace hmargin) ?_
    by_cases hfirst : x.hasUnquotedTuple = true
    · exact (clashes_write layout x hx.head hfirst _).append _
    · have hrests : anyUnquotedTuple xs = true := by simpa [anyUnquotedTuple, hfirst] using ht
      have h := clashes_of_leads (leads_newline _)
        (clashes_writeLines layout hmargin xs hx.tail hrests rest)
      exact clashes_of_leads (leads_write layout x hx.head (by simpa using hfirst)
        (Lexeme.atDelimiter_newline _)) h

end

end Clashes

end Form
end ClauseLisp
