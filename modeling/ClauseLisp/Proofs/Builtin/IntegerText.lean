import ClauseLisp.Proofs.Builtin.Results
import ClauseLisp.Proofs.Lexeme.Reread
import ClauseLisp.Proofs.Token.Pieces

/-! Texts of integers are read in one way wherever they stand: a literal of a program and a string
that is converted are the integer that they denote, if that is a 64-bit word, and the text that an
integer is displayed as is converted back to it. -/

namespace ClauseLisp

namespace Token

open Integer (Denotes Fits)

variable {s : Bytes} {n : Int}

theorem tokenize_of_denotes {i : Int64} (h : Denotes s i.toInt) (file : Bytes) :
    tokenize s file = .ok [⟨.atom (.number (.integer i)), .start file⟩] := by
  have hnumber := Lexeme.numberOfText_of_denotes h
  obtain ⟨c, t, rfl, hc, ht⟩ := h.shape
  have hgap : Lexeme.startsGap c = false := (Atom.numberStart c (hc.imp id And.left)).1
  have hnil : Lexeme.AtDelimiter [] := Lexeme.leaves_nil _
  have hscan := Lexeme.scan_digits hc ht (Or.inl rfl) (by rwa [List.append_nil]) hnil
  rw [List.append_nil, List.append_nil] at hscan
  exact tokenize_word hgap hscan file

theorem tokenize_of_not_fits (h : Denotes s n) (hn : ¬ Fits n) (file : Bytes) :
    tokenize s file = .error ⟨.integerOutOfRange s, .start file⟩ := by
  have hnumber := Lexeme.numberOfText_of_not_fits h hn
  obtain ⟨c, t, rfl, hc, ht⟩ := h.shape
  have hgap : Lexeme.startsGap c = false := (Atom.numberStart c (hc.imp id And.left)).1
  have hscan := Lexeme.scan_digits_error hc ht hnumber
  exact tokenizeFrom_of_failure (Lexeme.gap_of_not_startsGap hgap t) hscan (.start file)

end Token

namespace Builtin

open Integer (Denotes Fits)

variable {s : Bytes} {n : Int}

theorem onlyComputes_toInteger (v : Value) : toInteger.OnlyComputes [v] := fun _ _ => rfl

theorem returns_toText (v : Value) : toText.Returns [v] (.string v.display) := fun _ _ => rfl

theorem returns_toInteger {i : Int64} (h : Denotes s i.toInt) :
    toInteger.Returns [.string s] (.integer i) := by
  rw [(onlyComputes_toInteger _).returns_iff]
  show integerOf (.string s) = _
  rw [integerOf, Integer.ofText?_bind_fit?_iff.mpr h]

theorem raises_toInteger (h : (Integer.ofText? s).bind Integer.fit? = none) :
    toInteger.Raises [.string s] (.invalidInteger s) := by
  rw [(onlyComputes_toInteger _).raises_iff]
  show integerOf (.string s) = _
  rw [integerOf, h]

theorem returns_toInteger_iff {v : Value} : toInteger.Returns [.string s] v ↔
    ∃ n i, Denotes s n ∧ Fits n ∧ v = .integer i ∧ i.toInt = n := by
  constructor
  · intro hv
    cases hread : (Integer.ofText? s).bind Integer.fit? with
    | none => exact absurd (raises_toInteger hread) hv.not_raises
    | some i =>
      have hdenotes : Denotes s i.toInt := Integer.ofText?_bind_fit?_iff.mp hread
      exact ⟨_, i, hdenotes, Integer.fits_toInt i, hv.unique (returns_toInteger hdenotes), rfl⟩
  · rintro ⟨n, i, hdenotes, -, rfl, rfl⟩
    exact returns_toInteger hdenotes

/-- A string is converted to an integer just if it denotes a 64-bit word. The lexer reads such a
text as a single token with the same integer; texts that denote other integers are out of range for
it, and invalid for the conversion. An integer is displayed as a text that is converted back. -/
theorem integerText_agrees :
    (∀ s v, toInteger.Returns [.string s] v ↔
      ∃ n i, Denotes s n ∧ Fits n ∧ v = .integer i ∧ i.toInt = n) ∧
    (∀ s n file, Denotes s n → Fits n → ∃ i : Int64, i.toInt = n ∧
      Token.tokenize s file = .ok [⟨.atom (.number (.integer i)), .start file⟩]) ∧
    (∀ s n file, Denotes s n → ¬ Fits n →
      (∃ e, Token.tokenize s file = .error ⟨e, .start file⟩ ∧
        e.cause = utf8 "Integer literal out of range: " ++ s) ∧
      ∃ f, toInteger.Raises [.string s] f ∧ f.isTypeFault = false ∧
        f.describe = utf8 "to-integer: Invalid integer " ++ quoted s) ∧
    ∀ i : Int64, ∃ t, toText.Returns [.integer i] (.string t) ∧
      toInteger.Returns [.string t] (.integer i) := by
  refine ⟨fun s v => returns_toInteger_iff, ?_, ?_, ?_⟩
  · intro s n file hdenotes hn
    obtain ⟨i, -, rfl⟩ := Integer.fit?_of_fits hn
    exact ⟨i, rfl, Token.tokenize_of_denotes hdenotes file⟩
  · intro s n file hdenotes hn
    have hread := Integer.ofText?_bind_fit?_eq_none hdenotes hn
    refine ⟨⟨_, Token.tokenize_of_not_fits hdenotes hn file, rfl⟩, ?_⟩
    exact ⟨_, raises_toInteger hread, rfl, rfl⟩
  · intro i
    have hdenotes : Denotes (Value.integer i).display i.toInt :=
      Integer.denotes_signedDecimal i.toInt
    exact ⟨_, returns_toText (.integer i), returns_toInteger hdenotes⟩

theorem integerText_agrees_limits :
    let least := utf8 "-009223372036854775808"
    let large := utf8 "9223372036854775808"
    Denotes least (-9223372036854775808) ∧ Denotes large 9223372036854775808 ∧
      toInteger.Returns [.string least] (.integer Int64.minValue) ∧
      (∃ i : Int64, i.toInt = -9223372036854775808 ∧
        Token.tokenize least [] = .ok [⟨.atom (.number (.integer i)), .start []⟩]) ∧
      (∃ e, Token.tokenize large [] = .error ⟨e, .start []⟩ ∧
        e.cause = utf8 "Integer literal out of range: 9223372036854775808") ∧
      ∃ f, toInteger.Raises [.string large] f ∧ f.isTypeFault = false := by
  intro least large
  obtain ⟨hreturns, htoken, hrange, -⟩ := integerText_agrees
  have hleast : Denotes least (-9223372036854775808) := Integer.ofText?_eq_some_iff.mp (by decide)
  have hlarge : Denotes large 9223372036854775808 := Integer.ofText?_eq_some_iff.mp (by decide)
  obtain ⟨⟨e, he, hcause⟩, f, hf, htype, -⟩ := hrange large _ [] hlarge (by decide)
  exact ⟨hleast, hlarge, (hreturns least _).mpr ⟨_, _, hleast, by decide, rfl, by decide⟩,
    htoken least _ [] hleast (by decide), ⟨e, he, hcause⟩, f, hf, htype⟩

end Builtin
end ClauseLisp
