import ClauseLisp.Form.Writer
import ClauseLisp.Proofs.Lexeme.Extent
import ClauseLisp.Proofs.Number.Decimal
import ClauseLisp.Proofs.Token.Steps

/-! The texts of atoms are read as the atoms they are texts of. For integers and strings that holds
without condition, for names if they could be read in the first place, and for doubles as far as
their own text reads back. -/

namespace ClauseLisp

def Bytes.IsFixed (s : Bytes) : Prop :=
  ∃ sign whole places, s = sign ++ whole ++ byte '.' :: places ∧ (sign = [] ∨ sign = [byte '-']) ∧
    whole ≠ [] ∧ places ≠ [] ∧ ∀ c ∈ whole ++ places, Bytes.isDigit c = true

def Binary64.ReadsBack (d : Binary64) : Prop :=
  Bytes.IsFixed d.text ∧ Binary64.ofFixedText? d.text = some d

namespace Lexeme

open Bytes (Leaves)

abbrev AtDelimiter (rest : Bytes) : Prop := Leaves (!isDelimiter ·) rest

theorem ne_period_of_isDelimiter : ∀ c, isDelimiter c = true → (c == byte '.') = false := by
  decide +kernel

theorem startsWord_of_isDigit : ∀ c, Bytes.isDigit c = true → startsWord c = true := by
  decide +kernel

theorem AtDelimiter.leaves_digits {rest : Bytes} (h : AtDelimiter rest) :
    Leaves Bytes.isDigit rest :=
  fun c hc => isDigit_of_isDelimiter c (by simpa using h c hc)

theorem AtDelimiter.leaves_period {rest : Bytes} (h : AtDelimiter rest) :
    Leaves (· == byte '.') rest :=
  fun c hc => ne_period_of_isDelimiter c (by simpa using h c hc)

section Digits

variable {c : UInt8} {whole tail rest : Bytes}

theorem scan_eq_number (hc : Bytes.isDigit c = true ∨ c = byte '-' ∧ whole ≠ [])
    (hwhole : ∀ d ∈ whole, Bytes.isDigit d = true) :
    scan c (whole ++ rest) = number c (whole ++ rest) := by
  have hword : startsWord c = true := by
    rcases hc with hc | ⟨rfl, -⟩
    · exact startsWord_of_isDigit c hc
    · decide
  have hstart : startsNumber c (whole ++ rest) = true := by
    rcases hc with hc | ⟨rfl, hne⟩
    · simp [startsNumber, hc]
    · obtain ⟨d, ds, rfl⟩ := List.exists_cons_of_ne_nil hne
      simp [startsNumber, hwhole d (by simp)]
  rw [scan_word hword, if_pos hstart]

theorem scan_digits {n : Number} (hc : Bytes.isDigit c = true ∨ c = byte '-' ∧ whole ≠ [])
    (hwhole : ∀ d ∈ whole, Bytes.isDigit d = true)
    (htail : tail = [] ∨ ∃ places, tail = byte '.' :: places ∧
      ∀ d ∈ places, Bytes.isDigit d = true)
    (hn : numberOfText (c :: (whole ++ tail)) = .ok n) (hrest : AtDelimiter rest) :
    scan c (whole ++ tail ++ rest) = .ok ⟨.atom (.number n), c :: (whole ++ tail), rest⟩ := by
  have hdigits : digitsAndPlaces (whole ++ tail ++ rest) = (whole ++ tail, rest) := by
    rcases htail with rfl | ⟨places, rfl, hplaces⟩
    · rw [List.append_nil]
      exact digitsAndPlaces_whole hwhole hrest.leaves_digits hrest.leaves_period
    · exact digitsAndPlaces_places hwhole hplaces hrest.leaves_digits
  have hscan : scan c (whole ++ tail ++ rest) = number c (whole ++ tail ++ rest) := by
    rw [List.append_assoc]
    exact scan_eq_number hc hwhole
  rw [hscan, number_eq_ok_iff, hdigits]
  exact ⟨n, hn, rfl⟩

theorem scan_digits_error {e : LexError} (hc : Bytes.isDigit c = true ∨ c = byte '-' ∧ whole ≠ [])
    (hwhole : ∀ d ∈ whole, Bytes.isDigit d = true) (he : numberOfText (c :: whole) = .error e) :
    scan c whole = .error ⟨e, []⟩ := by
  have hdigits : digitsAndPlaces (whole ++ []) = (whole, []) :=
    digitsAndPlaces_whole hwhole (leaves_nil _) (leaves_nil _)
  have hscan : scan c (whole ++ []) = number c (whole ++ []) := scan_eq_number hc hwhole
  rw [List.append_nil] at hdigits hscan
  rw [hscan, number, hdigits]
  simp [he]

end Digits

section Integers

open Integer (Denotes Fits)

variable {s : Bytes} {n : Int}

theorem period_not_mem (h : Denotes s n) : byte '.' ∉ s := by
  obtain ⟨c, t, rfl, hc, ht⟩ := h.shape
  intro hperiod
  rcases List.mem_cons.mp hperiod with rfl | hperiod
  · rcases hc with hc | ⟨hc, -⟩
    · rw [isDigit_period] at hc
      exact Bool.noConfusion hc
    · exact absurd hc (by decide)
  · have hdigit := ht _ hperiod
    rw [isDigit_period] at hdigit
    exact Bool.noConfusion hdigit

theorem numberOfText_of_denotes {i : Int64} (h : Denotes s i.toInt) :
    numberOfText s = .ok (.integer i) := by
  rw [numberOfText, if_neg (by simpa using period_not_mem h), Integer.ofText?_bind_fit?_iff.mpr h]

theorem numberOfText_of_not_fits (h : Denotes s n) (hn : ¬ Fits n) :
    numberOfText s = .error (.integerOutOfRange s) := by
  rw [numberOfText, if_neg (by simpa using period_not_mem h),
    Integer.ofText?_bind_fit?_eq_none h hn]

end Integers

end Lexeme

namespace Atom

open Lexeme (scan startsGap AtDelimiter)

/-- The text of an atom starts with `c`, which no gap and no other lexeme starts with or goes on
with, and is read as the atom in front of a delimiter. -/
structure RereadsFrom (a : Atom) (c : UInt8) (t : Bytes) : Prop where
  text : a.text = c :: t
  startsGap : startsGap c = false
  ne_at : c ≠ byte '@'
  ne_brace : c ≠ Bracket.brace.opener
  scan : ∀ rest, AtDelimiter rest → scan c (t ++ rest) = .ok ⟨.atom a, c :: t, rest⟩

def Rereads (a : Atom) : Prop := ∃ c t, a.RereadsFrom c t

theorem numberStart : ∀ c, Bytes.isDigit c = true ∨ c = byte '-' →
    startsGap c = false ∧ c ≠ byte '@' ∧ c ≠ Bracket.brace.opener := by
  decide +kernel

theorem rereads_digits {n : Number} {c : UInt8} {whole tail : Bytes}
    (htext : n.text = c :: (whole ++ tail))
    (hc : Bytes.isDigit c = true ∨ c = byte '-' ∧ whole ≠ [])
    (hwhole : ∀ d ∈ whole, Bytes.isDigit d = true)
    (htail : tail = [] ∨ ∃ places, tail = byte '.' :: places ∧
      ∀ d ∈ places, Bytes.isDigit d = true)
    (hn : Lexeme.numberOfText n.text = .ok n) : (number n).Rereads := by
  obtain ⟨hgap, hat, hbrace⟩ := numberStart c (hc.imp id And.left)
  refine ⟨c, whole ++ tail, htext, hgap, hat, hbrace, fun rest hrest => ?_⟩
  exact Lexeme.scan_digits hc hwhole htail (htext ▸ hn) hrest

theorem rereads_integer (i : Int64) : (number (.integer i)).Rereads := by
  have hdenotes : Integer.Denotes (Number.integer i).text i.toInt :=
    Integer.denotes_signedDecimal i.toInt
  obtain ⟨c, t, htext, hc, ht⟩ := hdenotes.shape
  have hn := Lexeme.numberOfText_of_denotes hdenotes
  rw [← List.append_nil t] at htext
  exact rereads_digits htext hc ht (Or.inl rfl) hn

theorem rereads_float {d : Binary64} (h : d.ReadsBack) : (number (.float d)).Rereads := by
  obtain ⟨⟨sign, whole, places, htext, hsign, hne, -, hdigits⟩, hread⟩ := h
  have hn : Lexeme.numberOfText d.text = .ok (.float d) := by
    rw [Lexeme.numberOfText, if_pos (by simp [htext]), hread]
  have hplaces : byte '.' :: places = [] ∨ ∃ ps, byte '.' :: places = byte '.' :: ps ∧
      ∀ d ∈ ps, Bytes.isDigit d = true :=
    Or.inr ⟨places, rfl, fun c hc => hdigits c (by simp [hc])⟩
  have hwhole : ∀ c ∈ whole, Bytes.isDigit c = true := fun c hc => hdigits c (by simp [hc])
  rcases hsign with rfl | rfl
  · obtain ⟨c, t, rfl⟩ := List.exists_cons_of_ne_nil hne
    exact rereads_digits htext (Or.inl (hwhole c (by simp))) (fun d hd => hwhole d (by simp [hd]))
      hplaces hn
  · exact rereads_digits htext (Or.inr ⟨rfl, hne⟩) hwhole hplaces hn

theorem stringBody?_escapeByte (c : UInt8) (s : Bytes) :
    Lexeme.stringBody? (escapeByte c ++ s) =
      (Lexeme.stringBody? s).map fun (v, t, r) => (c :: v, escapeByte c ++ t, r) := by
  unfold escapeByte
  split
  · rename_i h
    exact h ▸ Lexeme.stringBody?_escape (byte '"') s
  split
  · rename_i h
    exact h ▸ Lexeme.stringBody?_escape (byte '\\') s
  split
  · rename_i h
    exact h ▸ Lexeme.stringBody?_escape (byte 'n') s
  split
  · rename_i h
    exact h ▸ Lexeme.stringBody?_escape (byte 't') s
  split
  · rename_i h
    exact h ▸ Lexeme.stringBody?_escape (byte 'r') s
  · rename_i hq hb _ _ _
    exact Lexeme.stringBody?_plain hq hb s

theorem stringBody?_quoted (s rest : Bytes) :
    Lexeme.stringBody? (s.flatMap escapeByte ++ [byte '"'] ++ rest) =
      some (s, s.flatMap escapeByte ++ [byte '"'], rest) := by
  induction s with
  | nil => exact Lexeme.stringBody?_quote rest
  | cons c s ih =>
    rw [List.flatMap_cons, List.append_assoc, List.append_assoc, stringBody?_escapeByte,
      ← List.append_assoc, ih]
    simp

theorem rereads_string (s : Bytes) : (string s).Rereads := by
  refine ⟨byte '"', s.flatMap escapeByte ++ [byte '"'], rfl, by decide, by decide, by decide,
    fun rest _ => ?_⟩
  rw [Lexeme.scan_quote, Lexeme.string_eq_ok_iff]
  exact ⟨s, _, rest, stringBody?_quoted s rest, rfl⟩

theorem stops_of_atDelimiter {rest : Bytes} (h : AtDelimiter rest) (a : Atom) (taken : Bytes) :
    (Lexeme.atom a).Stops taken rest := by
  cases a with
  | number n => exact ⟨h.leaves_digits, fun _ => h.leaves_period⟩
  | nil | boolean b | symbol name | keyword name => exact h
  | string s | interpolation name => trivial

theorem rereads_of_taken {a : Atom} {c : UInt8} {s : Bytes} {cut : Lexeme.Cut}
    (h : scan c s = .ok cut) (ha : cut.lexeme = .atom a) (htaken : cut.taken = a.text)
    (hgap : startsGap c = false) (hat : c ≠ byte '@') (hbrace : c ≠ Bracket.brace.opener) :
    a.Rereads := by
  obtain ⟨t, ht, -⟩ := Lexeme.scan_splits h
  refine ⟨c, t, htaken ▸ ht, hgap, hat, hbrace, fun rest hrest => ?_⟩
  rw [Lexeme.scan_extends h t rest ht (ha ▸ stops_of_atDelimiter hrest a _), ha, ht]

theorem isUnsupported_of_checkName {before name : Bytes}
    (h : Lexeme.checkName before name = .ok ()) : ∀ c ∈ name, isUnsupported c = false := by
  intro c hc
  have hnil : name.dropWhile (!isUnsupported ·) = [] := by
    unfold Lexeme.checkName at h
    split at h
    · assumption
    · simp at h
  have htake : name.takeWhile (!isUnsupported ·) = name := by
    have happend := List.takeWhile_append_dropWhile (p := (!isUnsupported ·)) (l := name)
    rwa [hnil, List.append_nil] at happend
  have hsupported : (!isUnsupported c) = true :=
    Bytes.of_mem_takeWhile (p := (!isUnsupported ·)) (htake.symm ▸ hc)
  simpa using hsupported

theorem text_of_ofWord {name : Bytes} {a : Atom} (h : Lexeme.ofWord name = .atom a) :
    a.text = name := by
  unfold Lexeme.ofWord at h
  repeat' split at h
  all_goals
    obtain rfl := Lexeme.atom.inj h
    simp_all [text, booleanText]

theorem supported_ne : ∀ c, isUnsupported c = false →
    c ≠ byte '@' ∧ c ≠ Bracket.brace.opener := by
  decide +kernel

theorem single?_ne_atom (c : UInt8) (a : Atom) : Lexeme.single? c ≠ some (.atom a) := by
  unfold Lexeme.single?
  repeat' split
  all_goals simp

theorem taken_of_tilde {a : Atom} {s : Bytes} {cut : Lexeme.Cut} (h : Lexeme.tilde s = .ok cut)
    (ha : cut.lexeme = .atom a) : cut.taken = a.text := by
  cases s with
  | nil =>
    obtain rfl : _ = cut := by simpa [Lexeme.tilde] using h
    simp at ha
  | cons c s =>
    simp only [Lexeme.tilde] at h
    split at h
    · obtain rfl : _ = cut := by simpa using h
      simp at ha
    split at h
    · obtain ⟨name, rest, -, -, -, rfl⟩ := Lexeme.interpolation_eq_ok_iff.mp h
      obtain rfl := Lexeme.atom.inj ha
      rfl
    · obtain rfl : _ = cut := by simpa using h
      simp at ha

theorem rereads_of_scan {a : Atom} {c : UInt8} {s : Bytes} {cut : Lexeme.Cut}
    (h : scan c s = .ok cut) (ha : cut.lexeme = .atom a) (hgap : startsGap c = false)
    (hfloat : ∀ d, a = .number (.float d) → d.ReadsBack) : a.Rereads := by
  rcases Lexeme.scan_cases h with
    ⟨l, hl, rfl⟩ | ⟨rfl, h'⟩ | ⟨rfl, h'⟩ | ⟨rfl, h'⟩ | ⟨-, -, h'⟩ | ⟨-, -, h'⟩
  · exact absurd (hl.trans (congrArg some ha)) (single?_ne_atom c a)
  · exact rereads_of_taken h ha (taken_of_tilde h' ha) hgap (by decide) (by decide)
  · obtain ⟨v, t, r, -, rfl⟩ := Lexeme.string_eq_ok_iff.mp h'
    obtain rfl := Lexeme.atom.inj ha
    exact rereads_string v
  · obtain ⟨-, -, rfl⟩ := Lexeme.keyword_eq_ok_iff.mp h'
    obtain rfl := Lexeme.atom.inj ha
    exact rereads_of_taken h rfl rfl hgap (by decide) (by decide)
  · obtain ⟨n, -, rfl⟩ := Lexeme.number_eq_ok_iff.mp h'
    obtain rfl := Lexeme.atom.inj ha
    cases n with
    | integer i => exact rereads_integer i
    | float d => exact rereads_float (hfloat d rfl)
  · obtain ⟨hname, rfl⟩ := Lexeme.symbol_eq_ok_iff.mp h'
    obtain ⟨hat, hbrace⟩ := supported_ne c (isUnsupported_of_checkName hname c (by simp))
    exact rereads_of_taken h ha (text_of_ofWord ha).symm hgap hat hbrace

end Atom
end ClauseLisp
