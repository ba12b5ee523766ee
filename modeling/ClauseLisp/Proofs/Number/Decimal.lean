import ClauseLisp.Number
import ClauseLisp.Proofs.Bytes
import Mathlib.Data.List.Induction

/-! Decimal texts of integers. What a text denotes is said by the grammar of signed numerals: reading
a text gives what it denotes, and the text that is written for an integer denotes it. -/

namespace ClauseLisp

namespace Bytes

def digit (n : Nat) : UInt8 := (Nat.digitChar n).toUInt8

theorem isDigit_digit {n : Nat} (h : n < 10) : isDigit (digit n) = true := by
  have hall : ∀ i : Fin 10, isDigit (digit i) = true := by decide
  exact hall ⟨n, h⟩

theorem toNat_digit {n : Nat} (h : n < 10) : (digit n).toNat - (byte '0').toNat = n := by
  have hall : ∀ i : Fin 10, (digit i).toNat - (byte '0').toNat = i := by decide
  exact hall ⟨n, h⟩

theorem decimal_of_lt {n : Nat} (h : n < 10) : decimal n = [digit n] := by
  simp [decimal, Nat.toDigits_of_lt_base h, digit]

theorem decimal_of_le {n : Nat} (h : 10 ≤ n) :
    decimal n = decimal (n / 10) ++ [digit (n % 10)] := by
  simp [decimal, Nat.toDigits_of_base_le (by decide) h, digit]

theorem digitsValue_concat (s : Bytes) (c : UInt8) :
    digitsValue (s ++ [c]) = 10 * digitsValue s + (c.toNat - (byte '0').toNat) := by
  simp [digitsValue]

theorem exists_digit : ∀ c, isDigit c = true → ∃ d : Fin 10, c = digit d := by
  decide +kernel

/-- One digit or more, with the number they denote in base ten. -/
inductive Numeral : Bytes → Nat → Prop
  | digit {d : Nat} : d < 10 → Numeral [digit d] d
  | next {s : Bytes} {n d : Nat} : Numeral s n → d < 10 → Numeral (s ++ [digit d]) (10 * n + d)

section Numeral

variable {s : Bytes} {n : Nat}

theorem Numeral.ne_nil (h : Numeral s n) : s ≠ [] := by
  cases h <;> simp

theorem Numeral.isDigit (h : Numeral s n) : ∀ c ∈ s, isDigit c = true := by
  induction h with
  | digit hd => exact List.forall_mem_singleton.mpr (isDigit_digit hd)
  | next _ hd ih =>
    exact List.forall_mem_append.mpr ⟨ih, List.forall_mem_singleton.mpr (isDigit_digit hd)⟩

theorem Numeral.value (h : Numeral s n) : digitsValue s = n := by
  induction h with
  | @digit d hd =>
    have hvalue := digitsValue_concat [] (Bytes.digit d)
    rw [toNat_digit hd] at hvalue
    simpa [digitsValue] using hvalue
  | next _ hd ih => rw [digitsValue_concat, ih, toNat_digit hd]

theorem numeral_of_digits (hne : s ≠ []) (hdigits : ∀ c ∈ s, Bytes.isDigit c = true) :
    Numeral s (digitsValue s) := by
  -- Numerals grow at their end, and so does the induction.
  induction s using List.reverseRecOn with
  | nil => exact absurd rfl hne
  | append_singleton s c ih =>
    obtain ⟨hs, hc⟩ := List.forall_mem_append.mp hdigits
    obtain ⟨d, rfl⟩ := exists_digit c (hc c (by simp))
    rw [digitsValue_concat, toNat_digit d.isLt]
    by_cases hempty : s = []
    · subst hempty
      simpa [digitsValue] using Numeral.digit d.isLt
    · exact .next (ih hempty hs) d.isLt

theorem numeral_decimal (n : Nat) : Numeral (decimal n) n := by
  induction n using Nat.strongRecOn with
  | ind n ih =>
    by_cases hn : n < 10
    · rw [decimal_of_lt hn]
      exact .digit hn
    · have hlast : n % 10 < 10 := Nat.mod_lt n (by decide)
      have hnext := Numeral.next (ih (n / 10) (by omega)) hlast
      rw [decimal_of_le (Nat.not_lt.mp hn)]
      rwa [Nat.div_add_mod] at hnext

end Numeral

end Bytes

namespace Integer

open Bytes (Numeral)

inductive Denotes : Bytes → Int → Prop
  | unsigned {s : Bytes} {n : Nat} : Numeral s n → Denotes s n
  | negative {s : Bytes} {n : Nat} : Numeral s n → Denotes (byte '-' :: s) (-n)

variable {s : Bytes} {n : Int}

theorem isDigit_minus : Bytes.isDigit (byte '-') = false := by decide

theorem splitSign_of_digits (h : ∀ c ∈ s, Bytes.isDigit c = true) : splitSign s = (false, s) := by
  cases s with
  | nil => rfl
  | cons c s =>
    have hc : c ≠ byte '-' := by
      rintro rfl
      have hdigit := h _ List.mem_cons_self
      rw [isDigit_minus] at hdigit
      exact Bool.noConfusion hdigit
    rw [splitSign, if_neg hc]

theorem ofText?_of_denotes (h : Denotes s n) : ofText? s = some n := by
  cases h with
  | unsigned h =>
    have hsign := splitSign_of_digits h.isDigit
    have hall := List.all_eq_true.mpr h.isDigit
    simp [ofText?, hsign, h.ne_nil, hall, h.value]
  | negative h =>
    have hall := List.all_eq_true.mpr h.isDigit
    simp [ofText?, splitSign, h.ne_nil, hall, h.value]

theorem denotes_of_ofText? (h : ofText? s = some n) : Denotes s n := by
  cases s with
  | nil => simp [ofText?, splitSign] at h
  | cons c t =>
    by_cases hc : c = byte '-'
    · subst hc
      obtain ⟨⟨hne, hdigits⟩, rfl⟩ := by simpa [ofText?, splitSign] using h
      exact .negative (Bytes.numeral_of_digits hne hdigits)
    · obtain ⟨hdigits, rfl⟩ := by simpa [ofText?, splitSign, hc] using h
      refine .unsigned (Bytes.numeral_of_digits (List.cons_ne_nil c t) ?_)
      exact List.forall_mem_cons.mpr hdigits

theorem ofText?_eq_some_iff : ofText? s = some n ↔ Denotes s n :=
  ⟨denotes_of_ofText?, ofText?_of_denotes⟩

theorem denotes_signedDecimal (n : Int) : Denotes (Bytes.signedDecimal n) n := by
  cases n with
  | ofNat n => exact .unsigned (Bytes.numeral_decimal n)
  | negSucc n => exact .negative (Bytes.numeral_decimal (n + 1))

theorem Denotes.shape (h : Denotes s n) : ∃ c t, s = c :: t ∧
    (Bytes.isDigit c = true ∨ c = byte '-' ∧ t ≠ []) ∧ ∀ d ∈ t, Bytes.isDigit d = true := by
  cases h with
  | unsigned h =>
    obtain ⟨c, t, rfl⟩ := List.exists_cons_of_ne_nil h.ne_nil
    obtain ⟨hc, ht⟩ := List.forall_mem_cons.mp h.isDigit
    exact ⟨c, t, rfl, Or.inl hc, ht⟩
  | negative h => exact ⟨byte '-', _, rfl, Or.inr ⟨rfl, h.ne_nil⟩, h.isDigit⟩

section Words

variable {i : Int64}

theorem fit?_toInt (i : Int64) : fit? i.toInt = some i := by
  have hlo := i.le_toInt
  have hhi := i.toInt_lt
  rw [fit?, if_pos ⟨hlo, Int.le_sub_one_of_lt hhi⟩, Int64.ofInt_toInt]

def Fits (i : Int) : Prop := -Int.pow 2 63 ≤ i ∧ i < Int.pow 2 63

instance (i : Int) : Decidable (Fits i) := inferInstanceAs (Decidable (_ ∧ _))

theorem fits_toInt (i : Int64) : Fits i.toInt := ⟨i.le_toInt, i.toInt_lt⟩

theorem fit?_of_fits {i : Int} (h : Fits i) : ∃ k, fit? i = some k ∧ k.toInt = i := by
  have hbounds : minimum ≤ i ∧ i ≤ maximum := ⟨h.1, Int.le_sub_one_of_lt h.2⟩
  refine ⟨Int64.ofInt i, if_pos hbounds, ?_⟩
  exact Int64.toInt_ofInt_of_le h.1 h.2

theorem fit?_of_not_fits {i : Int} (h : ¬ Fits i) : fit? i = none := by
  refine if_neg fun hbounds => h ⟨hbounds.1, ?_⟩
  exact Int.lt_of_le_sub_one hbounds.2

theorem ofText?_bind_fit?_iff : (ofText? s).bind fit? = some i ↔ Denotes s i.toInt := by
  rw [Option.bind_eq_some_iff]
  constructor
  · rintro ⟨n, hn, hi⟩
    by_cases hfits : Fits n
    · obtain ⟨k, hk, rfl⟩ := fit?_of_fits hfits
      obtain rfl : k = i := Option.some.inj (hk.symm.trans hi)
      exact ofText?_eq_some_iff.mp hn
    · rw [fit?_of_not_fits hfits] at hi
      cases hi
  · intro h
    exact ⟨i.toInt, ofText?_of_denotes h, fit?_toInt i⟩

theorem ofText?_bind_fit?_eq_none (h : Denotes s n) (hn : ¬ Fits n) :
    (ofText? s).bind fit? = none := by
  rw [ofText?_of_denotes h, Option.bind_some, fit?_of_not_fits hn]

end Words

end Integer
end ClauseLisp
