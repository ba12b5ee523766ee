import ClauseLisp.CommandLine
import ClauseLisp.Proofs.Number.Decimal
import Mathlib.Data.List.TakeWhile

/-! The option that sets the call depth. Its value is a numeral for a positive number below `2 ^ 64`.
But blanks and a sign in front of the digits are taken as well, and with a minus sign the depth is
what the number lacks to `2 ^ 64`. -/

namespace ClauseLisp.CommandLine

open Bytes (Numeral)

inductive SignText : Bytes → Bool → Prop
  | none : SignText [] false
  | plus : SignText [byte '+'] false
  | minus : SignText [byte '-'] true

inductive WordText : Bytes → Bool → Nat → Prop
  | intro {blanks sign digits : Bytes} {negative : Bool} {n : Nat} :
      (∀ c ∈ blanks, isBlank c = true) → SignText sign negative → Numeral digits n →
      WordText (blanks ++ (sign ++ digits)) negative n

def DepthText (s : Bytes) (depth : Nat) : Prop :=
  ∃ negative n, WordText s negative n ∧ 0 < n ∧ n < Nat.pow 2 64 ∧
    depth = if negative then Nat.pow 2 64 - n else n

section Reading

variable {s sign digits : Bytes} {negative : Bool} {n depth : Nat}

theorem digitStart : ∀ c, Bytes.isDigit c = true →
    isBlank c = false ∧ c ≠ byte '-' ∧ c ≠ byte '+' := by
  decide +kernel

theorem numeral_head (h : Numeral digits n) :
    ∃ c t, digits = c :: t ∧ isBlank c = false ∧ c ≠ byte '-' ∧ c ≠ byte '+' := by
  obtain ⟨c, t, rfl⟩ := List.exists_cons_of_ne_nil h.ne_nil
  exact ⟨c, t, rfl, digitStart c (h.isDigit c List.mem_cons_self)⟩

theorem SignText.leaves_blank (h : SignText sign negative) (hdigits : Numeral digits n) :
    Bytes.Leaves isBlank (sign ++ digits) := by
  cases h with
  | none =>
    obtain ⟨c, t, rfl, hblank, -⟩ := numeral_head hdigits
    exact Bytes.leaves_cons hblank t
  | plus => exact Bytes.leaves_cons (by decide) digits
  | minus => exact Bytes.leaves_cons (by decide) digits

theorem SignText.splitAnySign (h : SignText sign negative) (hdigits : Numeral digits n) :
    splitAnySign (sign ++ digits) = (negative, digits) := by
  cases h with
  | none =>
    obtain ⟨c, t, rfl, -, hminus, hplus⟩ := numeral_head hdigits
    rw [List.nil_append, CommandLine.splitAnySign, if_neg hminus, if_neg hplus]
  | plus => rfl
  | minus => rfl

theorem exists_signText (t : Bytes) :
    ∃ sign, SignText sign (splitAnySign t).1 ∧ t = sign ++ (splitAnySign t).2 := by
  cases t with
  | nil => exact ⟨[], .none, rfl⟩
  | cons c t =>
    rw [splitAnySign]
    split
    · rename_i hc
      exact ⟨_, .minus, by rw [hc]; rfl⟩
    split
    · rename_i hc
      exact ⟨_, .plus, by rw [hc]; rfl⟩
    · exact ⟨_, .none, rfl⟩

theorem WordText.wordOfText? (h : WordText s negative n) (hn : n < Nat.pow 2 64) :
    wordOfText? s = some (signedWord negative n, []) := by
  cases h with
  | @intro blanks sign digits _ _ hblanks hsign hdigits =>
    have hdrop : (blanks ++ (sign ++ digits)).dropWhile isBlank = sign ++ digits :=
      Bytes.dropWhile_append_leaves hblanks (hsign.leaves_blank hdigits)
    have htake : digits.takeWhile Bytes.isDigit = digits :=
      List.takeWhile_eq_self_iff.mpr hdigits.isDigit
    have hrest : digits.dropWhile Bytes.isDigit = [] :=
      List.dropWhile_eq_nil_iff.mpr hdigits.isDigit
    have hword : ¬ (digits = [] ∨ Nat.pow 2 64 ≤ n) :=
      not_or.mpr ⟨hdigits.ne_nil, Nat.not_le.mpr hn⟩
    simp only [CommandLine.wordOfText?, hdrop, hsign.splitAnySign hdigits, htake, hrest,
      hdigits.value, if_neg hword]

theorem wordText_of_wordOfText? {w : UInt64} (h : wordOfText? s = some (w, [])) :
    ∃ negative n, WordText s negative n ∧ n < Nat.pow 2 64 ∧ w = signedWord negative n := by
  have hblanks : ∀ c ∈ s.takeWhile isBlank, isBlank c = true := fun c => Bytes.of_mem_takeWhile
  have hs : s.takeWhile isBlank ++ s.dropWhile isBlank = s := List.takeWhile_append_dropWhile
  obtain ⟨sign, hsign, ht⟩ := exists_signText (s.dropWhile isBlank)
  simp only [CommandLine.wordOfText?] at h
  split at h
  · cases h
  · rename_i hword
    obtain ⟨hw, hrest⟩ := Prod.mk.inj (Option.some.inj h)
    -- Nothing is left behind the digits, so all that follows the sign are digits.
    have hall := List.dropWhile_eq_nil_iff.mp hrest
    rw [List.takeWhile_eq_self_iff.mpr hall] at hword hw
    obtain ⟨hne, hn⟩ := not_or.mp hword
    refine ⟨_, _, ?_, Nat.not_le.mp hn, hw.symm⟩
    have htext := WordText.intro hblanks hsign (Bytes.numeral_of_digits hne hall)
    rwa [← ht, hs] at htext

theorem toNat_signedWord (hpos : 0 < n) (hn : n < Nat.pow 2 64) :
    (signedWord negative n).toNat = if negative then Nat.pow 2 64 - n else n := by
  have hword : (UInt64.ofNat n).toNat = n := UInt64.toNat_ofNat_of_lt' hn
  have hzero : (0 : UInt64).toNat = 0 := rfl
  have hpow : Nat.pow 2 64 = 18446744073709551616 := rfl
  cases negative with
  | false => exact hword
  | true =>
    simp only [signedWord, if_true, UInt64.toNat_sub, hword, hzero]
    omega

theorem signedWord_zero (negative : Bool) : signedWord negative 0 = 0 := by
  cases negative <;> rfl

theorem signedWord_ne_zero (hpos : 0 < n) (hn : n < Nat.pow 2 64) : signedWord negative n ≠ 0 := by
  intro hzero
  have hvalue : (0 : UInt64).toNat = if negative then Nat.pow 2 64 - n else n :=
    hzero ▸ toNat_signedWord hpos hn
  have hnone : (0 : UInt64).toNat = 0 := rfl
  split at hvalue <;> omega

theorem depthOfText?_eq_some_iff : depthOfText? s = some depth ↔ DepthText s depth := by
  constructor
  · intro h
    unfold depthOfText? at h
    split at h
    · rename_i w hw
      obtain ⟨negative, n, htext, hn, rfl⟩ := wordText_of_wordOfText? hw
      split at h
      · cases h
      · rename_i hne
        have hpos : 0 < n := Nat.pos_of_ne_zero fun hzero => hne (hzero ▸ signedWord_zero negative)
        rw [toNat_signedWord hpos hn] at h
        exact ⟨negative, n, htext, hpos, hn, (Option.some.inj h).symm⟩
    · cases h
  · rintro ⟨negative, n, htext, hpos, hn, rfl⟩
    rw [depthOfText?, htext.wordOfText? hn, ← toNat_signedWord hpos hn]
    exact if_neg (signedWord_ne_zero hpos hn)

def StartsPlain (s : Bytes) : Prop :=
  ∀ c ∈ s.head?, isBlank c = false ∧ c ≠ byte '+' ∧ c ≠ byte '-'

theorem WordText.numeral (h : WordText s negative n) (hs : StartsPlain s) :
    negative = false ∧ Numeral s n := by
  cases h with
  | @intro blanks sign digits _ _ hblanks hsign hdigits =>
    cases blanks with
    | nil =>
      cases hsign with
      | none => exact ⟨rfl, hdigits⟩
      | plus => exact absurd rfl (hs _ rfl).2.1
      | minus => exact absurd rfl (hs _ rfl).2.2
    | cons c blanks =>
      have hblank := hblanks c List.mem_cons_self
      rw [(hs c rfl).1] at hblank
      exact Bool.noConfusion hblank

theorem depthText_iff_numeral (hs : StartsPlain s) :
    DepthText s depth ↔ Numeral s depth ∧ 0 < depth ∧ depth < Nat.pow 2 64 := by
  constructor
  · rintro ⟨negative, n, htext, hpos, hn, rfl⟩
    obtain ⟨rfl, hdigits⟩ := htext.numeral hs
    exact ⟨hdigits, hpos, hn⟩
  · rintro ⟨hdigits, hpos, hn⟩
    exact ⟨false, depth, .intro (List.forall_mem_nil _) .none hdigits, hpos, hn, rfl⟩

end Reading

section Limit

variable {s : Bytes}

theorem parse?_depth_cons (o : Options) (s : Bytes) (rest : List Bytes) :
    o.parse? (utf8 "-d" :: s :: rest) =
      (depthOfText? s).bind fun limit => { o with limit }.parse? rest := by
  rw [Options.parse?, if_neg (by decide), if_pos rfl]

theorem depthOfText?_eq_none (h : ∀ depth, ¬ DepthText s depth) : depthOfText? s = none :=
  Option.eq_none_iff_forall_ne_some.mpr fun depth hdepth =>
    h depth (depthOfText?_eq_some_iff.mp hdepth)

/-- The option sets the limit if its value is a text for a depth, and is refused otherwise. Of the
texts without a blank or a sign in front, just the numerals for positive numbers below `2 ^ 64` are
texts for a depth. -/
theorem parse?_depth (o : Options) (s : Bytes) (rest : List Bytes) :
    (∀ depth, DepthText s depth →
      o.parse? (utf8 "-d" :: s :: rest) = { o with limit := depth }.parse? rest) ∧
    ((∀ depth, ¬ DepthText s depth) → o.parse? (utf8 "-d" :: s :: rest) = none) ∧
    (StartsPlain s → ∀ depth,
      DepthText s depth ↔ Numeral s depth ∧ 0 < depth ∧ depth < Nat.pow 2 64) := by
  rw [parse?_depth_cons]
  refine ⟨fun depth hdepth => ?_, fun hnone => ?_, fun hs depth => depthText_iff_numeral hs⟩
  · rw [depthOfText?_eq_some_iff.mpr hdepth, Option.bind_some]
  · rw [depthOfText?_eq_none hnone, Option.bind_none]

theorem parse?_depth_zeros :
    StartsPlain (utf8 "007") ∧ DepthText (utf8 "007") 7 ∧ Numeral (utf8 "007") 7 ∧
      Options.parse? {} [utf8 "-d", utf8 "007", utf8 "-q"] =
        Options.parse? { limit := 7 } [utf8 "-q"] ∧
      Options.parse? {} [utf8 "-d", utf8 "7 ", utf8 "-q"] = none := by
  have hs : StartsPlain (utf8 "007") := by
    intro c hc
    obtain rfl : byte '0' = c := Option.some.inj hc
    decide
  have hdepth : DepthText (utf8 "007") 7 := depthOfText?_eq_some_iff.mp (by decide)
  have hnone : ∀ depth, ¬ DepthText (utf8 "7 ") depth := by
    intro depth h
    have hread : depthOfText? (utf8 "7 ") = none := by decide
    rw [depthOfText?_eq_some_iff.mpr h] at hread
    cases hread
  obtain ⟨hset, -, hplain⟩ := parse?_depth {} (utf8 "007") [utf8 "-q"]
  exact ⟨hs, hdepth, ((hplain hs 7).mp hdepth).1, hset 7 hdepth,
    (parse?_depth {} (utf8 "7 ") [utf8 "-q"]).2.1 hnone⟩

/-- A minus sign and a one are no numeral, but set the greatest limit. -/
theorem parse?_depth_minusOne :
    (utf8 "-1").all Bytes.isDigit = false ∧
      (Options.parse? {} [utf8 "-d", utf8 "-1"]).map Options.limit = some (Nat.pow 2 64 - 1) := by
  decide

end Limit
end ClauseLisp.CommandLine
