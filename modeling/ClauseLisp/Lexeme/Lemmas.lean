import ClauseLisp.Lexeme.Scan

/-! Scanning loses no byte: what a scan takes starts with its first byte, and together with what it
leaves is its input. -/

namespace ClauseLisp.Lexeme

theorem gap_append (inComment : Bool) (s : Bytes) :
    (gap inComment s).1 ++ (gap inComment s).2 = s := by
  fun_induction gap inComment s <;> simp_all

theorem gap_length_le (inComment : Bool) (s : Bytes) :
    (gap inComment s).2.length ≤ s.length := by
  have h := congrArg List.length (gap_append inComment s)
  simp only [List.length_append] at h
  omega

/-- The cut takes `c` and an initial part of `s`, and leaves the rest of `s`. -/
def Cut.Splits (cut : Cut) (c : UInt8) (s : Bytes) : Prop :=
  ∃ t, cut.taken = c :: t ∧ t ++ cut.rest = s

theorem stringBody?_append {s v t r : Bytes} (h : stringBody? s = some (v, t, r)) :
    t ++ r = s := by
  fun_induction stringBody? s generalizing v t r with
  | case1 => simp at h
  | case2 => simp_all
  | case3 => simp at h
  | case4 => grind
  | case5 _ _ _ ih =>
    obtain ⟨⟨v', t', r'⟩, h', heq⟩ := Option.map_eq_some_iff.mp h
    grind
  | case6 _ _ _ _ _ ih =>
    obtain ⟨⟨v', t', r'⟩, h', heq⟩ := Option.map_eq_some_iff.mp h
    grind

theorem digitsAndPlaces_append (s : Bytes) :
    (digitsAndPlaces s).1 ++ (digitsAndPlaces s).2 = s := by
  have h := List.takeWhile_append_dropWhile (p := Bytes.isDigit) (l := s)
  simp only [digitsAndPlaces]
  split <;> rename_i hd <;> rw [hd] at h
  · simpa using h
  · split
    · simpa using h
    · exact h

theorem interpolation_splits {s : Bytes} {cut : Cut} (h : interpolation s = .ok cut) :
    cut.Splits (byte '~') (Bracket.brace.opener :: s) := by
  have hs := List.takeWhile_append_dropWhile (p := (· != Bracket.brace.closer)) (l := s)
  simp only [interpolation] at h
  split at h
  · simp at h
  · rename_i c rest hd
    have hc : c = Bracket.brace.closer := by
      have := List.head?_dropWhile_not (· != Bracket.brace.closer) s
      rw [hd] at this
      simpa using this
    split at h
    · simp at h
    · obtain rfl : _ = cut := by simpa using h
      rw [hd, hc] at hs
      exact ⟨_, rfl, by simp [hs]⟩

theorem tilde_splits {s : Bytes} {cut : Cut} (h : tilde s = .ok cut) :
    cut.Splits (byte '~') s := by
  cases s with
  | nil =>
    obtain rfl : _ = cut := by simpa [tilde] using h
    exact ⟨[], rfl, rfl⟩
  | cons c s =>
    simp only [tilde] at h
    split at h
    · rename_i hc
      obtain rfl : _ = cut := by simpa using h
      exact ⟨[byte '@'], rfl, by simp [hc]⟩
    · split at h
      · rename_i hc
        exact hc ▸ interpolation_splits h
      · obtain rfl : _ = cut := by simpa using h
        exact ⟨[], rfl, rfl⟩

theorem string_splits {s : Bytes} {cut : Cut} (h : string s = .ok cut) :
    cut.Splits (byte '"') s := by
  simp only [string] at h
  split at h
  · simp at h
  · rename_i hb
    obtain rfl : _ = cut := by simpa using h
    exact ⟨_, rfl, stringBody?_append hb⟩

theorem keyword_splits {s : Bytes} {cut : Cut} (h : keyword s = .ok cut) :
    cut.Splits (byte ':') s := by
  simp only [keyword] at h
  split at h
  · simp at h
  · split at h
    · simp at h
    · obtain rfl : _ = cut := by simpa using h
      exact ⟨_, rfl, by simp⟩

theorem number_splits {c : UInt8} {s : Bytes} {cut : Cut} (h : number c s = .ok cut) :
    cut.Splits c s := by
  simp only [number] at h
  split at h
  · obtain rfl : _ = cut := by simpa using h
    exact ⟨_, rfl, digitsAndPlaces_append s⟩
  · simp at h

theorem symbol_splits {c : UInt8} {s : Bytes} {cut : Cut} (h : symbol c s = .ok cut) :
    cut.Splits c s := by
  simp only [symbol] at h
  split at h
  · simp at h
  · obtain rfl : _ = cut := by simpa using h
    exact ⟨_, rfl, by simp⟩

theorem scan_splits {c : UInt8} {s : Bytes} {cut : Cut} (h : scan c s = .ok cut) :
    cut.Splits c s := by
  simp only [scan] at h
  split at h
  · obtain rfl : _ = cut := by simpa using h
    exact ⟨[], rfl, rfl⟩
  · split at h
    · rename_i hc
      exact hc ▸ tilde_splits h
    · split at h
      · rename_i hc
        exact hc ▸ string_splits h
      · split at h
        · rename_i hc
          exact hc ▸ keyword_splits h
        · split at h
          · exact number_splits h
          · exact symbol_splits h

theorem scan_rest_length_le {c : UInt8} {s : Bytes} {cut : Cut} (h : scan c s = .ok cut) :
    cut.rest.length ≤ s.length := by
  obtain ⟨t, -, ht⟩ := scan_splits h
  simp [← ht]

end ClauseLisp.Lexeme
