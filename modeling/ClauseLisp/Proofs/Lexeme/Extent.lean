import ClauseLisp.Lexeme.Lemmas
import ClauseLisp.Proofs.Bytes

/-! How far a lexeme reaches. A scan goes on as long as it can, and what it takes does not depend on
the bytes behind it, as long as these cannot continue the lexeme. -/

namespace ClauseLisp

theorem isDigit_of_isDelimiter : ∀ c, isDelimiter c = true → Bytes.isDigit c = false := by
  decide +kernel

theorem isDigit_period : Bytes.isDigit (byte '.') = false := by decide

namespace Lexeme

open Bytes (Leaves)

/-- The bytes `rest` cannot continue a lexeme that was read from `taken`. -/
def Stops : Lexeme → Bytes → Bytes → Prop
  | .atom (.number _), taken, rest =>
    Leaves Bytes.isDigit rest ∧ (byte '.' ∉ taken → Leaves (· == byte '.') rest)
  | .atom .nil, _, rest => Leaves (!isDelimiter ·) rest
  | .atom (.boolean _), _, rest => Leaves (!isDelimiter ·) rest
  | .atom (.symbol _), _, rest => Leaves (!isDelimiter ·) rest
  | .atom (.keyword _), _, rest => Leaves (!isDelimiter ·) rest
  | .mark .unquote, _, rest =>
    Leaves (· == byte '@') rest ∧ Leaves (· == Bracket.brace.opener) rest
  | _, _, _ => True

theorem leaves_nil (p : UInt8 → Bool) : Leaves p [] := by simp [Leaves]

theorem stops_nil (l : Lexeme) (taken : Bytes) : l.Stops taken [] := by
  unfold Stops
  split <;> simp [leaves_nil]

theorem stops_ofWord (name taken rest : Bytes) :
    (ofWord name).Stops taken rest ↔ Leaves (!isDelimiter ·) rest := by
  unfold ofWord
  repeat' split
  all_goals rfl

/-- What a scan took it takes again in front of any `rest` that stops the lexeme. -/
def Cut.Extends (cut : Cut) (c : UInt8) (scan : Bytes → Except Failure Cut) : Prop :=
  ∀ t rest, cut.taken = c :: t → cut.lexeme.Stops cut.taken rest →
    scan (t ++ rest) = .ok ⟨cut.lexeme, cut.taken, rest⟩

theorem symbol_eq_ok_iff {c : UInt8} {s : Bytes} {cut : Cut} :
    symbol c s = .ok cut ↔ checkName [] (c :: s.takeWhile (!isDelimiter ·)) = .ok () ∧
      cut = ⟨ofWord (c :: s.takeWhile (!isDelimiter ·)), c :: s.takeWhile (!isDelimiter ·),
        s.dropWhile (!isDelimiter ·)⟩ := by
  simp only [symbol]
  split <;> rename_i h <;> simp [h, eq_comm]

theorem symbol_stops {c : UInt8} {s : Bytes} {cut : Cut} (h : symbol c s = .ok cut) :
    cut.lexeme.Stops cut.taken cut.rest := by
  obtain ⟨-, rfl⟩ := symbol_eq_ok_iff.mp h
  exact (stops_ofWord _ _ _).mpr (Bytes.leaves_dropWhile _ s)

theorem symbol_extends {c : UInt8} {s : Bytes} {cut : Cut} (h : symbol c s = .ok cut) :
    cut.Extends c (symbol c) := by
  obtain ⟨hname, rfl⟩ := symbol_eq_ok_iff.mp h
  intro t rest ht hrest
  obtain rfl : s.takeWhile (!isDelimiter ·) = t := List.cons.inj ht |>.2
  have hall : ∀ d ∈ s.takeWhile (!isDelimiter ·), (!isDelimiter d) = true :=
    fun _ => Bytes.of_mem_takeWhile
  have hleaves := (stops_ofWord _ _ _).mp hrest
  rw [symbol_eq_ok_iff, Bytes.takeWhile_append_leaves hall hleaves,
    Bytes.dropWhile_append_leaves hall hleaves]
  exact ⟨hname, rfl⟩

theorem keyword_eq_ok_iff {s : Bytes} {cut : Cut} :
    keyword s = .ok cut ↔ checkName (utf8 ":") (s.takeWhile (!isDelimiter ·)) = .ok () ∧
      s.takeWhile (!isDelimiter ·) ≠ [] ∧
      cut = ⟨.atom (.keyword (s.takeWhile (!isDelimiter ·))),
        byte ':' :: s.takeWhile (!isDelimiter ·), s.dropWhile (!isDelimiter ·)⟩ := by
  simp only [keyword]
  split <;> rename_i h
  · simp [h]
  · split <;> rename_i hname <;> simp [h, hname, eq_comm]

theorem keyword_stops {s : Bytes} {cut : Cut} (h : keyword s = .ok cut) :
    cut.lexeme.Stops cut.taken cut.rest := by
  obtain ⟨-, -, rfl⟩ := keyword_eq_ok_iff.mp h
  exact Bytes.leaves_dropWhile _ s

theorem keyword_extends {s : Bytes} {cut : Cut} (h : keyword s = .ok cut) :
    cut.Extends (byte ':') keyword := by
  obtain ⟨hname, hne, rfl⟩ := keyword_eq_ok_iff.mp h
  intro t rest ht hrest
  obtain rfl : s.takeWhile (!isDelimiter ·) = t := List.cons.inj ht |>.2
  have hall : ∀ d ∈ s.takeWhile (!isDelimiter ·), (!isDelimiter d) = true :=
    fun _ => Bytes.of_mem_takeWhile
  rw [keyword_eq_ok_iff, Bytes.takeWhile_append_leaves hall hrest,
    Bytes.dropWhile_append_leaves hall hrest]
  exact ⟨hname, hne, rfl⟩

theorem stringBody?_quote (s : Bytes) :
    stringBody? (byte '"' :: s) = some ([], [byte '"'], s) := by
  cases s <;> simp [stringBody?]

theorem stringBody?_escape (e : UInt8) (s : Bytes) :
    stringBody? (byte '\\' :: e :: s) =
      (stringBody? s).map fun (v, t, r) => (unescape e ++ v, byte '\\' :: e :: t, r) := by
  rw [stringBody?, if_neg (by decide), if_pos rfl]

theorem stringBody?_plain {c : UInt8} (hq : c ≠ byte '"') (hb : c ≠ byte '\\') (s : Bytes) :
    stringBody? (c :: s) = (stringBody? s).map fun (v, t, r) => (c :: v, c :: t, r) := by
  cases s <;> simp [stringBody?, hq, hb]

theorem stringBody?_extend {s v t r : Bytes} (h : stringBody? s = some (v, t, r)) (rest : Bytes) :
    stringBody? (t ++ rest) = some (v, t, rest) := by
  fun_induction stringBody? s generalizing v t r with
  | case1 => simp at h
  | case2 =>
    obtain ⟨rfl, rfl, rfl⟩ : [] = v ∧ [byte '"'] = t ∧ [] = r := by simpa using h
    exact stringBody?_quote rest
  | case3 => simp at h
  | case4 =>
    obtain ⟨rfl, rfl, -⟩ : [] = v ∧ [byte '"'] = t ∧ _ = r := by simpa using h
    exact stringBody?_quote rest
  | case5 e s hq ih =>
    obtain ⟨⟨v', t', r'⟩, h', heq⟩ := Option.map_eq_some_iff.mp h
    obtain ⟨rfl, rfl, rfl⟩ := by simpa using heq
    simp [stringBody?_escape, ih h']
  | case6 c e s hq hb ih =>
    obtain ⟨⟨v', t', r'⟩, h', heq⟩ := Option.map_eq_some_iff.mp h
    obtain ⟨rfl, rfl, rfl⟩ := by simpa using heq
    simp [stringBody?_plain hq hb, ih h']

theorem string_eq_ok_iff {s : Bytes} {cut : Cut} :
    string s = .ok cut ↔ ∃ v t r, stringBody? s = some (v, t, r) ∧
      cut = ⟨.atom (.string v), byte '"' :: t, r⟩ := by
  simp only [string]
  split <;> rename_i hbody
  · simp [hbody]
  · constructor
    · intro h
      exact ⟨_, _, _, hbody, by simpa [eq_comm] using h⟩
    · rintro ⟨v, t, r, h, rfl⟩
      obtain ⟨rfl, rfl, rfl⟩ := by simpa [hbody] using h
      rfl

theorem string_extends {s : Bytes} {cut : Cut} (h : string s = .ok cut) :
    cut.Extends (byte '"') string := by
  obtain ⟨v, t, r, hbody, rfl⟩ := string_eq_ok_iff.mp h
  intro t' rest ht _
  obtain rfl : t = t' := List.cons.inj ht |>.2
  exact string_eq_ok_iff.mpr ⟨v, t, rest, stringBody?_extend hbody rest, rfl⟩

theorem interpolation_eq_ok_iff {s : Bytes} {cut : Cut} :
    interpolation s = .ok cut ↔ ∃ name rest, s = name ++ Bracket.brace.closer :: rest ∧
      Bracket.brace.closer ∉ name ∧ name ≠ [] ∧
      cut = ⟨.atom (.interpolation name), interpolationText name, rest⟩ := by
  constructor
  · intro h
    have hs := List.takeWhile_append_dropWhile (p := (· != Bracket.brace.closer)) (l := s)
    have hl := Bytes.leaves_dropWhile (· != Bracket.brace.closer) s
    simp only [interpolation] at h
    split at h
    · simp at h
    · rename_i c rest hd
      rw [hd] at hs hl
      obtain rfl : c = Bracket.brace.closer := by simpa using hl c rfl
      split at h
      · simp at h
      · rename_i hname
        refine ⟨_, rest, hs.symm, ?_, hname, by simpa [eq_comm] using h⟩
        intro hmem
        simpa using Bytes.of_mem_takeWhile hmem
  · rintro ⟨name, rest, rfl, hmem, hname, rfl⟩
    have hall : ∀ d ∈ name, (d != Bracket.brace.closer) = true := by
      intro d hd
      simpa using fun h : d = Bracket.brace.closer => hmem (h ▸ hd)
    have hl : Bytes.Leaves (· != Bracket.brace.closer) (Bracket.brace.closer :: rest) := by
      simp [Bytes.Leaves]
    simp only [interpolation]
    rw [Bytes.takeWhile_append_leaves hall hl, Bytes.dropWhile_append_leaves hall hl]
    simp [hname]

theorem tilde_stops {s : Bytes} {cut : Cut} (h : tilde s = .ok cut) :
    cut.lexeme.Stops cut.taken cut.rest := by
  cases s with
  | nil =>
    obtain rfl : _ = cut := by simpa [tilde] using h
    exact stops_nil _ _
  | cons c s =>
    simp only [tilde] at h
    split at h
    · obtain rfl : _ = cut := by simpa using h
      trivial
    · split at h
      · obtain ⟨name, rest, -, -, -, rfl⟩ := interpolation_eq_ok_iff.mp h
        trivial
      · rename_i hat hbrace
        obtain rfl : _ = cut := by simpa using h
        exact ⟨by simpa [Leaves] using hat, by simpa [Leaves] using hbrace⟩

theorem tilde_of_leaves {s : Bytes} (hat : Leaves (· == byte '@') s)
    (hbrace : Leaves (· == Bracket.brace.opener) s) :
    tilde s = .ok ⟨.mark .unquote, utf8 "~", s⟩ := by
  cases s with
  | nil => rfl
  | cons c s => simp [tilde, show c ≠ byte '@' by simpa using hat c rfl,
      show c ≠ Bracket.brace.opener by simpa using hbrace c rfl]

theorem tilde_brace (s : Bytes) : tilde (Bracket.brace.opener :: s) = interpolation s := by
  rw [tilde, if_neg (by decide), if_pos rfl]

theorem tilde_extends {s : Bytes} {cut : Cut} (h : tilde s = .ok cut) :
    cut.Extends (byte '~') tilde := by
  intro t rest ht hrest
  cases s with
  | nil =>
    obtain rfl : _ = cut := by simpa [tilde] using h
    obtain rfl : [] = t := List.cons.inj ht |>.2
    exact tilde_of_leaves hrest.1 hrest.2
  | cons c s =>
    simp only [tilde] at h
    split at h
    · obtain rfl : _ = cut := by simpa using h
      obtain rfl : [byte '@'] = t := List.cons.inj ht |>.2
      rfl
    · split at h
      · obtain ⟨name, rest', -, hmem, hname, rfl⟩ := interpolation_eq_ok_iff.mp h
        obtain rfl : Bracket.brace.opener :: (name ++ [Bracket.brace.closer]) = t :=
          List.cons.inj ht |>.2
        rw [List.cons_append, tilde_brace]
        exact interpolation_eq_ok_iff.mpr ⟨name, rest, by simp, hmem, hname, rfl⟩
      · obtain rfl : _ = cut := by simpa using h
        obtain rfl : [] = t := List.cons.inj ht |>.2
        exact tilde_of_leaves hrest.1 hrest.2

theorem digitsAndPlaces_cases (s : Bytes) :
    (digitsAndPlaces s = (s.takeWhile Bytes.isDigit, s.dropWhile Bytes.isDigit) ∧
      Leaves (· == byte '.') (s.dropWhile Bytes.isDigit)) ∨
    ∃ t, s.dropWhile Bytes.isDigit = byte '.' :: t ∧
      digitsAndPlaces s = (s.takeWhile Bytes.isDigit ++ byte '.' :: t.takeWhile Bytes.isDigit,
        t.dropWhile Bytes.isDigit) := by
  simp only [digitsAndPlaces]
  split <;> rename_i hd
  · left
    rw [hd]
    exact ⟨rfl, leaves_nil _⟩
  · rename_i c t
    split <;> rename_i hc
    · exact Or.inr ⟨t, by rw [hd, hc], by rw [hc]⟩
    · left
      rw [hd]
      exact ⟨rfl, by simpa [Leaves] using hc⟩

theorem digitsAndPlaces_whole {whole rest : Bytes} (hw : ∀ c ∈ whole, Bytes.isDigit c = true)
    (hd : Leaves Bytes.isDigit rest) (hp : Leaves (· == byte '.') rest) :
    digitsAndPlaces (whole ++ rest) = (whole, rest) := by
  rw [digitsAndPlaces, Bytes.takeWhile_append_leaves hw hd, Bytes.dropWhile_append_leaves hw hd]
  cases rest with
  | nil => rfl
  | cons c rest => simp [show c ≠ byte '.' by simpa using hp c rfl]

theorem digitsAndPlaces_places {whole places rest : Bytes}
    (hw : ∀ c ∈ whole, Bytes.isDigit c = true) (hp : ∀ c ∈ places, Bytes.isDigit c = true)
    (hd : Leaves Bytes.isDigit rest) :
    digitsAndPlaces (whole ++ byte '.' :: places ++ rest) =
      (whole ++ byte '.' :: places, rest) := by
  have hl : Leaves Bytes.isDigit (byte '.' :: (places ++ rest)) := by
    simp [Leaves, isDigit_period]
  rw [List.append_assoc, List.cons_append, digitsAndPlaces, Bytes.takeWhile_append_leaves hw hl,
    Bytes.dropWhile_append_leaves hw hl]
  simp [Bytes.takeWhile_append_leaves hp hd, Bytes.dropWhile_append_leaves hp hd]

theorem digitsAndPlaces_extend {c : UInt8} {s rest : Bytes} (hc : c ≠ byte '.')
    (hd : Leaves Bytes.isDigit rest)
    (hp : byte '.' ∉ c :: (digitsAndPlaces s).1 → Leaves (· == byte '.') rest) :
    digitsAndPlaces ((digitsAndPlaces s).1 ++ rest) = ((digitsAndPlaces s).1, rest) := by
  have hw : ∀ c ∈ s.takeWhile Bytes.isDigit, Bytes.isDigit c = true :=
    fun _ => Bytes.of_mem_takeWhile
  obtain ⟨hs, -⟩ | ⟨t, -, hs⟩ := digitsAndPlaces_cases s
  · have hno : byte '.' ∉ c :: s.takeWhile Bytes.isDigit := by
      rw [List.mem_cons, not_or]
      refine ⟨hc.symm, fun hmem => ?_⟩
      simpa [isDigit_period] using hw _ hmem
    rw [hs] at hp ⊢
    exact digitsAndPlaces_whole hw hd (hp hno)
  · rw [hs]
    exact digitsAndPlaces_places hw (fun _ => Bytes.of_mem_takeWhile) hd

theorem number_eq_ok_iff {c : UInt8} {s : Bytes} {cut : Cut} :
    number c s = .ok cut ↔ ∃ n, numberOfText (c :: (digitsAndPlaces s).1) = .ok n ∧
      cut = ⟨.atom (.number n), c :: (digitsAndPlaces s).1, (digitsAndPlaces s).2⟩ := by
  simp only [number]
  split <;> rename_i h <;> simp [h, eq_comm]

theorem number_stops {c : UInt8} {s : Bytes} {cut : Cut} (h : number c s = .ok cut) :
    cut.lexeme.Stops cut.taken cut.rest := by
  obtain ⟨n, -, rfl⟩ := number_eq_ok_iff.mp h
  obtain ⟨hs, hp⟩ | ⟨t, -, hs⟩ := digitsAndPlaces_cases s
  · rw [hs]
    exact ⟨Bytes.leaves_dropWhile _ s, fun _ => hp⟩
  · rw [hs]
    exact ⟨Bytes.leaves_dropWhile _ t, fun hno => absurd (by simp) hno⟩

theorem number_extends {c : UInt8} {s : Bytes} {cut : Cut} (hc : c ≠ byte '.')
    (h : number c s = .ok cut) : cut.Extends c (number c) := by
  obtain ⟨n, hn, rfl⟩ := number_eq_ok_iff.mp h
  intro t rest ht hrest
  obtain rfl : (digitsAndPlaces s).1 = t := List.cons.inj ht |>.2
  rw [number_eq_ok_iff, digitsAndPlaces_extend hc hrest.1 hrest.2]
  exact ⟨n, hn, rfl⟩

def startsWord (c : UInt8) : Bool :=
  (single? c).isNone && c != byte '~' && c != byte '"' && c != byte ':'

theorem scan_single {c : UInt8} {l : Lexeme} (h : single? c = some l) (s : Bytes) :
    scan c s = .ok ⟨l, [c], s⟩ := by
  simp [scan, h]

theorem scan_tilde (s : Bytes) : scan (byte '~') s = tilde s := by
  rw [scan, show single? (byte '~') = none by decide]
  exact if_pos rfl

theorem scan_quote (s : Bytes) : scan (byte '"') s = string s := by
  rw [scan, show single? (byte '"') = none by decide]
  exact (if_neg (by decide)).trans (if_pos rfl)

theorem scan_colon (s : Bytes) : scan (byte ':') s = keyword s := by
  rw [scan, show single? (byte ':') = none by decide]
  exact (if_neg (by decide)).trans ((if_neg (by decide)).trans (if_pos rfl))

theorem scan_word {c : UInt8} (h : startsWord c = true) (s : Bytes) :
    scan c s = if startsNumber c s then number c s else symbol c s := by
  simp only [startsWord, Bool.and_eq_true, Option.isNone_iff_eq_none, bne_iff_ne] at h
  obtain ⟨⟨⟨hs, ht⟩, hq⟩, hc⟩ := h
  simp [scan, hs, ht, hq, hc]

theorem scan_cases {c : UInt8} {s : Bytes} {cut : Cut} (h : scan c s = .ok cut) :
    (∃ l, single? c = some l ∧ cut = ⟨l, [c], s⟩) ∨ (c = byte '~' ∧ tilde s = .ok cut) ∨
      (c = byte '"' ∧ string s = .ok cut) ∨ (c = byte ':' ∧ keyword s = .ok cut) ∨
      (startsWord c = true ∧ startsNumber c s = true ∧ number c s = .ok cut) ∨
      (startsWord c = true ∧ startsNumber c s = false ∧ symbol c s = .ok cut) := by
  by_cases hw : startsWord c = true
  · rw [scan_word hw] at h
    split at h
    · rename_i hn
      simp [hw, hn, h]
    · rename_i hn
      simp [hw, h, Bool.eq_false_iff.mpr hn]
  · cases hs : single? c with
    | some l =>
      rw [scan_single hs] at h
      exact Or.inl ⟨l, rfl, (Except.ok.inj h).symm⟩
    | none =>
      have hc : c = byte '~' ∨ c = byte '"' ∨ c = byte ':' := by
        simp only [startsWord, hs, Option.isNone_none, Bool.true_and, Bool.and_eq_true, bne_iff_ne,
          not_and, Decidable.not_not] at hw
        by_cases ht : c = byte '~'
        · exact Or.inl ht
        · by_cases hq : c = byte '"'
          · exact Or.inr (Or.inl hq)
          · exact Or.inr (Or.inr (hw ⟨ht, hq⟩))
      rcases hc with rfl | rfl | rfl
      · exact Or.inr (Or.inl ⟨rfl, scan_tilde s ▸ h⟩)
      · exact Or.inr (Or.inr (Or.inl ⟨rfl, scan_quote s ▸ h⟩))
      · exact Or.inr (Or.inr (Or.inr (Or.inl ⟨rfl, scan_colon s ▸ h⟩)))

theorem stops_single {c : UInt8} {l : Lexeme} (h : single? c = some l) (taken rest : Bytes) :
    l.Stops taken rest := by
  unfold single? at h
  repeat' split at h
  all_goals first | (obtain rfl := Option.some.inj h; trivial) | simp at h

theorem scan_stops {c : UInt8} {s : Bytes} {cut : Cut} (h : scan c s = .ok cut) :
    cut.lexeme.Stops cut.taken cut.rest := by
  rcases scan_cases h with ⟨l, hl, rfl⟩ | ⟨-, h⟩ | ⟨-, h⟩ | ⟨-, h⟩ | ⟨-, -, h⟩ | ⟨-, -, h⟩
  · exact stops_single hl _ _
  · exact tilde_stops h
  · obtain ⟨v, t, r, -, rfl⟩ := string_eq_ok_iff.mp h
    trivial
  · exact keyword_stops h
  · exact number_stops h
  · exact symbol_stops h

theorem startsNumber_ne_period {c : UInt8} {s : Bytes} (h : startsNumber c s = true) :
    c ≠ byte '.' := by
  rintro rfl
  simp [startsNumber, isDigit_period, show byte '.' ≠ byte '-' by decide] at h

theorem startsNumber_digits {c : UInt8} {s : Bytes} (h : startsNumber c s = true)
    (rest : Bytes) : startsNumber c ((digitsAndPlaces s).1 ++ rest) = true := by
  simp only [startsNumber, Bool.or_eq_true, Bool.and_eq_true] at h ⊢
  refine h.imp id fun ⟨hc, hd⟩ => ⟨hc, ?_⟩
  cases s with
  | nil => simp at hd
  | cons d s =>
    have hd : Bytes.isDigit d = true := by simpa using hd
    have hw : (d :: s).takeWhile Bytes.isDigit = d :: s.takeWhile Bytes.isDigit := by simp [hd]
    obtain ⟨hs, -⟩ | ⟨t, -, hs⟩ := digitsAndPlaces_cases (d :: s) <;> simp [hs, hw, hd]

theorem startsNumber_name {c : UInt8} {s rest : Bytes} (h : startsNumber c s = false)
    (hrest : Leaves (!isDelimiter ·) rest) :
    startsNumber c (s.takeWhile (!isDelimiter ·) ++ rest) = false := by
  have hr : rest.head?.any Bytes.isDigit = false := by
    cases rest with
    | nil => rfl
    | cons d rest => exact isDigit_of_isDelimiter d (by simpa using hrest d rfl)
  simp only [startsNumber, Bool.or_eq_false_iff, Bool.and_eq_false_iff] at h ⊢
  refine ⟨h.1, h.2.imp id fun hs => ?_⟩
  cases s with
  | nil => simpa using hr
  | cons d s =>
    by_cases hd : isDelimiter d = true
    · simpa [hd] using hr
    · simpa [hd] using hs

theorem scan_extends {c : UInt8} {s : Bytes} {cut : Cut} (h : scan c s = .ok cut) :
    cut.Extends c (scan c) := by
  intro t rest ht hrest
  rcases scan_cases h with ⟨l, hl, rfl⟩ | ⟨rfl, h⟩ | ⟨rfl, h⟩ | ⟨rfl, h⟩ | ⟨hw, hn, h⟩ | ⟨hw, hn, h⟩
  · obtain rfl : [] = t := List.cons.inj ht |>.2
    exact scan_single hl rest
  · exact scan_tilde _ ▸ tilde_extends h t rest ht hrest
  · exact scan_quote _ ▸ string_extends h t rest ht hrest
  · exact scan_colon _ ▸ keyword_extends h t rest ht hrest
  · have hcut := number_extends (startsNumber_ne_period hn) h t rest ht hrest
    obtain ⟨n, -, rfl⟩ := number_eq_ok_iff.mp h
    obtain rfl : (digitsAndPlaces s).1 = t := List.cons.inj ht |>.2
    -- A number is told by its first two bytes, which are its own.
    rw [scan_word hw, startsNumber_digits hn]
    exact hcut
  · have hcut := symbol_extends h t rest ht hrest
    obtain ⟨-, rfl⟩ := symbol_eq_ok_iff.mp h
    obtain rfl : s.takeWhile (!isDelimiter ·) = t := List.cons.inj ht |>.2
    rw [scan_word hw, startsNumber_name hn ((stops_ofWord _ _ _).mp hrest)]
    exact hcut

end Lexeme
end ClauseLisp
