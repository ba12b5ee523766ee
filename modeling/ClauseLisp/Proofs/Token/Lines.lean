import ClauseLisp.Proofs.Token.Steps
import Mathlib.Data.List.Basic

/-! Tokens of texts that are put together line by line. No lexeme and no comment reaches over the end
of a line at which a text that can be read ends, so the tokens of what follows are those it has
alone, further down. -/

namespace ClauseLisp

def newline : UInt8 := byte '\n'

def linesBefore (a : Bytes) : UInt32 := UInt32.ofNat (a.count newline + 1)

namespace Location

def lowered (n : UInt32) (loc : Location) : Location := { loc with line := loc.line + n }

theorem next_lowered (n : UInt32) (loc : Location) (c : UInt8) :
    (loc.lowered n).next c = (loc.next c).lowered n := by
  have hline : loc.line + n + 1 = loc.line + 1 + n := by ac_rfl
  unfold next
  split
  · simp [lowered, hline]
  · rfl

theorem advance_lowered (n : UInt32) (loc : Location) (s : Bytes) :
    (loc.lowered n).advance s = (loc.advance s).lowered n := by
  induction s generalizing loc with
  | nil => rfl
  | cons c s ih =>
    have hnext := ih (loc.next c)
    rw [← next_lowered] at hnext
    exact hnext

theorem advance_line (loc : Location) (s : Bytes) :
    loc.advance (s ++ [newline]) = ⟨loc.file, loc.line + linesBefore s, 1⟩ := by
  induction s generalizing loc with
  | nil => rfl
  | cons c s ih =>
    have hrest : loc.advance (c :: s ++ [newline]) = (loc.next c).advance (s ++ [newline]) := rfl
    rw [hrest, ih]
    by_cases hc : c = newline
    · have hnext : loc.next c = { loc with line := loc.line + 1, column := 1 } := if_pos hc
      have hcount : linesBefore (c :: s) = 1 + linesBefore s := by
        rw [linesBefore, hc, List.count_cons_self, Nat.add_comm _ 1, UInt32.ofNat_add]
        rfl
      rw [hnext, hcount, UInt32.add_assoc]
    · have hnext : loc.next c = { loc with column := loc.column + 1 } := if_neg hc
      have hcount : linesBefore (c :: s) = linesBefore s := by
        rw [linesBefore, List.count_cons_of_ne hc, linesBefore]
      rw [hnext, hcount]

theorem advance_start_line (file s : Bytes) :
    (start file).advance (s ++ [newline]) = (start file).lowered (linesBefore s) :=
  advance_line (start file) s

end Location

namespace Lexeme

open Bytes (Leaves)

/-- One of the texts ends or starts a line where they meet. -/
def Separated (a b : Bytes) : Prop := a.getLast? = some newline ∨ b.head? = some newline

theorem Separated.tail {c : UInt8} {a b : Bytes} (h : Separated (c :: a) b) (ha : a ≠ []) :
    Separated a b := by
  rcases h with h | h
  · rw [List.getLast?_cons_of_ne_nil ha] at h
    exact Or.inl h
  · exact Or.inr h

theorem gap_append_of_ne {inComment : Bool} {a : Bytes} (h : (gap inComment a).2 ≠ []) (b : Bytes) :
    gap inComment (a ++ b) = ((gap inComment a).1, (gap inComment a).2 ++ b) := by
  fun_induction gap inComment a with
  | case1 => exact absurd rfl h
  | case2 inComment c s hc g r hg ih =>
    rw [hg] at ih
    simp [gap, hc, ih h]
  | case3 inComment c s hw hc g r hg ih =>
    rw [hg] at ih
    simp [gap, hw, hc, ih h]
  | case4 inComment c s hw hc => simp [gap, hw, hc]

theorem gap_append_of_eq {inComment : Bool} {a b : Bytes} (h : (gap inComment a).2 = [])
    (hab : inComment = false ∧ a = [] ∨ Separated a b) :
    gap inComment (a ++ b) = (a ++ (gap false b).1, (gap false b).2) := by
  -- The newline ends a comment, so the gap goes on.
  fun_induction gap inComment a with
  | case1 inComment =>
    rcases hab with ⟨rfl, -⟩ | hnil | hb
    · rfl
    · simp at hnil
    · obtain ⟨s, rfl⟩ := List.head?_eq_some_iff.mp hb
      have hw : isWhitespace newline = true := by decide
      have hn : (newline == byte '\n') = true := by decide
      simp [gap, hw, hn]
  | case2 inComment c s hc g r hg ih =>
    have hrest : false = false ∧ s = [] ∨ Separated s b := by
      by_cases hs : s = []
      · exact Or.inl ⟨rfl, hs⟩
      · rcases hab with ⟨-, hnil⟩ | hab
        · simp at hnil
        · exact Or.inr (hab.tail hs)
    rw [hg] at ih
    have := ih h hrest
    simp [gap, hc, this]
  | case3 inComment c s hw hc g r hg ih =>
    have hne : c ≠ newline := by
      rintro rfl
      exact hw (by cases inComment <;> decide)
    have hrest : true = false ∧ s = [] ∨ Separated s b := by
      rcases hab with ⟨-, hnil⟩ | hab
      · simp at hnil
      · by_cases hs : s = []
        · subst hs
          rcases hab with ha | hb
          · exact absurd (by simpa using ha) hne
          · exact Or.inr (Or.inr hb)
        · exact Or.inr (hab.tail hs)
    rw [hg] at ih
    have := ih h hrest
    simp [gap, hw, hc, this]
  | case4 inComment c s hw hc => simp at h

theorem stops_newline (l : Lexeme) (taken b : Bytes) : l.Stops taken (newline :: b) := by
  have hleaves : ∀ {p : UInt8 → Bool}, p newline = false → Leaves p (newline :: b) := by
    intro p hp c hc
    obtain rfl : newline = c := by simpa using hc
    exact hp
  unfold Stops
  split
  · exact ⟨hleaves (by decide), fun _ => hleaves (by decide)⟩
  · exact hleaves (by decide)
  · exact hleaves (by decide)
  · exact hleaves (by decide)
  · exact hleaves (by decide)
  · exact ⟨hleaves (by decide), hleaves (by decide)⟩
  · trivial

theorem Stops.append {l : Lexeme} {taken rest : Bytes} (h : l.Stops taken rest) (hrest : rest ≠ [])
    (b : Bytes) : l.Stops taken (rest ++ b) := by
  -- What stops a lexeme is a matter of the first byte behind it.
  obtain ⟨c, s, rfl⟩ := List.exists_cons_of_ne_nil hrest
  have hleaves : ∀ {p : UInt8 → Bool}, Leaves p (c :: s) → Leaves p (c :: s ++ b) := fun h => h
  unfold Stops at h ⊢
  split
  · exact ⟨hleaves h.1, fun hno => hleaves (h.2 hno)⟩
  · exact hleaves h
  · exact hleaves h
  · exact hleaves h
  · exact hleaves h
  · exact ⟨hleaves h.1, hleaves h.2⟩
  · trivial

theorem isWhitespace_of_isDelimiter : ∀ c, isDelimiter c = false → isWhitespace c = false := by
  decide +kernel

theorem isWhitespace_of_isDigit : ∀ c, Bytes.isDigit c = true → isWhitespace c = false := by
  decide +kernel

theorem getLast?_stringBody? {s v t r : Bytes} (h : stringBody? s = some (v, t, r)) :
    t.getLast? = some (byte '"') := by
  fun_induction stringBody? s generalizing v t r with
  | case1 => simp at h
  | case2 =>
    obtain ⟨-, rfl, -⟩ : [] = v ∧ [byte '"'] = t ∧ [] = r := by simpa using h
    rfl
  | case3 => simp at h
  | case4 =>
    obtain ⟨-, rfl, -⟩ : [] = v ∧ [byte '"'] = t ∧ _ = r := by simpa using h
    rfl
  | case5 e s hq ih =>
    obtain ⟨⟨v', t', r'⟩, h', heq⟩ := Option.map_eq_some_iff.mp h
    obtain ⟨-, rfl, -⟩ := by simpa using heq
    simp [List.getLast?_cons, ih h']
  | case6 c e s hq hb ih =>
    obtain ⟨⟨v', t', r'⟩, h', heq⟩ := Option.map_eq_some_iff.mp h
    obtain ⟨-, rfl, -⟩ := by simpa using heq
    simp [List.getLast?_cons, ih h']

theorem isWhitespace_digitsAndPlaces {s : Bytes} : ∀ c ∈ (digitsAndPlaces s).1,
    isWhitespace c = false := by
  have hdigit : ∀ t : Bytes, ∀ c ∈ t.takeWhile Bytes.isDigit, isWhitespace c = false :=
    fun t c hc => isWhitespace_of_isDigit c (Bytes.of_mem_takeWhile hc)
  obtain ⟨hs, -⟩ | ⟨t, -, hs⟩ := digitsAndPlaces_cases s
  · rw [hs]
    exact hdigit s
  · rw [hs, List.forall_mem_append, List.forall_mem_cons]
    exact ⟨hdigit s, by decide, hdigit t⟩

theorem isWhitespace_of_getLast? {t : Bytes} {d : UInt8} (ht : t.getLast? = some d)
    (hd : isWhitespace d = false) : ∀ c ∈ t.getLast?, isWhitespace c = false := by
  intro c hc
  obtain rfl : d = c := Option.some.inj (ht.symm.trans hc)
  exact hd

theorem getLast?_tilde {s : Bytes} {cut : Cut} (h : tilde s = .ok cut) :
    ∀ c ∈ cut.taken.getLast?, isWhitespace c = false := by
  have hmark : ∀ c ∈ (utf8 "~").getLast?, isWhitespace c = false :=
    isWhitespace_of_getLast? (d := byte '~') rfl (by decide)
  have hsplice : ∀ c ∈ (utf8 "~@").getLast?, isWhitespace c = false :=
    isWhitespace_of_getLast? (d := byte '@') rfl (by decide)
  have hname : ∀ name : Bytes, ∀ c ∈ (interpolationText name).getLast?, isWhitespace c = false :=
    fun _ => isWhitespace_of_getLast? List.getLast?_concat (by decide)
  cases s with
  | nil =>
    obtain rfl : _ = cut := by simpa [tilde] using h
    exact hmark
  | cons c s =>
    simp only [tilde] at h
    split at h
    · obtain rfl : _ = cut := by simpa using h
      exact hsplice
    · split at h
      · obtain ⟨name, rest, -, -, -, rfl⟩ := interpolation_eq_ok_iff.mp h
        exact hname name
      · obtain rfl : _ = cut := by simpa using h
        exact hmark

theorem getLast?_taken {c : UInt8} {s : Bytes} {cut : Cut} (hc : isWhitespace c = false)
    (h : scan c s = .ok cut) : ∀ d ∈ cut.taken.getLast?, isWhitespace d = false := by
  have hname : ∀ d ∈ s.takeWhile (!isDelimiter ·), isWhitespace d = false := by
    intro d hd
    have := Bytes.of_mem_takeWhile hd
    exact isWhitespace_of_isDelimiter d (by simpa using this)
  have hall : ∀ {e : UInt8} {t : Bytes}, isWhitespace e = false →
      (∀ d ∈ t, isWhitespace d = false) → ∀ d ∈ (e :: t).getLast?, isWhitespace d = false := by
    intro e t he ht d hd
    rcases List.mem_cons.mp (List.mem_of_getLast? hd) with rfl | hmem
    · exact he
    · exact ht d hmem
  rcases scan_cases h with ⟨l, hl, rfl⟩ | ⟨-, h⟩ | ⟨-, h⟩ | ⟨-, h⟩ | ⟨-, -, h⟩ | ⟨-, -, h⟩
  · exact hall hc (List.forall_mem_nil _)
  · exact getLast?_tilde h
  · obtain ⟨v, t, r, hbody, rfl⟩ := string_eq_ok_iff.mp h
    have hlast : (byte '"' :: t).getLast? = some (byte '"') := by
      simp [List.getLast?_cons, getLast?_stringBody? hbody]
    exact isWhitespace_of_getLast? hlast (by decide)
  · obtain ⟨-, -, rfl⟩ := keyword_eq_ok_iff.mp h
    exact hall (by decide) hname
  · obtain ⟨n, -, rfl⟩ := number_eq_ok_iff.mp h
    exact hall hc isWhitespace_digitsAndPlaces
  · obtain ⟨-, rfl⟩ := symbol_eq_ok_iff.mp h
    exact hall hc hname

/-- A lexeme that the end of a line stops is cut off in the same way in front of `b`. Where it is the
last thing in its text, the newline is the first byte of `b`. -/
theorem scan_append {c : UInt8} {s b : Bytes} {cut : Cut} (hc : isWhitespace c = false)
    (h : scan c s = .ok cut) (hb : Separated (c :: s) b) :
    scan c (s ++ b) = .ok ⟨cut.lexeme, cut.taken, cut.rest ++ b⟩ ∧
      (cut.rest = [] ∨ Separated cut.rest b) := by
  obtain ⟨t, htaken, hs⟩ := scan_splits h
  have hjoin : c :: s = cut.taken ++ cut.rest := by rw [htaken, List.cons_append, hs]
  rw [hjoin] at hb
  have hextends : cut.lexeme.Stops cut.taken (cut.rest ++ b) →
      scan c (s ++ b) = .ok ⟨cut.lexeme, cut.taken, cut.rest ++ b⟩ := by
    intro hstops
    rw [← hs, List.append_assoc]
    exact scan_extends h t _ htaken hstops
  by_cases hnil : cut.rest = []
  · have hhead : b.head? = some newline := by
      rw [hnil, List.append_nil] at hb
      refine hb.resolve_left fun hlast => ?_
      have hspace := getLast?_taken hc h newline hlast
      exact absurd hspace (by decide)
    obtain ⟨b', rfl⟩ := List.head?_eq_some_iff.mp hhead
    refine ⟨hextends ?_, Or.inl hnil⟩
    rw [hnil]
    exact stops_newline _ _ _
  · refine ⟨hextends ((scan_stops h).append hnil b), Or.inr (hb.imp_left fun hlast => ?_)⟩
    rwa [List.getLast?_append_of_ne_nil _ hnil] at hlast

end Lexeme

namespace Token

open Lexeme (gap scan Cut Separated)

def lowered (n : UInt32) (t : Token) : Token := { t with loc := t.loc.lowered n }

theorem tokenizeFrom_append {loc : Location} {a b : Bytes} {ts : List Token}
    (h : tokenizeFrom loc a = .ok ts) (hab : a = [] ∨ Separated a b) :
    tokenizeFrom loc (a ++ b) = (tokenizeFrom (loc.advance a) b).map (ts ++ ·) := by
  induction ts generalizing loc a with
  | nil =>
    obtain ⟨-, hgap⟩ | ⟨blank, c, r, cut, ts, -, -, hts, -⟩ := tokenizeFrom_cases h
    · have hnil : false = false ∧ a = [] ∨ Separated a b := by simpa using hab
      rw [tokenizeFrom_of_gap_append (Lexeme.gap_append_of_eq hgap hnil)]
      cases tokenizeFrom (loc.advance a) b <;> rfl
    · simp at hts
  | cons t ts ih =>
    obtain ⟨hts, -⟩ | ⟨blank, c, r, cut, us, hgap, hscan, hts, hrest⟩ := tokenizeFrom_cases h
    · simp at hts
    obtain ⟨rfl, rfl⟩ := List.cons.inj hts
    have hjoin : a = blank ++ c :: r := by
      have := Lexeme.gap_append false a
      rw [hgap] at this
      exact this.symm
    have hword : c :: r = cut.taken ++ cut.rest := by
      obtain ⟨u, htaken, hr⟩ := Lexeme.scan_splits hscan
      rw [htaken, List.cons_append, hr]
    have hc : isWhitespace c = false := by
      have := Lexeme.startsGap_of_gap hgap
      simp only [Lexeme.startsGap, Bool.or_eq_false_iff] at this
      exact this.1
    have hsep : Separated (c :: r) b := by
      refine (hab.resolve_left (by simp [hjoin])).imp_left fun hlast => ?_
      rwa [hjoin, List.getLast?_append_of_ne_nil _ (List.cons_ne_nil c r)] at hlast
    obtain ⟨hscan', hsep'⟩ := Lexeme.scan_append hc hscan hsep
    have hgap' : gap false (a ++ b) = (blank, c :: (r ++ b)) := by
      rw [Lexeme.gap_append_of_ne (by simp [hgap]), hgap]
      rfl
    have hadvance : loc.advance a = ((loc.advance blank).advance cut.taken).advance cut.rest := by
      rw [hjoin, hword, Location.advance_append, Location.advance_append]
    rw [tokenizeFrom_of_scan hgap' hscan', hadvance]
    simp only
    rw [ih hrest hsep']
    cases tokenizeFrom (((loc.advance blank).advance cut.taken).advance cut.rest) b <;> rfl

theorem tokenizeFrom_lowered (n : UInt32) (loc : Location) (s : Bytes) :
    tokenizeFrom (loc.lowered n) s = ((tokenizeFrom loc s).map (List.map (lowered n))).mapError
      fun f => ⟨f.error, f.loc.lowered n⟩ := by
  fun_induction tokenizeFrom loc s with
  | case1 loc s blank hgap =>
    rw [tokenizeFrom_of_gap (by rw [hgap])]
    rfl
  | case2 loc s blank c r hgap here f hscan =>
    rw [tokenizeFrom_of_failure hgap hscan, Location.advance_lowered, Location.advance_lowered]
    rfl
  | case3 loc s blank c r hgap here cut hscan hlt f hrest ih =>
    rw [tokenizeFrom_of_scan hgap hscan, Location.advance_lowered, Location.advance_lowered, ih, hrest]
    rfl
  | case4 loc s blank c r hgap here cut hscan hlt ts hrest ih =>
    rw [tokenizeFrom_of_scan hgap hscan, Location.advance_lowered, Location.advance_lowered, ih, hrest]
    rfl

theorem tokenize_append_newline {a file : Bytes} {ts : List Token} (h : tokenize a file = .ok ts)
    (b : Bytes) :
    tokenize (a ++ newline :: b) file =
      ((tokenize b file).map fun us => ts ++ us.map (lowered (linesBefore a))).mapError
        fun f => ⟨f.error, f.loc.lowered (linesBefore a)⟩ := by
  have hjoin := tokenizeFrom_append h (Or.inr (Or.inr rfl : Separated a (newline :: b)))
  have hskip : tokenizeFrom ((Location.start file).advance a) (newline :: b) =
      tokenizeFrom ((Location.start file).lowered (linesBefore a)) b := by
    rw [tokenizeFrom_whitespace (by decide), ← Location.advance_start_line, Location.advance_append]
    rfl
  unfold tokenize
  rw [hjoin, hskip, tokenizeFrom_lowered]
  cases tokenizeFrom (Location.start file) b <;> rfl

end Token
end ClauseLisp
