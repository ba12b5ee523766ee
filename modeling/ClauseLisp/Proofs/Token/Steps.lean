import ClauseLisp.Proofs.Lexeme.Extent
import ClauseLisp.Token

/-! One token at a time. Reading a text is reading its first gap and lexeme and then the rest. -/

namespace ClauseLisp

namespace Lexeme

def startsGap (c : UInt8) : Bool := isWhitespace c || c == byte ';'

theorem gap_of_not_startsGap {c : UInt8} (h : startsGap c = false) (s : Bytes) :
    gap false (c :: s) = ([], c :: s) := by
  obtain ⟨hw, hc⟩ : isWhitespace c = false ∧ (c == byte ';') = false := by
    simpa [startsGap] using h
  simp only [gap, hw, hc]
  rfl

theorem gap_whitespace {c : UInt8} (h : isWhitespace c = true) (s : Bytes) :
    gap false (c :: s) = (c :: (gap false s).1, (gap false s).2) := by
  simp [gap, h]

theorem startsGap_of_gap {inComment : Bool} {s blank r : Bytes} {c : UInt8}
    (h : gap inComment s = (blank, c :: r)) : startsGap c = false := by
  fun_induction gap inComment s generalizing blank with
  | case1 => simp at h
  | case2 inComment d s hd g r' hg ih =>
    obtain ⟨-, rfl⟩ := Prod.mk.inj h
    exact ih hg
  | case3 inComment d s hd hc g r' hg ih =>
    obtain ⟨-, rfl⟩ := Prod.mk.inj h
    exact ih hg
  | case4 inComment d s hd hc =>
    obtain ⟨-, rfl, -⟩ := by simpa using h
    cases inComment <;> simp_all [startsGap]

end Lexeme

namespace Token

open Lexeme (gap scan Cut)

theorem tokenizeFrom_of_gap {s : Bytes} (h : (gap false s).2 = []) (loc : Location) :
    tokenizeFrom loc s = .ok [] := by
  rw [tokenizeFrom]
  split
  · rfl
  · rename_i hgap
    rw [hgap] at h
    simp at h

theorem tokenizeFrom_of_scan {s blank r : Bytes} {c : UInt8} {cut : Cut}
    (hgap : gap false s = (blank, c :: r)) (hscan : scan c r = .ok cut) (loc : Location) :
    tokenizeFrom loc s = (tokenizeFrom ((loc.advance blank).advance cut.taken) cut.rest).map
      (⟨cut.lexeme, loc.advance blank⟩ :: ·) := by
  rw [tokenizeFrom]
  split
  · rename_i h
    simp [hgap] at h
  · rename_i h
    obtain ⟨rfl, rfl, rfl⟩ := by simpa [hgap] using h
    split
    · rename_i h'
      simp [hscan] at h'
    · rename_i h'
      obtain rfl := by simpa [hscan] using h'
      cases h'' : tokenizeFrom ((loc.advance blank).advance cut.taken) cut.rest <;>
        simp [h'', Except.map]

theorem tokenizeFrom_of_failure {s blank r : Bytes} {c : UInt8} {f : Lexeme.Failure}
    (hgap : gap false s = (blank, c :: r)) (hscan : scan c r = .error f) (loc : Location) :
    tokenizeFrom loc s = .error ⟨f.error, (loc.advance blank).advance f.before⟩ := by
  rw [tokenizeFrom]
  split
  · rename_i h
    simp [hgap] at h
  · rename_i h
    obtain ⟨rfl, rfl, rfl⟩ := by simpa [hgap] using h
    split
    · rename_i h'
      obtain rfl := by simpa [hscan] using h'
      rfl
    · rename_i h'
      simp [hscan] at h'

theorem tokenizeFrom_cases {loc : Location} {s : Bytes} {tokens : List Token}
    (h : tokenizeFrom loc s = .ok tokens) :
    (tokens = [] ∧ (gap false s).2 = []) ∨ ∃ blank c r cut ts,
      gap false s = (blank, c :: r) ∧ scan c r = .ok cut ∧
      tokens = ⟨cut.lexeme, loc.advance blank⟩ :: ts ∧
      tokenizeFrom ((loc.advance blank).advance cut.taken) cut.rest = .ok ts := by
  match hgap : gap false s with
  | (_, []) =>
    rw [tokenizeFrom_of_gap (by rw [hgap])] at h
    exact Or.inl ⟨(Except.ok.inj h).symm, rfl⟩
  | (blank, c :: r) =>
    right
    match hscan : scan c r with
    | .error f => simp [tokenizeFrom_of_failure hgap hscan] at h
    | .ok cut =>
      rw [tokenizeFrom_of_scan hgap hscan] at h
      match hrest : tokenizeFrom ((loc.advance blank).advance cut.taken) cut.rest with
      | .error f => simp [hrest, Except.map] at h
      | .ok ts =>
        rw [hrest] at h
        exact ⟨blank, c, r, cut, ts, rfl, hscan, (Except.ok.inj h).symm, hrest⟩

theorem tokenizeFrom_of_gap_append {s g b : Bytes}
    (h : gap false s = (g ++ (gap false b).1, (gap false b).2)) (loc : Location) :
    tokenizeFrom loc s = tokenizeFrom (loc.advance g) b := by
  match hb : gap false b with
  | (_, []) =>
    rw [hb] at h
    rw [tokenizeFrom_of_gap (by rw [h]), tokenizeFrom_of_gap (by rw [hb])]
  | (blank, c :: r) =>
    rw [hb] at h
    match hscan : scan c r with
    | .error f =>
      rw [tokenizeFrom_of_failure h hscan, tokenizeFrom_of_failure hb hscan,
        Location.advance_append]
    | .ok cut =>
      rw [tokenizeFrom_of_scan h hscan, tokenizeFrom_of_scan hb hscan, Location.advance_append]

theorem tokenizeFrom_whitespace {c : UInt8} (h : isWhitespace c = true) (loc : Location)
    (s : Bytes) : tokenizeFrom loc (c :: s) = tokenizeFrom (loc.next c) s :=
  tokenizeFrom_of_gap_append (g := [c]) (Lexeme.gap_whitespace h s) loc

/-- In front of `rest` the bytes `w` are read as tokens with the lexemes `ls`, and the rest is read
as it would be alone. -/
def Leads (w rest : Bytes) (ls : List Lexeme) : Prop :=
  ∀ loc, ∃ ts, ts.map Token.lexeme = ls ∧
    tokenizeFrom loc (w ++ rest) = (tokenizeFrom (loc.advance w) rest).map (ts ++ ·)

section Leads

variable {w v rest : Bytes} {ls ms : List Lexeme}

theorem leads_nil (rest : Bytes) : Leads [] rest [] := by
  intro loc
  refine ⟨[], rfl, ?_⟩
  rw [List.nil_append, Location.advance_nil]
  cases tokenizeFrom loc rest <;> rfl

theorem Leads.append (hw : Leads w (v ++ rest) ls) (hv : Leads v rest ms) :
    Leads (w ++ v) rest (ls ++ ms) := by
  intro loc
  obtain ⟨ts, hts, hw⟩ := hw loc
  obtain ⟨us, hus, hv⟩ := hv (loc.advance w)
  refine ⟨ts ++ us, by rw [List.map_append, hts, hus], ?_⟩
  rw [List.append_assoc, hw, hv, Location.advance_append]
  cases tokenizeFrom ((loc.advance w).advance v) rest <;> simp [Except.map]

theorem leads_whitespace (hw : ∀ c ∈ w, isWhitespace c = true) : Leads w rest [] := by
  induction w with
  | nil => exact leads_nil rest
  | cons c w ih =>
    have hrest := ih fun d hd => hw d (by simp [hd])
    intro loc
    obtain ⟨ts, hts, heq⟩ := hrest (loc.next c)
    exact ⟨ts, hts, by rw [List.cons_append, tokenizeFrom_whitespace (hw c (by simp)), heq]; rfl⟩

theorem leads_of_scan {c : UInt8} {t : Bytes} {l : Lexeme} (hc : Lexeme.startsGap c = false)
    (h : scan c (t ++ rest) = .ok ⟨l, c :: t, rest⟩) : Leads (c :: t) rest [l] := by
  intro loc
  refine ⟨[⟨l, loc⟩], rfl, ?_⟩
  rw [List.cons_append, tokenizeFrom_of_scan (Lexeme.gap_of_not_startsGap hc _) h]
  rfl

end Leads

end Token
end ClauseLisp
