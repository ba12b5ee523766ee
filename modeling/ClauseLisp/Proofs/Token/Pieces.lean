import ClauseLisp.Proofs.Token.Steps
import Mathlib.Control.Monad.Basic

/-! Cutting a text into tokens loses and invents nothing. The main statement, `tokenize_pieces`,
cuts a text that can be read into gaps and words, one word for each token. -/

namespace ClauseLisp

namespace Lexeme

inductive Gap : Bytes → Prop
  | nil : Gap []
  | blank {c : UInt8} {g : Bytes} : isWhitespace c = true → Gap g → Gap (c :: g)
  | comment {body g : Bytes} : byte '\n' ∉ body → Gap g →
      Gap (byte ';' :: body ++ byte '\n' :: g)

def EndGap (g : Bytes) : Prop :=
  Gap g ∨ ∃ front body, Gap front ∧ byte '\n' ∉ body ∧ g = front ++ byte ';' :: body

def GapIn : Bool → Bytes → Prop
  | false, g => Gap g
  | true, g => ∃ body tail, byte '\n' ∉ body ∧ Gap tail ∧ g = body ++ byte '\n' :: tail

def EndGapIn : Bool → Bytes → Prop
  | false, g => EndGap g
  | true, g => byte '\n' ∉ g ∨ ∃ body tail, byte '\n' ∉ body ∧ EndGap tail ∧
      g = body ++ byte '\n' :: tail

theorem endGap_blank {c : UInt8} {g : Bytes} (hc : isWhitespace c = true) (h : EndGap g) :
    EndGap (c :: g) := by
  rcases h with h | ⟨front, body, hf, hb, rfl⟩
  · exact Or.inl (.blank hc h)
  · exact Or.inr ⟨c :: front, body, .blank hc hf, hb, rfl⟩

theorem gapIn_newline {inComment : Bool} {c : UInt8} {g : Bytes} (hc : isWhitespace c = true)
    (hn : inComment = true → c = byte '\n') (h : Gap g) : GapIn inComment (c :: g) := by
  cases inComment with
  | false => exact .blank hc h
  | true => exact ⟨[], g, by simp, h, by rw [hn rfl]; rfl⟩

theorem endGapIn_newline {inComment : Bool} {c : UInt8} {g : Bytes} (hc : isWhitespace c = true)
    (hn : inComment = true → c = byte '\n') (h : EndGap g) : EndGapIn inComment (c :: g) := by
  cases inComment with
  | false => exact endGap_blank hc h
  | true => exact Or.inr ⟨[], g, by simp, h, by rw [hn rfl]; rfl⟩

theorem gapIn_comment {inComment : Bool} {c : UInt8} {g : Bytes}
    (hc : inComment = true ∧ c ≠ byte '\n' ∨ inComment = false ∧ c = byte ';')
    (h : GapIn true g) : GapIn inComment (c :: g) := by
  obtain ⟨body, tail, hb, ht, rfl⟩ := h
  rcases hc with ⟨rfl, hc⟩ | ⟨rfl, rfl⟩
  · exact ⟨c :: body, tail, by simp [hb, hc.symm], ht, rfl⟩
  · exact .comment hb ht

theorem endGapIn_comment {inComment : Bool} {c : UInt8} {g : Bytes}
    (hc : inComment = true ∧ c ≠ byte '\n' ∨ inComment = false ∧ c = byte ';')
    (h : EndGapIn true g) : EndGapIn inComment (c :: g) := by
  rcases hc with ⟨rfl, hc⟩ | ⟨rfl, rfl⟩
  · rcases h with h | ⟨body, tail, hb, ht, rfl⟩
    · exact Or.inl (by simp [h, hc.symm])
    · exact Or.inr ⟨c :: body, tail, by simp [hb, hc.symm], ht, rfl⟩
  · rcases h with h | ⟨body, tail, hb, ht | ⟨front, rest, hf, hr, rfl⟩, rfl⟩
    · exact Or.inr ⟨[], g, .nil, h, rfl⟩
    · exact Or.inl (.comment hb ht)
    · exact Or.inr ⟨byte ';' :: body ++ byte '\n' :: front, rest, .comment hb hf, hr, by simp⟩

theorem gap_spec (inComment : Bool) (s : Bytes) :
    ((gap inComment s).2 ≠ [] → GapIn inComment (gap inComment s).1) ∧
      ((gap inComment s).2 = [] → EndGapIn inComment (gap inComment s).1) := by
  fun_induction gap inComment s with
  | case1 inComment =>
    refine ⟨fun h => absurd rfl h, fun _ => ?_⟩
    cases inComment with
    | false => exact Or.inl .nil
    | true => exact Or.inl (by simp)
  | case2 inComment c s hc g r hg ih =>
    obtain ⟨hw, hn⟩ : isWhitespace c = true ∧ (inComment = true → c = byte '\n') := by
      cases inComment <;> simpa using hc
    rw [hg] at ih
    exact ⟨fun h => gapIn_newline hw hn (ih.1 h), fun h => endGapIn_newline hw hn (ih.2 h)⟩
  | case3 inComment c s hw hc g r hg ih =>
    have hc' : inComment = true ∧ c ≠ byte '\n' ∨ inComment = false ∧ c = byte ';' := by
      cases inComment with
      | false => simpa using hc
      | true =>
        refine Or.inl ⟨rfl, ?_⟩
        rintro rfl
        exact hw (by decide)
    rw [hg] at ih
    exact ⟨fun h => gapIn_comment hc' (ih.1 h), fun h => endGapIn_comment hc' (ih.2 h)⟩
  | case4 inComment c s hw hc =>
    obtain rfl : inComment = false := by
      cases inComment <;> simp_all
    exact ⟨fun _ => .nil, fun h => by simp at h⟩

end Lexeme

namespace Token

open Lexeme (gap scan Cut Gap EndGap)

structure Piece where
  gap : Bytes
  word : Bytes
  token : Token

def joined (pieces : List Piece) : Bytes := pieces.flatMap fun p => p.gap ++ p.word

/-- A piece after the bytes `before` of a text that starts at `loc`, in front of `after`: its word
alone is read as its token, and `after` does not continue it. -/
structure Piece.Fits (loc : Location) (before after : Bytes) (p : Piece) : Prop where
  gap : Gap p.gap
  nonempty : p.word ≠ []
  alone : ∀ file, tokenize p.word file = .ok [⟨p.token.lexeme, .start file⟩]
  location : p.token.loc = loc.advance (before ++ p.gap)
  maximal : p.token.lexeme.Stops p.word after

theorem tokenize_word {c : UInt8} {t : Bytes} {l : Lexeme} (hc : Lexeme.startsGap c = false)
    (h : scan c t = .ok ⟨l, c :: t, []⟩) (file : Bytes) :
    tokenize (c :: t) file = .ok [⟨l, .start file⟩] := by
  rw [tokenize, tokenizeFrom_of_scan (Lexeme.gap_of_not_startsGap hc t) h,
    tokenizeFrom_of_gap (by rfl)]
  rfl

theorem Piece.Fits.shift {loc : Location} {before after : Bytes} {p : Piece} {front : Bytes}
    (h : p.Fits (loc.advance front) before after) : p.Fits loc (front ++ before) after where
  gap := h.gap
  nonempty := h.nonempty
  alone := h.alone
  location := by rw [h.location, List.append_assoc, Location.advance_append loc front]
  maximal := h.maximal

theorem fits_of_scan {s blank r : Bytes} {c : UInt8} {cut : Cut}
    (hgap : gap false s = (blank, c :: r)) (hscan : scan c r = .ok cut) (loc : Location) :
    Piece.Fits loc [] cut.rest ⟨blank, cut.taken, ⟨cut.lexeme, loc.advance blank⟩⟩ := by
  obtain ⟨t, htaken, -⟩ := Lexeme.scan_splits hscan
  have hword := Lexeme.scan_extends hscan t [] htaken (Lexeme.stops_nil _ _)
  rw [List.append_nil, htaken] at hword
  refine ⟨?_, ?_, fun file => ?_, rfl, Lexeme.scan_stops hscan⟩
  · have h := (Lexeme.gap_spec false s).1
    rw [hgap] at h
    exact h (by simp)
  · simp [htaken]
  · rw [htaken]
    exact tokenize_word (Lexeme.startsGap_of_gap hgap) hword file

theorem fits_cons {loc : Location} {first : Piece} {pieces : List Piece} {last : Bytes}
    (hfirst : first.Fits loc [] (joined pieces ++ last))
    (hpieces : ∀ before p after, pieces = before ++ p :: after →
      p.Fits (loc.advance (first.gap ++ first.word)) (joined before) (joined after ++ last)) :
    ∀ before p after, first :: pieces = before ++ p :: after →
      p.Fits loc (joined before) (joined after ++ last) := by
  intro before p after h
  cases before with
  | nil =>
    obtain ⟨rfl, rfl⟩ := List.cons.inj h
    exact hfirst
  | cons q before =>
    obtain ⟨rfl, rfl⟩ := List.cons.inj h
    exact (hpieces before p after rfl).shift

theorem pieces_of_tokenizeFrom {loc : Location} {s : Bytes} {tokens : List Token}
    (h : tokenizeFrom loc s = .ok tokens) :
    ∃ (pieces : List Piece) (last : Bytes), s = joined pieces ++ last ∧
      pieces.map Piece.token = tokens ∧ EndGap last ∧
      ∀ before p after, pieces = before ++ p :: after →
        p.Fits loc (joined before) (joined after ++ last) := by
  induction tokens generalizing loc s with
  | nil =>
    obtain ⟨-, hgap⟩ | ⟨blank, c, r, cut, ts, -, -, htokens, -⟩ := tokenizeFrom_cases h
    · have hs := Lexeme.gap_append false s
      rw [hgap, List.append_nil] at hs
      exact ⟨[], _, hs.symm, rfl, (Lexeme.gap_spec false s).2 hgap, by simp⟩
    · simp at htokens
  | cons t tokens ih =>
    obtain ⟨htokens, -⟩ | ⟨blank, c, r, cut, ts, hgap, hscan, htokens, hrest⟩ :=
      tokenizeFrom_cases h
    · simp at htokens
    · obtain ⟨rfl, rfl⟩ := List.cons.inj htokens
      rw [← Location.advance_append] at hrest
      obtain ⟨pieces, last, hrest, hmap, hlast, hfits⟩ := ih hrest
      have hs : s = blank ++ cut.taken ++ cut.rest := by
        obtain ⟨u, htaken, hr⟩ := Lexeme.scan_splits hscan
        have hg := Lexeme.gap_append false s
        rw [hgap] at hg
        rw [← hg, ← hr, htaken]
        simp
      have hfirst := fits_of_scan hgap hscan loc
      rw [hrest] at hfirst
      refine ⟨⟨blank, cut.taken, ⟨cut.lexeme, loc.advance blank⟩⟩ :: pieces, last, ?_, ?_, hlast,
        fits_cons hfirst hfits⟩
      · rw [hs, hrest]
        simp [joined]
      · simp [hmap]

/-- A text that can be read is its tokens' words with gaps between them. Each word alone is read as
its token, the token's location is that of its word in the text, and no word could be longer. -/
theorem tokenize_pieces {source file : Bytes} {tokens : List Token}
    (h : tokenize source file = .ok tokens) :
    ∃ (pieces : List Piece) (last : Bytes), source = joined pieces ++ last ∧
      pieces.map Piece.token = tokens ∧ EndGap last ∧
      ∀ before p after, pieces = before ++ p :: after →
        p.Fits (.start file) (joined before) (joined after ++ last) :=
  pieces_of_tokenizeFrom h

theorem tokenize_pieces_number :
    tokenize (utf8 "-1.25.x;y\n :k") [] = .ok
        [⟨.atom (.number (.float ⟨0xbff4000000000000⟩)), ⟨[], 1, 1⟩⟩,
          ⟨.atom (.symbol (utf8 ".x")), ⟨[], 1, 6⟩⟩, ⟨.atom (.keyword (utf8 "k")), ⟨[], 2, 2⟩⟩] ∧
      ∃ (pieces : List Piece) (last : Bytes),
        utf8 "-1.25.x;y\n :k" = joined pieces ++ last ∧
        pieces.map Piece.token =
          [⟨.atom (.number (.float ⟨0xbff4000000000000⟩)), ⟨[], 1, 1⟩⟩,
            ⟨.atom (.symbol (utf8 ".x")), ⟨[], 1, 6⟩⟩, ⟨.atom (.keyword (utf8 "k")), ⟨[], 2, 2⟩⟩] ∧
        EndGap last ∧ ∀ before p after, pieces = before ++ p :: after →
          p.Fits (.start []) (joined before) (joined after ++ last) := by
  have h : tokenize (utf8 "-1.25.x;y\n :k") [] = .ok
      [⟨.atom (.number (.float ⟨0xbff4000000000000⟩)), ⟨[], 1, 1⟩⟩,
        ⟨.atom (.symbol (utf8 ".x")), ⟨[], 1, 6⟩⟩, ⟨.atom (.keyword (utf8 "k")), ⟨[], 2, 2⟩⟩] := by
    decide +kernel
  exact ⟨h, tokenize_pieces h⟩

end Token

end ClauseLisp
