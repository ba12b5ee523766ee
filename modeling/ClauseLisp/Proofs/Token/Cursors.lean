import ClauseLisp.Cursor
import ClauseLisp.Proofs.Token.Pieces

/-! The lexer and the cursor. Tokens and faults are located where a cursor stands that has read the
bytes in front of them, and from there it reads the bytes of the token. -/

namespace ClauseLisp

namespace Cursor

/-- A cursor in a text that is not so long that places wrap. -/
structure Within (c : Cursor) : Prop where
  position : c.position ≤ c.source.length
  size : c.source.length < Nat.pow 2 64

def rest (c : Cursor) : Bytes := c.source.drop c.position

inductive Reads : Cursor → Bytes → Cursor → Prop where
  | nil (c : Cursor) : Reads c [] c
  | cons {c c' c'' : Cursor} {b : UInt8} {s : Bytes} : c.read = (some b, c') → Reads c' s c'' →
    Reads c (b :: s) c''

variable {c : Cursor} {b : UInt8} {s t : Bytes}

theorem within_ofSource {source : Bytes} (h : source.length < Nat.pow 2 64) (file : Bytes) :
    (ofSource source file).Within :=
  ⟨Nat.zero_le _, h⟩

theorem Within.peek_eq (h : c.Within) : c.peek = c.rest.head? := by
  have hposition : (c.position + (0 : UInt64).toNat) % Nat.pow 2 64 = c.position :=
    Nat.mod_eq_of_lt (Nat.lt_of_le_of_lt h.position h.size)
  rw [peek, peekAt, hposition, rest, List.head?_drop]

theorem Within.read_eq (h : c.Within) (hrest : c.rest = b :: s) :
    c.read = (some b, ⟨c.source, c.position + 1, c.location.next b⟩) := by
  have hpeek : c.peek = some b := by rw [h.peek_eq, hrest, List.head?_cons]
  simp only [read, hpeek]

theorem rest_next (hrest : c.rest = b :: s) (loc : Location) :
    (⟨c.source, c.position + 1, loc⟩ : Cursor).rest = s := by
  rw [rest, ← List.tail_drop]
  exact congrArg List.tail hrest

theorem Within.next (h : c.Within) (hrest : c.rest = b :: s) (loc : Location) :
    (⟨c.source, c.position + 1, loc⟩ : Cursor).Within := by
  refine ⟨?_, h.size⟩
  have hlength : c.source.length - c.position = s.length + 1 := by
    rw [← List.length_drop, ← List.length_cons]
    exact congrArg List.length hrest
  show c.position + 1 ≤ c.source.length
  omega

theorem Within.reads (h : c.Within) (hrest : c.rest = s ++ t) :
    ∃ c', Reads c s c' ∧ c'.Within ∧ c'.rest = t ∧ c'.location = c.location.advance s := by
  induction s generalizing c with
  | nil => exact ⟨c, .nil c, h, hrest, rfl⟩
  | cons b s ih =>
    obtain ⟨c', hreads, hwithin, hrest', hloc⟩ :=
      ih (h.next hrest (c.location.next b)) (rest_next hrest _)
    exact ⟨c', .cons (h.read_eq hrest) hreads, hwithin, hrest', hloc⟩

end Cursor

namespace Lexeme

/-- The place of a failure is in the text, and an unsupported byte stands there. -/
def Failure.Inside (f : Failure) (s : Bytes) : Prop :=
  ∃ r, f.before ++ r = s ∧ ∀ b, f.error = .unsupported b → r.head? = some b

variable {c : UInt8} {s : Bytes} {f : Failure}

theorem inside_start {e : LexError} (h : ∀ b, e ≠ .unsupported b) (s : Bytes) :
    Failure.Inside ⟨e, []⟩ s :=
  ⟨s, rfl, fun b hb => absurd hb (h b)⟩

theorem checkName_fails {before name : Bytes} (h : checkName before name = .error f)
    (rest : Bytes) : f.Inside (before ++ (name ++ rest)) := by
  unfold checkName at h
  cases hname : name.dropWhile (!isUnsupported ·) with
  | nil => simp [hname] at h
  | cons c t =>
    obtain rfl : _ = f := by simpa [hname] using h
    refine ⟨c :: t ++ rest, ?_, fun b hb => ?_⟩
    · rw [← hname, List.append_assoc, ← List.append_assoc _ _ rest,
        List.takeWhile_append_dropWhile]
    · cases hb
      rfl

theorem symbol_fails (h : symbol c s = .error f) : f.Inside (c :: s) := by
  simp only [symbol] at h
  split at h
  · rename_i g hcheck
    cases h
    have hinside := checkName_fails hcheck (s.dropWhile (!isDelimiter ·))
    rwa [List.nil_append, List.cons_append, List.takeWhile_append_dropWhile] at hinside
  · cases h

theorem keyword_fails (h : keyword s = .error f) : f.Inside (byte ':' :: s) := by
  simp only [keyword] at h
  split at h
  · rename_i g hcheck
    cases h
    have hinside := checkName_fails hcheck (s.dropWhile (!isDelimiter ·))
    rwa [List.takeWhile_append_dropWhile] at hinside
  · split at h
    · cases h
      exact inside_start (by simp) _
    · cases h

theorem string_fails (h : string s = .error f) : f.Inside (byte '"' :: s) := by
  unfold string at h
  split at h
  · cases h
    exact inside_start (by simp) _
  · cases h

theorem interpolation_fails (h : interpolation s = .error f) (t : Bytes) : f.Inside t := by
  simp only [interpolation] at h
  split at h
  · cases h
    exact inside_start (by simp) _
  · split at h
    · cases h
      exact inside_start (by simp) _
    · cases h

theorem tilde_fails (h : tilde s = .error f) (t : Bytes) : f.Inside t := by
  unfold tilde at h
  split at h
  · cases h
  · split at h
    · cases h
    · split at h
      · exact interpolation_fails h t
      · cases h

theorem numberOfText_fails {text : Bytes} {e : LexError} (h : numberOfText text = .error e)
    (b : UInt8) : e ≠ .unsupported b := by
  rintro rfl
  unfold numberOfText at h
  split at h
  · split at h <;> cases h
  · split at h <;> cases h

theorem number_fails (h : number c s = .error f) (t : Bytes) : f.Inside t := by
  simp only [number] at h
  split at h
  · cases h
  · rename_i e hnumber
    cases h
    exact inside_start (numberOfText_fails hnumber) t

theorem scan_fails (h : scan c s = .error f) : f.Inside (c :: s) := by
  simp only [scan] at h
  split at h
  · cases h
  · split at h
    · exact tilde_fails h _
    · split at h
      · rename_i hc
        exact hc ▸ string_fails h
      · split at h
        · rename_i hc
          exact hc ▸ keyword_fails h
        · split at h
          · exact number_fails h _
          · exact symbol_fails h

end Lexeme

namespace Token

open Cursor (ofSource)

variable {source file : Bytes}

theorem tokenizeFrom_fails {loc : Location} {s : Bytes} {f : LexFault}
    (h : tokenizeFrom loc s = .error f) :
    ∃ front rest, s = front ++ rest ∧ f.loc = loc.advance front ∧
      ∀ b, f.error = .unsupported b → rest.head? = some b := by
  -- The induction is on the length: what a scan leaves is shorter.
  induction hlength : s.length using Nat.strongRecOn generalizing s loc with
  | ind n ih =>
    rcases hgap : Lexeme.gap false s with ⟨blank, - | ⟨c, r⟩⟩
    · rw [tokenizeFrom_of_gap (by rw [hgap])] at h
      cases h
    · have hs : s = blank ++ c :: r := by rw [← Lexeme.gap_append false s, hgap]
      cases hscan : Lexeme.scan c r with
      | error g =>
        rw [tokenizeFrom_of_failure hgap hscan] at h
        cases h
        obtain ⟨rest, hrest, hbyte⟩ := Lexeme.scan_fails hscan
        refine ⟨blank ++ g.before, rest, ?_, (Location.advance_append _ _ _).symm, hbyte⟩
        rw [hs, List.append_assoc, hrest]
      | ok cut =>
        rw [tokenizeFrom_of_scan hgap hscan] at h
        cases hnext : tokenizeFrom ((loc.advance blank).advance cut.taken) cut.rest with
        | ok ts =>
          rw [hnext] at h
          cases h
        | error g =>
          rw [hnext] at h
          cases h
          obtain ⟨front, rest, hrest, hloc, hbyte⟩ :=
            ih _ (hlength ▸ rest_shorter hgap hscan) hnext rfl
          obtain ⟨u, htaken, hr⟩ := Lexeme.scan_splits hscan
          refine ⟨blank ++ cut.taken ++ front, rest, ?_, ?_, hbyte⟩
          · rw [hs, htaken, ← hr, hrest]
            simp
          · rw [hloc, Location.advance_append, Location.advance_append]

/-- A cursor that has read what is in front of a token stands at the token's location and reads the
token's word next. -/
theorem tokenize_reads (hsize : source.length < Nat.pow 2 64) {tokens before after : List Token}
    {t : Token} (h : tokenize source file = .ok tokens) (ht : tokens = before ++ t :: after) :
    ∃ front word c c', (ofSource source file).Reads front c ∧ c.location = t.loc ∧
      c.Reads word c' ∧ (∀ file, tokenize word file = .ok [⟨t.lexeme, .start file⟩]) ∧
      t.lexeme.Stops word c'.rest := by
  obtain ⟨pieces, last, hsource, hmap, -, hfits⟩ := pieces_of_tokenizeFrom h
  rw [ht] at hmap
  obtain ⟨ps, qs, rfl, -, hqs⟩ := List.map_eq_append_iff.mp hmap
  obtain ⟨p, qs, rfl, rfl, -⟩ := List.map_eq_cons_iff.mp hqs
  have hp := hfits ps p qs rfl
  have hsplit : source = joined ps ++ p.gap ++ (p.word ++ (joined qs ++ last)) := by
    rw [hsource]
    simp [joined]
  obtain ⟨c, hfront, hwithin, hrest, hlocation⟩ :=
    (Cursor.within_ofSource hsize file).reads hsplit
  obtain ⟨c', hword, -, hrest', -⟩ := hwithin.reads hrest
  refine ⟨_, p.word, c, c', hfront, hlocation.trans hp.location.symm, hword, hp.alone, ?_⟩
  rw [hrest']
  exact hp.maximal

theorem tokenize_fails_at (hsize : source.length < Nat.pow 2 64) {f : LexFault}
    (h : tokenize source file = .error f) :
    ∃ front c, (ofSource source file).Reads front c ∧ c.location = f.loc ∧
      ∀ b, f.error = .unsupported b → c.peek = some b := by
  obtain ⟨front, rest, hsource, hloc, hbyte⟩ := tokenizeFrom_fails h
  obtain ⟨c, hreads, hwithin, hrest, hlocation⟩ := (Cursor.within_ofSource hsize file).reads hsource
  refine ⟨front, c, hreads, hlocation.trans hloc.symm, fun b hb => ?_⟩
  rw [hwithin.peek_eq, hrest]
  exact hbyte b hb

end Token
end ClauseLisp
