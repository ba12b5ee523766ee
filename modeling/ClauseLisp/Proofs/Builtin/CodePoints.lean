import ClauseLisp.Proofs.Builtin.Results
import ClauseLisp.Proofs.Lexeme.Reread
import ClauseLisp.Proofs.Token.Pieces

/-! The length of a string is the number of its code points. Of the bytes that encode a character
all but the first are continuation bytes, and those are not counted. Writing a string in quotes and
reading it keeps all its bytes, so that a literal has the length of the text that it was made from. -/

namespace ClauseLisp

theorem Token.tokenize_text {a : Atom} (h : a.Rereads) (file : Bytes) :
    tokenize a.text file = .ok [⟨.atom a, .start file⟩] := by
  obtain ⟨c, t, hreads⟩ := h
  have hscan := hreads.scan [] (Lexeme.leaves_nil _)
  rw [List.append_nil] at hscan
  rw [hreads.text]
  exact tokenize_word hreads.startsGap hscan file

namespace Builtin

theorem codePoints_append (s t : Bytes) : codePoints (s ++ t) = codePoints s + codePoints t :=
  List.countP_append

section Encoding

theorem codePoints_lead {mark : UInt8} (hmark : mark &&& 0xc0 = 0xc0) (b : UInt8) (s : Bytes) :
    codePoints ((b ||| mark) :: s) = codePoints s + 1 := by
  have hall : ∀ b : UInt8, (b ||| 0xc0 != 0x80) = true := by decide +kernel
  have hbits : (b ||| mark) &&& 0xc0 = b &&& 0xc0 ||| mark &&& 0xc0 :=
    UInt8.toBitVec_inj.mp BitVec.and_or_distrib_right
  refine List.countP_cons_of_pos ?_
  rw [hbits, hmark]
  exact hall _

theorem codePoints_continuation (b : UInt8) (s : Bytes) :
    codePoints ((b &&& 0x3f ||| 0x80) :: s) = codePoints s := by
  have hall : ∀ b : UInt8, ¬ ((b &&& 0x3f ||| 0x80) &&& 0xc0 != 0x80) = true := by decide +kernel
  exact List.countP_cons_of_neg (hall b)

theorem codePoints_ascii {c : Char} (h : c.utf8Size = 1) : codePoints [c.val.toUInt8] = 1 := by
  have hall : ∀ b : UInt8, b.toNat ≤ 127 → codePoints [b] = 1 := by decide +kernel
  have hval : c.val.toNat ≤ 127 := Char.utf8Size_eq_one_iff.mp h
  refine hall _ ?_
  rw [UInt32.toNat_toUInt8]
  exact Nat.le_trans (Nat.mod_le _ _) hval

theorem codePoints_utf8EncodeChar (c : Char) : codePoints (String.utf8EncodeChar c) = 1 := by
  have hpos := c.utf8Size_pos
  have hle := c.utf8Size_le_four
  -- One case for each length.
  obtain hsize | hsize | hsize | hsize :
      c.utf8Size = 1 ∨ c.utf8Size = 2 ∨ c.utf8Size = 3 ∨ c.utf8Size = 4 := by omega
  · rw [String.utf8EncodeChar_eq_singleton hsize, codePoints_ascii hsize]
  · rw [String.utf8EncodeChar_eq_cons_cons hsize, codePoints_lead rfl, codePoints_continuation]
    rfl
  · rw [String.utf8EncodeChar_eq_cons_cons_cons hsize, codePoints_lead rfl,
      codePoints_continuation, codePoints_continuation]
    rfl
  · rw [String.utf8EncodeChar_eq_cons_cons_cons_cons hsize, codePoints_lead rfl,
      codePoints_continuation, codePoints_continuation, codePoints_continuation]
    rfl

theorem codePoints_utf8 (cs : List Char) : codePoints (utf8 (String.ofList cs)) = cs.length := by
  unfold utf8
  rw [String.toList_ofList]
  induction cs with
  | nil => rfl
  | cons c cs ih =>
    rw [List.flatMap_cons, codePoints_append, codePoints_utf8EncodeChar, ih, List.length_cons,
      Nat.add_comm]

end Encoding

section Length

variable {s : Bytes}

theorem returns_textLength (s : Bytes) :
    textLength.Returns [.string s] (.integer (.ofNat (codePoints s))) :=
  fun _ _ => rfl

theorem toInt_codePoints (h : s.length < Nat.pow 2 63) :
    (Int64.ofNat (codePoints s)).toInt = codePoints s :=
  Int64.toInt_ofNat_of_lt (Nat.lt_of_le_of_lt List.countP_le_length h)

end Length

/-- A string literal that was written for some characters is read as one token, and its length is the
number of the characters. For any two strings of bytes the lengths add up. Lengths are 64-bit
integers, and they are exact for all strings shorter than `2 ^ 63`. -/
theorem textLength_counts_characters :
    (∀ (cs : List Char) (file : Bytes), ∃ s n,
      Token.tokenize (quoted (utf8 (String.ofList cs))) file =
        .ok [⟨.atom (.string s), .start file⟩] ∧
      textLength.Returns [.string s] (.integer n) ∧ n = .ofNat cs.length ∧
      (cs.length < Nat.pow 2 63 → n.toInt = cs.length)) ∧
    ∀ s t : Bytes, ∃ m n, textLength.Returns [.string s] (.integer m) ∧
      textLength.Returns [.string t] (.integer n) ∧
      textLength.Returns [.string (s ++ t)] (.integer (m + n)) ∧
      ((s ++ t).length < Nat.pow 2 63 → (m + n).toInt = m.toInt + n.toInt) := by
  constructor
  · intro cs file
    have hliteral := Token.tokenize_text (Atom.rereads_string (utf8 (String.ofList cs))) file
    have hlength := returns_textLength (utf8 (String.ofList cs))
    rw [codePoints_utf8] at hlength
    exact ⟨_, _, hliteral, hlength, rfl, Int64.toInt_ofNat_of_lt⟩
  · intro s t
    have hboth := returns_textLength (s ++ t)
    rw [codePoints_append, Int64.ofNat_add] at hboth
    refine ⟨_, _, returns_textLength s, returns_textLength t, hboth, fun hlength => ?_⟩
    have hs : s.length < Nat.pow 2 63 := Nat.lt_of_le_of_lt (by simp) hlength
    have ht : t.length < Nat.pow 2 63 := Nat.lt_of_le_of_lt (by simp) hlength
    rw [← Int64.ofNat_add, ← codePoints_append, toInt_codePoints hlength, toInt_codePoints hs,
      toInt_codePoints ht, codePoints_append, Int.natCast_add]

theorem textLength_counts_characters_lengths :
    let cs := ['a', '"', 'é', '€', '😀']
    (∃ s n, Token.tokenize (quoted (utf8 (String.ofList cs))) [] =
        .ok [⟨.atom (.string s), .start []⟩] ∧
      textLength.Returns [.string s] (.integer n) ∧ n.toInt = 5) ∧
    ∃ m n, textLength.Returns [.string [0xc3]] (.integer m) ∧
      textLength.Returns [.string [0xa9]] (.integer n) ∧
      textLength.Returns [.string [0xc3, 0xa9]] (.integer (m + n)) ∧
      (m + n).toInt = m.toInt + n.toInt := by
  intro cs
  obtain ⟨hliteral, hadds⟩ := textLength_counts_characters
  obtain ⟨s, n, htoken, hlength, -, hexact⟩ := hliteral cs []
  obtain ⟨m, k, hfirst, hsecond, hboth, hsum⟩ := hadds [0xc3] [0xa9]
  exact ⟨⟨s, n, htoken, hlength, hexact (by decide)⟩, m, k, hfirst, hsecond, hboth,
    hsum (by decide)⟩

end Builtin
end ClauseLisp
