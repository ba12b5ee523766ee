import ClauseLisp.Proofs.Form.Grammar
import ClauseLisp.Proofs.Token.Lines

/-! Reading line by line. Texts that can be read may be joined by a newline: the tokens and the forms
of the second text come after those of the first, and only their lines change. -/

namespace ClauseLisp.Form

mutual

def lowered (n : UInt32) : Form → Form
  | atom loc a => atom (loc.lowered n) a
  | sequence loc b xs => sequence (loc.lowered n) b (loweredAll n xs)
  | marked loc m x => marked (loc.lowered n) m (lowered n x)

def loweredAll (n : UInt32) : List Form → List Form
  | [] => []
  | x :: xs => lowered n x :: loweredAll n xs

end

theorem loweredAll_eq_map (n : UInt32) (xs : List Form) : loweredAll n xs = xs.map (lowered n) := by
  induction xs with
  | nil => rfl
  | cons x xs ih => rw [loweredAll, ih, List.map_cons]

mutual

theorem Spelled.lowered {x : Form} {ts : List Token} (h : Spelled x ts) (n : UInt32) :
    Spelled (x.lowered n) (ts.map (Token.lowered n)) :=
  match h with
  | .atom loc a => .atom (loc.lowered n) a
  | .sequence loc b close h => by
    rw [Form.lowered, List.map_cons, List.map_append]
    exact .sequence (loc.lowered n) b (close.lowered n) (h.lowered n)
  | .marked loc m h => .marked (loc.lowered n) m (h.lowered n)

theorem SpelledAll.lowered {xs : List Form} {ts : List Token} (h : SpelledAll xs ts) (n : UInt32) :
    SpelledAll (loweredAll n xs) (ts.map (Token.lowered n)) :=
  match h with
  | .nil => .nil
  | .cons h hs => by
    rw [loweredAll, List.map_append]
    exact .cons (h.lowered n) (hs.lowered n)

end

mutual

theorem height_lowered (n : UInt32) (x : Form) : (x.lowered n).height = x.height :=
  match x with
  | .atom .. => rfl
  | .sequence _ _ xs => by rw [lowered, height, height, heightAll_loweredAll n xs]
  | .marked _ _ x => by rw [lowered, height, height, height_lowered n x]

theorem heightAll_loweredAll (n : UInt32) (xs : List Form) :
    heightAll (loweredAll n xs) = heightAll xs :=
  match xs with
  | [] => rfl
  | x :: xs => by rw [loweredAll, heightAll, heightAll, height_lowered n x, heightAll_loweredAll n xs]

end

theorem readTokens_append_lowered {ts us : List Token} {xs ys : List Form}
    (hx : readTokens ts = .ok xs) (hy : readTokens us = .ok ys) (n : UInt32) :
    readTokens (ts ++ us.map (Token.lowered n)) = .ok (xs ++ ys.map (lowered n)) := by
  obtain ⟨hspellx, hheightx⟩ := readTokens_eq_ok_iff_spelled.mp hx
  obtain ⟨hspelly, hheighty⟩ := readTokens_eq_ok_iff_spelled.mp hy
  have hspell := hspellx.append (hspelly.lowered n)
  rw [loweredAll_eq_map] at hspell
  have hheight : ∀ y ∈ ys.map (lowered n), y.height ≤ maxNesting := by
    intro y hmem
    obtain ⟨z, hz, rfl⟩ := List.mem_map.mp hmem
    rw [height_lowered]
    exact hheighty z hz
  apply readTokens_eq_ok_iff_spelled.mpr
  exact ⟨hspell, List.forall_mem_append.mpr ⟨hheightx, hheight⟩⟩

/-- A text that has tokens, a newline and a second text: the second one has the tokens or the fault
that it has alone, lower by the lines before it, and forms in both are forms in the whole. -/
theorem tokenize_readAll_lines (a b file : Bytes) :
    (∀ ts, Token.tokenize a file = .ok ts →
      (∀ us, Token.tokenize b file = .ok us →
        Token.tokenize (a ++ newline :: b) file =
          .ok (ts ++ us.map (Token.lowered (linesBefore a)))) ∧
      ∀ f, Token.tokenize b file = .error f →
        Token.tokenize (a ++ newline :: b) file =
          .error ⟨f.error, f.loc.lowered (linesBefore a)⟩) ∧
    ∀ xs ys, readAll a file = .ok xs → readAll b file = .ok ys →
      readAll (a ++ newline :: b) file = .ok (xs ++ ys.map (lowered (linesBefore a))) := by
  have htokens : ∀ {ts us : List Token}, Token.tokenize a file = .ok ts →
      Token.tokenize b file = .ok us →
      Token.tokenize (a ++ newline :: b) file =
        .ok (ts ++ us.map (Token.lowered (linesBefore a))) := by
    intro ts us ha hb
    rw [Token.tokenize_append_newline ha, hb]
    rfl
  constructor
  · intro ts ha
    refine ⟨fun us hb => htokens ha hb, fun f hb => ?_⟩
    rw [Token.tokenize_append_newline ha, hb]
    rfl
  · intro xs ys hx hy
    obtain ⟨ts, ha, hts⟩ := readAll_eq_ok_iff.mp hx
    obtain ⟨us, hb, hus⟩ := readAll_eq_ok_iff.mp hy
    exact readAll_eq_ok_iff.mpr ⟨_, htokens ha hb, readTokens_append_lowered hts hus _⟩

theorem tokenize_readAll_lines_comment :
    let a := utf8 "(f -)\n; x"
    let b := utf8 " 'y"
    let call (loc : Location) : Form := .sequence loc .paren
      [.atom ⟨[], 1, 2⟩ (.symbol (utf8 "f")), .atom ⟨[], 1, 4⟩ (.symbol (utf8 "-"))]
    let quoted (line : UInt32) : Form :=
      .marked ⟨[], line, 2⟩ .quote (.atom ⟨[], line, 3⟩ (.symbol (utf8 "y")))
    readAll a [] = .ok [call ⟨[], 1, 1⟩] ∧ readAll b [] = .ok [quoted 1] ∧
      readAll (a ++ newline :: b) [] = .ok [call ⟨[], 1, 1⟩, quoted 3] ∧
      Token.tokenize (utf8 "\"y") [] = .error ⟨.unterminatedString, ⟨[], 1, 1⟩⟩ ∧
      Token.tokenize (a ++ newline :: utf8 "\"y") [] =
        .error ⟨.unterminatedString, ⟨[], 3, 1⟩⟩ := by
  intro a b call quoted
  have ha : Token.tokenize a [] = .ok [⟨.opening .paren, ⟨[], 1, 1⟩⟩,
      ⟨.atom (.symbol (utf8 "f")), ⟨[], 1, 2⟩⟩, ⟨.atom (.symbol (utf8 "-")), ⟨[], 1, 4⟩⟩,
      ⟨.closing .paren, ⟨[], 1, 5⟩⟩] := by decide +kernel
  have hb : Token.tokenize b [] = .ok [⟨.mark .quote, ⟨[], 1, 2⟩⟩,
      ⟨.atom (.symbol (utf8 "y")), ⟨[], 1, 3⟩⟩] := by decide +kernel
  have hopen : Token.tokenize (utf8 "\"y") [] = .error ⟨.unterminatedString, ⟨[], 1, 1⟩⟩ := by
    decide +kernel
  have hreada : readAll a [] = .ok [call ⟨[], 1, 1⟩] := readAll_eq_ok_iff.mpr ⟨_, ha, rfl⟩
  have hreadb : readAll b [] = .ok [quoted 1] := readAll_eq_ok_iff.mpr ⟨_, hb, rfl⟩
  have hjoined := (tokenize_readAll_lines a b []).2 _ _ hreada hreadb
  have hfault := ((tokenize_readAll_lines a (utf8 "\"y") []).1 _ ha).2 _ hopen
  exact ⟨hreada, hreadb, hjoined, hopen, hfault⟩

end ClauseLisp.Form
