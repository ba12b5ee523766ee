import Mathlib.Control.Monad.Basic
import ClauseLisp.Proofs.Form.Grammar
import ClauseLisp.Proofs.Form.Text

/-! Reading the text of a form, on one line or spread over lines, gives the form again, at other
locations. The one exception are forms in which an unquote stands before a tuple. -/

namespace ClauseLisp

namespace Binary64

theorem isNaN_of_ofDecimal? {negative : Bool} {digits : Nat} {exponent : Int} {d : Binary64}
    (h : ofDecimal? negative digits exponent = some d) : d.isNaN = false := by
  simp only [ofDecimal?] at h
  split at h
  · obtain rfl := Option.some.inj h
    cases negative <;> decide
  · split at h
    · simp at h
    · obtain ⟨⟨hfinite, -⟩, rfl⟩ := by simpa using h
      simp only [isFinite, decide_eq_true_eq] at hfinite
      simp only [isNaN, decide_eq_false_iff_not]
      omega

theorem isNaN_of_ofFixedText? {s : Bytes} {d : Binary64} (h : ofFixedText? s = some d) :
    d.isNaN = false := by
  simp only [ofFixedText?, ofUnsignedText?, Option.ite_none_left_eq_some] at h
  obtain ⟨e, -, hdecimal⟩ := Option.bind_eq_some_iff.mp h.2.2
  exact isNaN_of_ofDecimal? hdecimal

theorem ReadsBack.same_self {d : Binary64} (h : d.ReadsBack) : d.same d = true := by
  simp [same, isNaN_of_ofFixedText? h.2]

end Binary64

theorem Atom.same_self {a : Atom} (h : ∀ d, a = .number (.float d) → d.ReadsBack) :
    a.same a = true := by
  cases a with
  | number n =>
    cases n with
    | integer i => simp [same, Number.same]
    | float d => exact (h d rfl).same_self
  | _ => simp [same]

def Lexeme.isMark : Lexeme → Bool
  | mark _ => true
  | _ => false

namespace Form

mutual

theorem same_of_erase_eq {x y : Form} (h : y.erase = x.erase)
    (hx : ∀ a, Lexeme.atom a ∈ x.flatten → a.same a = true) : y.same x = true := by
  match y, x with
  | .atom _ a, .atom _ b =>
    obtain rfl : a = b := by simpa [erase] using h
    exact hx a (by simp [flatten])
  | .sequence _ b ys, .sequence _ c xs =>
    obtain ⟨rfl, hxs⟩ : b = c ∧ eraseAll ys = eraseAll xs := by simpa [erase] using h
    rw [same, sameAll_of_eraseAll_eq hxs fun a ha => hx a (by simp [flatten, ha])]
    simp
  | .marked _ m y, .marked _ n x =>
    obtain ⟨rfl, hd⟩ : m = n ∧ y.erase = x.erase := by simpa [erase] using h
    rw [same, same_of_erase_eq hd fun a ha => hx a (by simp [flatten, ha])]
    simp

theorem sameAll_of_eraseAll_eq {xs ys : List Form} (h : eraseAll ys = eraseAll xs)
    (hx : ∀ a, Lexeme.atom a ∈ flattenAll xs → a.same a = true) : sameAll ys xs = true := by
  match ys, xs with
  | [], [] => rfl
  | y :: ys, x :: xs =>
    obtain ⟨hfirst, hrest⟩ : y.erase = x.erase ∧ eraseAll ys = eraseAll xs := by
      simpa [eraseAll] using h
    rw [sameAll, same_of_erase_eq hfirst fun a ha => hx a (by simp [flattenAll, ha]),
      sameAll_of_eraseAll_eq hrest fun a ha => hx a (by simp [flattenAll, ha])]
    rfl

end

mutual

theorem isMark_of_same {x y : Form} (h : y.same x = true) :
    y.flatten.map Lexeme.isMark = x.flatten.map Lexeme.isMark := by
  match y, x with
  | .atom _ a, .atom _ b => rfl
  | .sequence _ b ys, .sequence _ c xs =>
    obtain ⟨rfl, hxs⟩ : b = c ∧ sameAll ys xs = true := by simpa [same] using h
    simp [flatten, isMark_of_sameAll hxs]
  | .marked _ m y, .marked _ n x =>
    obtain ⟨rfl, hd⟩ : m = n ∧ y.same x = true := by simpa [same] using h
    simp [flatten, isMark_of_same hd]

theorem isMark_of_sameAll {xs ys : List Form} (h : sameAll ys xs = true) :
    (flattenAll ys).map Lexeme.isMark = (flattenAll xs).map Lexeme.isMark := by
  match ys, xs with
  | [], [] => rfl
  | y :: ys, x :: xs =>
    obtain ⟨hfirst, hrest⟩ : y.same x = true ∧ sameAll ys xs = true := by
      simpa [sameAll] using h
    simp [flattenAll, isMark_of_same hfirst, isMark_of_sameAll hrest]

end

theorem read_eq_ok_iff {source file : Bytes} {x : Form} :
    read source file = .ok x ↔
      ∃ ts, Token.tokenize source file = .ok ts ∧ readTokens ts = .ok [x] := by
  unfold read readAll
  match Token.tokenize source file with
  | .error e => simp [Except.mapError, bind, Except.bind]
  | .ok ts =>
    match hforms : readTokens ts with
    | .error e => simp [hforms, Except.mapError, bind, Except.bind]
    | .ok [] => simp [hforms, single, Except.mapError, bind, Except.bind]
    | .ok [y] => simp [hforms, single, Except.mapError, bind, Except.bind]
    | .ok (y :: z :: zs) => simp [hforms, single, Except.mapError, bind, Except.bind]

theorem read_eq_ok_iff_spelled {source file : Bytes} {x : Form} :
    read source file = .ok x ↔ ∃ ts, Token.tokenize source file = .ok ts ∧ Spelled x ts ∧
      x.height ≤ maxNesting := by
  have hone : ∀ ts, SpelledAll [x] ts ↔ Spelled x ts := by
    intro ts
    constructor
    · intro h
      cases h with
      | cons hx hnil =>
        cases hnil
        simpa using hx
    · intro hx
      simpa using SpelledAll.cons hx .nil
  simp only [read_eq_ok_iff, readTokens_eq_ok_iff_spelled, hone, List.forall_mem_singleton]

theorem rereads_of_tokenizeFrom {loc : Location} {s : Bytes} {ts : List Token} {a : Atom}
    (h : Token.tokenizeFrom loc s = .ok ts) (ha : .atom a ∈ ts.map Token.lexeme)
    (hfloat : ∀ d, a = .number (.float d) → d.ReadsBack) : a.Rereads := by
  induction ts generalizing loc s with
  | nil => simp at ha
  | cons t ts ih =>
    obtain ⟨hts, -⟩ | ⟨blank, c, r, cut, ts', hgap, hscan, hts, hrest⟩ :=
      Token.tokenizeFrom_cases h
    · simp at hts
    · obtain ⟨rfl, rfl⟩ := List.cons.inj hts
      rcases List.mem_cons.mp ha with ha | ha
      · exact Atom.rereads_of_scan hscan ha.symm (Lexeme.startsGap_of_gap hgap) hfloat
      · exact ih hrest ha

section Read

variable {source file : Bytes} {x : Form}

theorem legible_of_read (h : read source file = .ok x)
    (hfloat : ∀ d, .atom (.number (.float d)) ∈ x.flatten → d.ReadsBack) : x.Legible := by
  obtain ⟨ts, hts, hx, -⟩ := read_eq_ok_iff_spelled.mp h
  intro a ha
  rw [← hx.lexemes] at ha
  exact rereads_of_tokenizeFrom hts ha fun d hd => hfloat d (by rw [← hx.lexemes, ← hd]; exact ha)

theorem read_write (hx : x.Legible) (hheight : x.height ≤ maxNesting)
    (ht : x.hasUnquotedTuple = false) (layout : Layout) (file : Bytes) :
    ∃ y, read (write layout x) file = .ok y ∧ y.erase = x.erase := by
  obtain ⟨ts, hlexemes, hts⟩ := leads_write layout x hx ht Lexeme.atDelimiter_nil (.start file)
  rw [List.append_nil, Token.tokenizeFrom_of_gap (s := []) rfl] at hts
  obtain ⟨y, hy, herase⟩ := exists_spelled hlexemes
  refine ⟨y, read_eq_ok_iff_spelled.mpr ⟨ts, ?_, hy, ?_⟩, herase⟩
  · rw [Token.tokenize, hts, Except.map, List.append_nil]
  · rw [← height_erase, herase, height_erase]
    exact hheight

theorem not_same_of_read_write (hx : x.Legible) (ht : x.hasUnquotedTuple = true) {layout : Layout}
    {y : Form} (h : read (write layout x) file = .ok y) : y.same x = false := by
  obtain ⟨ts, hts, hy, -⟩ := read_eq_ok_iff_spelled.mp h
  have hclash := clashes_write layout x hx ht []
  rw [List.append_nil] at hclash
  obtain ⟨p, q, name, q', hx', hts'⟩ := hclash.tokenizeFrom hts
  refine Bool.eq_false_iff.mpr fun hsame => ?_
  -- Where the form has the unquote, the text is read as an interpolation.
  have hmarks := isMark_of_same hsame
  rw [← hy.lexemes, hts', hx'] at hmarks
  simp [Lexeme.isMark] at hmarks

theorem read_write_iff (h : read source file = .ok x)
    (hfloat : ∀ d, .atom (.number (.float d)) ∈ x.flatten → d.ReadsBack)
    (layout : Layout) (file' : Bytes) :
    (∃ y, read (write layout x) file' = .ok y ∧ y.same x = true) ↔
      x.hasUnquotedTuple = false := by
  have hx := legible_of_read h hfloat
  constructor
  · rintro ⟨y, hy, hsame⟩
    refine Bool.eq_false_iff.mpr fun ht => ?_
    rw [not_same_of_read_write hx ht hy] at hsame
    exact Bool.false_ne_true hsame
  · intro ht
    obtain ⟨-, -, -, hheight⟩ := read_eq_ok_iff_spelled.mp h
    obtain ⟨y, hy, herase⟩ := read_write hx hheight ht layout file'
    refine ⟨y, hy, same_of_erase_eq herase fun a ha => Atom.same_self fun d hd => ?_⟩
    exact hfloat d (hd ▸ ha)

/-- The text of a form that was read, on one line or spread over lines, can be read and gives the
same form exactly if no unquote stands before a tuple in it. -/
theorem read_text_pretty_iff (h : read source file = .ok x)
    (hfloat : ∀ d, .atom (.number (.float d)) ∈ x.flatten → d.ReadsBack)
    (indent : UInt32) (file' : Bytes) :
    ((∃ y, read x.text file' = .ok y ∧ y.same x = true) ↔ x.hasUnquotedTuple = false) ∧
      ((∃ y, read (x.pretty indent) file' = .ok y ∧ y.same x = true) ↔
        x.hasUnquotedTuple = false) :=
  ⟨read_write_iff h hfloat .line file', read_write_iff h hfloat (.spread indent) file'⟩

end Read

def fourElements : Form :=
  .sequence ⟨[], 1, 1⟩ .paren
    [.atom ⟨[], 1, 2⟩ (.symbol (utf8 "f")),
      .atom ⟨[], 1, 4⟩ (.number (.float ⟨0xbff8000000000000⟩)),
      .atom ⟨[], 1, 9⟩ (.string (utf8 "a\n")),
      .marked ⟨[], 1, 15⟩ .unquote (.atom ⟨[], 1, 16⟩ (.keyword (utf8 "k")))]

theorem read_fourElements :
    read (utf8 "(f -1.5 \"a\\n\" ~:k)") [] = .ok fourElements := by
  have htokens : Token.tokenize (utf8 "(f -1.5 \"a\\n\" ~:k)") [] = .ok
      [⟨.opening .paren, ⟨[], 1, 1⟩⟩, ⟨.atom (.symbol (utf8 "f")), ⟨[], 1, 2⟩⟩,
        ⟨.atom (.number (.float ⟨0xbff8000000000000⟩)), ⟨[], 1, 4⟩⟩,
        ⟨.atom (.string (utf8 "a\n")), ⟨[], 1, 9⟩⟩, ⟨.mark .unquote, ⟨[], 1, 15⟩⟩,
        ⟨.atom (.keyword (utf8 "k")), ⟨[], 1, 16⟩⟩, ⟨.closing .paren, ⟨[], 1, 18⟩⟩] := by
    decide +kernel
  exact read_eq_ok_iff.mpr ⟨_, htokens, rfl⟩

theorem readsBack_fourElements :
    ∀ d, .atom (.number (.float d)) ∈ fourElements.flatten → d.ReadsBack := by
  intro d hd
  obtain rfl : d = ⟨0xbff8000000000000⟩ := by
    simpa [fourElements, flatten, flattenAll] using hd
  have htext : Binary64.text ⟨0xbff8000000000000⟩ = utf8 "-1.5" := by decide +kernel
  have hdigits : (utf8 "1" ++ utf8 "5").all Bytes.isDigit = true := by decide
  refine ⟨⟨utf8 "-", utf8 "1", utf8 "5", htext, Or.inr rfl, by decide, by decide,
    List.all_eq_true.mp hdigits⟩, ?_⟩
  decide +kernel

theorem read_text_pretty_fourElements :
    read (utf8 "(f -1.5 \"a\\n\" ~:k)") [] = .ok fourElements ∧
      (∀ d, .atom (.number (.float d)) ∈ fourElements.flatten → d.ReadsBack) ∧
      ((∃ y, read fourElements.text [] = .ok y ∧ y.same fourElements = true) ↔
        fourElements.hasUnquotedTuple = false) ∧
      ((∃ y, read (fourElements.pretty 3) [] = .ok y ∧ y.same fourElements = true) ↔
        fourElements.hasUnquotedTuple = false) :=
  ⟨read_fourElements, readsBack_fourElements,
    read_text_pretty_iff read_fourElements readsBack_fourElements 3 []⟩

end Form
end ClauseLisp
