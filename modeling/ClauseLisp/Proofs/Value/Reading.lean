import Mathlib.Data.List.TakeWhile
import ClauseLisp.Proofs.Form.Relocation
import ClauseLisp.Proofs.Form.RoundTrip
import ClauseLisp.Value.Printer

/-! Reading the text of data. Values without floats, maps and procedures are written as forms are,
and the datum of the form that is read from their text is the value again. -/

namespace ClauseLisp

def isTagName (name : Bytes) : Bool :=
  !name.isEmpty && name.all fun c => !isDelimiter c && !isUnsupported c

namespace Value

mutual

/-- Values that programs can write as data: no floats, maps or procedures, and tags only with names
that can be read. -/
def isData : Value → Bool
  | nil => true
  | boolean _ => true
  | integer _ => true
  | string _ => true
  | tag name => isTagName name
  | list xs => isDataAll xs
  | tuple xs => isDataAll xs
  | _ => false

def isDataAll : List Value → Bool
  | [] => true
  | x :: xs => isData x && isDataAll xs

end

def toAtom : Value → Atom
  | boolean b => .boolean b
  | integer i => .number (.integer i)
  | string s => .string s
  | tag name => .keyword name
  | _ => .nil

mutual

def toForm : Value → Form
  | list xs => .sequence .unknown .paren (toForms xs)
  | tuple xs => .sequence .unknown .brace (toForms xs)
  | v => .atom .unknown v.toAtom

def toForms : List Value → List Form
  | [] => []
  | x :: xs => toForm x :: toForms xs

end

end Value

namespace Atom

theorem rereads_word {a : Atom} {c : UInt8} {s : Bytes} {cut : Lexeme.Cut}
    (h : Lexeme.scan c s = .ok cut) (ha : cut.lexeme = .atom a)
    (hgap : Lexeme.startsGap c = false) (hnumber : ∀ n, a ≠ .number n) : a.Rereads :=
  rereads_of_scan h ha hgap fun d hd => absurd hd (hnumber (.float d))

theorem rereads_keyword {name : Bytes} (h : isTagName name = true) : (keyword name).Rereads := by
  obtain ⟨hne, hall⟩ : name ≠ [] ∧
      ∀ c ∈ name, isDelimiter c = false ∧ isUnsupported c = false := by
    simpa [isTagName] using h
  have htake : name.takeWhile (!isDelimiter ·) = name :=
    List.takeWhile_eq_self_iff.mpr fun c hc => by simp [hall c hc]
  have hsupported : name.dropWhile (!isUnsupported ·) = [] :=
    List.dropWhile_eq_nil_iff.mpr fun c hc => by simp [hall c hc]
  have hcheck : Lexeme.checkName (utf8 ":") name = .ok () := by
    rw [Lexeme.checkName, hsupported]
  have hkeyword := Lexeme.keyword_eq_ok_iff.mpr
    ⟨htake.symm ▸ hcheck, htake.symm ▸ hne, rfl⟩
  rw [← Lexeme.scan_colon, htake] at hkeyword
  exact rereads_word hkeyword rfl (by decide) nofun

theorem rereads_toAtom {v : Value} (h : v.isData = true) : v.toAtom.Rereads := by
  cases v with
  | boolean b =>
    cases b with
    | true => exact rereads_word (c := byte 't') (s := utf8 "rue") rfl rfl (by decide) nofun
    | false => exact rereads_word (c := byte 'f') (s := utf8 "alse") rfl rfl (by decide) nofun
  | integer i => exact rereads_integer i
  | string s => exact rereads_string s
  | tag name => exact rereads_keyword (by simpa [Value.isData] using h)
  | _ => exact rereads_word (c := byte 'n') (s := utf8 "il") rfl rfl (by decide) nofun

end Atom

namespace Value

mutual

theorem legible_toForm {v : Value} (h : v.isData = true) : v.toForm.Legible := by
  match v with
  | .list xs | .tuple xs =>
    rw [isData] at h
    intro a ha
    exact legibleAll_toForms h a (by simpa [toForm, Form.flatten] using ha)
  | .nil | .boolean _ | .integer _ | .string _ | .tag _ =>
    intro a ha
    obtain rfl := by simpa [toForm, Form.flatten] using ha
    exact Atom.rereads_toAtom h
  | .float _ | .map _ | .procedure _ => simp [isData] at h

theorem legibleAll_toForms {xs : List Value} (h : isDataAll xs = true) :
    Form.LegibleAll (toForms xs) := by
  match xs with
  | [] =>
    intro a ha
    simp [toForms, Form.flattenAll] at ha
  | x :: xs =>
    rw [isDataAll, Bool.and_eq_true] at h
    intro a ha
    rw [toForms, Form.flattenAll, List.mem_append] at ha
    exact ha.elim (legible_toForm h.1 a) (legibleAll_toForms h.2 a)

end

mutual

theorem hasUnquotedTuple_toForm (v : Value) : v.toForm.hasUnquotedTuple = false := by
  match v with
  | .list xs | .tuple xs =>
    rw [toForm, Form.hasUnquotedTuple]
    exact anyUnquotedTuple_toForms xs
  | .nil | .boolean _ | .integer _ | .float _ | .string _ | .tag _ | .map _ | .procedure _ => rfl

theorem anyUnquotedTuple_toForms (xs : List Value) :
    Form.anyUnquotedTuple (toForms xs) = false := by
  match xs with
  | [] => rfl
  | x :: xs =>
    rw [toForms, Form.anyUnquotedTuple, hasUnquotedTuple_toForm x, anyUnquotedTuple_toForms xs]
    rfl

end

mutual

theorem height_toForm_le (v : Value) : v.toForm.height ≤ v.height := by
  match v with
  | .list xs | .tuple xs =>
    have hxs := heightAll_toForms_le xs
    rw [toForm, Form.height, height]
    omega
  | .map es =>
    rw [toForm, Form.height, height]
    · omega
    · nofun
    · nofun
  | .nil | .boolean _ | .integer _ | .float _ | .string _ | .tag _ | .procedure _ =>
    exact Nat.le_refl 1

theorem heightAll_toForms_le (xs : List Value) : Form.heightAll (toForms xs) ≤ heightAll xs := by
  match xs with
  | [] => exact Nat.le_refl 0
  | x :: xs =>
    have hx := height_toForm_le x
    have hxs := heightAll_toForms_le xs
    rw [toForms, Form.heightAll, heightAll]
    omega

end

mutual

theorem text_toForm {v : Value} (h : v.isData = true) : v.toForm.text = v.text := by
  match v with
  | .list xs =>
    rw [isData] at h
    have hxs := writeSpaced_toForms h
    rw [toForm, Form.text, Form.write, Form.spreads?, hxs, text]
    · rfl
    · nofun
  | .tuple xs =>
    rw [isData] at h
    have hxs := writeSpaced_toForms h
    rw [toForm, Form.text, Form.write, Form.spreads?, hxs, text]
    · rfl
    · nofun
  | .nil | .boolean _ | .integer _ | .string _ | .tag _ => rfl
  | .float _ | .map _ | .procedure _ => simp [isData] at h

theorem writeSpaced_toForms {xs : List Value} (h : isDataAll xs = true) :
    Form.writeSpaced .line (toForms xs) = textSpaced xs := by
  match xs with
  | [] => rfl
  | [x] =>
    rw [isDataAll, Bool.and_eq_true] at h
    exact text_toForm h.1
  | x :: y :: zs =>
    rw [isDataAll, Bool.and_eq_true] at h
    have hx : Form.write .line x.toForm = x.text := text_toForm h.1
    have hrest := writeSpaced_toForms h.2
    rw [toForms] at hrest
    rw [toForms, toForms, Form.writeSpaced, textSpaced, hx, hrest]

end

mutual

theorem toValue_ofForm_toForm {v : Value} (h : v.isData = true) :
    (Datum.ofForm v.toForm).toValue = v := by
  match v with
  | .list xs =>
    rw [isData] at h
    rw [toForm, Datum.ofForm, Datum.toValue, toValues_ofForms_toForms h]
    nofun
  | .tuple xs =>
    rw [isData] at h
    rw [toForm, Datum.ofForm, Datum.toValue, toValues_ofForms_toForms h]
  | .nil | .boolean _ | .integer _ | .string _ | .tag _ => rfl
  | .float _ | .map _ | .procedure _ => simp [isData] at h

theorem toValues_ofForms_toForms {xs : List Value} (h : isDataAll xs = true) :
    Datum.toValues (Datum.ofForms (toForms xs)) = xs := by
  match xs with
  | [] => rfl
  | x :: xs =>
    rw [isDataAll, Bool.and_eq_true] at h
    rw [toForms, Datum.ofForms, Datum.toValues, toValue_ofForm_toForm h.1,
      toValues_ofForms_toForms h.2]

end

/-- Printed data reads back: the text of a value that programs can write as data, and that is not
nested deeper than forms may be, is read as a form whose datum is the value. -/
theorem read_text_data {v : Value} (h : v.isData = true) (hheight : v.height ≤ maxNesting)
    (file : Bytes) :
    ∃ x, Form.read v.text file = .ok x ∧ (Datum.ofForm x).toValue = v := by
  have hform : v.toForm.height ≤ maxNesting := Nat.le_trans (height_toForm_le v) hheight
  obtain ⟨x, hread, herase⟩ := Form.read_write (legible_toForm h) hform
    (hasUnquotedTuple_toForm v) .line file
  have htext : Form.write .line v.toForm = v.text := text_toForm h
  rw [htext] at hread
  refine ⟨x, hread, ?_⟩
  rw [Datum.ofForm_eq_of_erase_eq herase, toValue_ofForm_toForm h]

def oddData : Value :=
  list [tag (utf8 "true"), tag (utf8 "-5"), tag (utf8 ":a"), integer Int64.minValue,
    integer Int64.maxValue, string (utf8 "\"\\\n" ++ [0, 255]), list [], tuple [tuple [], nil]]

theorem read_text_data_oddData :
    oddData.isData = true ∧ oddData.height ≤ maxNesting ∧
      ∃ x, Form.read oddData.text [] = .ok x ∧ (Datum.ofForm x).toValue = oddData := by
  have hdata : oddData.isData = true := by decide +kernel
  have hheight : oddData.height ≤ maxNesting := by decide +kernel
  exact ⟨hdata, hheight, read_text_data hdata hheight []⟩

end Value
end ClauseLisp
