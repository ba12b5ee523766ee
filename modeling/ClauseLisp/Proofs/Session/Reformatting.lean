import ClauseLisp.Proofs.Expr.Shown
import ClauseLisp.Proofs.Form.RoundTrip
import ClauseLisp.Proofs.Session.Scope

/-! Reformatting a program. The forms of a source text, each spread over lines and one after the
other, are read as the same forms at other locations, and they compile to the same text. -/

namespace ClauseLisp

namespace Form

def reformatted (forms : List Form) : Bytes := (utf8 "\n").intercalate (forms.map (pretty 0))

theorem reformatted_cons_cons (x y : Form) (zs : List Form) :
    reformatted (x :: y :: zs) = x.pretty 0 ++ (utf8 "\n" ++ reformatted (y :: zs)) := by
  simp [reformatted]

theorem leads_reformatted {forms : List Form} (hforms : LegibleAll forms)
    (ht : anyUnquotedTuple forms = false) {rest : Bytes} (hrest : Lexeme.AtDelimiter rest) :
    Token.Leads (reformatted forms) rest (flattenAll forms) := by
  induction forms with
  | nil => exact Token.leads_nil rest
  | cons x xs ih =>
    rw [anyUnquotedTuple, Bool.or_eq_false_iff] at ht
    cases xs with
    | nil =>
      simpa [reformatted, pretty, flattenAll] using
        leads_write (.spread 0) x hforms.head ht.1 hrest
    | cons y zs =>
      have hfirst := leads_write (.spread 0) x hforms.head ht.1
        (Lexeme.atDelimiter_newline (reformatted (y :: zs) ++ rest))
      rw [← List.append_assoc] at hfirst
      rw [reformatted_cons_cons, flattenAll]
      exact hfirst.append ((leads_newline _).append (ih hforms.tail ht.2))

section Read

variable {source file : Bytes} {forms : List Form}

theorem legibleAll_of_readAll (h : readAll source file = .ok forms)
    (hfloat : ∀ d, .atom (.number (.float d)) ∈ flattenAll forms → d.ReadsBack) :
    LegibleAll forms := by
  obtain ⟨ts, hts, hforms⟩ := readAll_eq_ok_iff.mp h
  have hlexemes := (readTokens_eq_ok_iff_spelled.mp hforms).1.lexemes
  intro a ha
  rw [← hlexemes] at ha
  exact rereads_of_tokenizeFrom hts ha fun d hd => hfloat d (by rw [← hlexemes, ← hd]; exact ha)

theorem readAll_reformatted (h : readAll source file = .ok forms)
    (hfloat : ∀ d, .atom (.number (.float d)) ∈ flattenAll forms → d.ReadsBack)
    (ht : anyUnquotedTuple forms = false) (file' : Bytes) :
    ∃ forms', readAll (reformatted forms) file' = .ok forms' ∧
      eraseAll forms' = eraseAll forms := by
  have hlegible := legibleAll_of_readAll h hfloat
  obtain ⟨_, -, hread⟩ := readAll_eq_ok_iff.mp h
  have hheight := (readTokens_eq_ok_iff_spelled.mp hread).2
  obtain ⟨ts, hlexemes, hts⟩ :=
    leads_reformatted hlegible ht Lexeme.atDelimiter_nil (.start file')
  rw [List.append_nil, Token.tokenizeFrom_of_gap (s := []) rfl] at hts
  obtain ⟨forms', hspelled, herase⟩ := exists_spelledAll hlexemes
  have htokens : Token.tokenize (reformatted forms) file' = .ok ts := by
    rw [Token.tokenize, hts, Except.map, List.append_nil]
  have hheight' : ∀ x ∈ forms', x.height ≤ maxNesting := by
    rw [← heightAll_le_iff, ← heightAll_eraseAll, herase, heightAll_eraseAll, heightAll_le_iff]
    exact hheight
  exact ⟨forms', readAll_eq_ok_iff.mpr ⟨ts, htokens,
    readTokens_eq_ok_iff_spelled.mpr ⟨hspelled, hheight'⟩⟩, herase⟩

end Read

end Form

namespace Session

theorem shownProgram_eq_of_eraseAll_eq {forms forms' : List Form}
    (h : Form.eraseAll forms' = Form.eraseAll forms) :
    (Expr.ofProgram forms').result.toOption.map Expr.shownProgram =
      (Expr.ofProgram forms).result.toOption.map Expr.shownProgram := by
  rw [Form.eraseAll_eq_relocateAll, Form.eraseAll_eq_relocateAll] at h
  rw [← Expr.shownProgram_relocateAll fun _ => .unknown, h, Expr.shownProgram_relocateAll]

theorem fst_run_compile {source file : Bytes} {forms : List Form}
    (h : Form.readAll source file = .ok forms) (s : Session) :
    ((compile source file).run.run s).1 =
      (Expr.ofProgram forms).result.mapError SessionFault.compile := by
  rw [run_compile_of_read h]

/-- A source text without an unquote before a tuple and its reformatted text compile to the same
text, or none of them compiles. It does not matter what has been warned about before. -/
theorem compile_reformatted {source file : Bytes} {forms : List Form}
    (h : Form.readAll source file = .ok forms) (ht : Form.anyUnquotedTuple forms = false)
    (hfloat : ∀ d, .atom (.number (.float d)) ∈ Form.flattenAll forms → d.ReadsBack)
    (file' : Bytes) (s t : Session) :
    (∃ f f', ((compile source file).run.run s).1 = .error (.compile f) ∧
      ((compile (Form.reformatted forms) file').run.run t).1 = .error (.compile f')) ∨
    ∃ es es', ((compile source file).run.run s).1 = .ok es ∧
      ((compile (Form.reformatted forms) file').run.run t).1 = .ok es' ∧
      Expr.shownProgram es' = Expr.shownProgram es := by
  obtain ⟨forms', hread, herase⟩ := Form.readAll_reformatted h hfloat ht file'
  have htext := shownProgram_eq_of_eraseAll_eq herase
  rw [fst_run_compile h, fst_run_compile hread]
  match hes : (Expr.ofProgram forms).result, hes' : (Expr.ofProgram forms').result with
  | .error f, .error f' => exact .inl ⟨f, f', rfl, rfl⟩
  | .ok es, .ok es' =>
    rw [hes, hes'] at htext
    exact .inr ⟨es, es', rfl, rfl, Option.some.inj htext⟩
  | .error _, .ok _ | .ok _, .error _ => simp [hes, hes', Except.toOption] at htext

theorem compile_reformatted_fourElements :
    Form.readAll (utf8 "(f -1.5 \"a\\n\" ~:k)") [] = .ok [Form.fourElements] ∧
      Form.anyUnquotedTuple [Form.fourElements] = false ∧
      (∀ d, .atom (.number (.float d)) ∈ Form.flattenAll [Form.fourElements] → d.ReadsBack) ∧
      ∃ es es',
        ((compile (utf8 "(f -1.5 \"a\\n\" ~:k)") []).run.run (start 10)).1 = .ok es ∧
        ((compile (Form.reformatted [Form.fourElements]) (utf8 "b")).run.run
          { start 10 with shown := [.shadows ⟨utf8 "b", 1, 1⟩ (utf8 "f")] }).1 = .ok es' ∧
        Expr.shownProgram es' = Expr.shownProgram es := by
  obtain ⟨ts, htokens, hforms⟩ := Form.read_eq_ok_iff.mp Form.read_fourElements
  have hread := Form.readAll_eq_ok_iff.mpr ⟨ts, htokens, hforms⟩
  have hfloat : ∀ d, .atom (.number (.float d)) ∈ Form.flattenAll [Form.fourElements] →
      d.ReadsBack := fun d hd => Form.readsBack_fourElements d (by simpa [Form.flattenAll] using hd)
  refine ⟨hread, rfl, hfloat, ?_⟩
  rcases compile_reformatted hread rfl hfloat (utf8 "b") (start 10)
    { start 10 with shown := [.shadows ⟨utf8 "b", 1, 1⟩ (utf8 "f")] } with ⟨f, -, hf, -⟩ | hsame
  · have hok : (Expr.ofProgram [Form.fourElements]).result.isOk = true := rfl
    rw [fst_run_compile hread] at hf
    cases hresult : (Expr.ofProgram [Form.fourElements]).result with
    | ok es =>
      rw [hresult] at hf
      exact nomatch hf
    | error e => simp [hresult, Except.isOk, Except.toBool] at hok
  · exact hsame

end Session
end ClauseLisp
