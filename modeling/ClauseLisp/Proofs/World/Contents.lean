import ClauseLisp.Proofs.Value.Procedures
import ClauseLisp.Proofs.World.Lookup

/-! What a world holds: the values of its definitions and the clauses of its functions. A property
of procedures and one of clauses that hold of everything in a world are kept by all changes that
bring in nothing else. -/

namespace ClauseLisp.World

/-- Everything in the world has the properties, and so has a reference to any of its functions. -/
structure Holds (Sound : Procedure → Prop) (Runs : Home → Clause → Prop) (w : World) : Prop where
  definitions : ∀ {home name v}, w.definition? home name = some v → v.All Sound
  functions : ∀ {home name f}, w.function? home name = some f →
    (∀ id, Sound (.function id home name)) ∧ ∀ clause ∈ f.clauses, Runs home clause

variable {Sound : Procedure → Prop} {Runs : Home → Clause → Prop} {w w' : World} {home : Home}
  {name : Bytes}

theorem holds_fresh (h : ∀ key b, Sound (.builtin key b)) : fresh.Holds Sound Runs := by
  constructor
  · intro home name v hv
    obtain ⟨key, b, rfl⟩ := definition?_fresh hv
    exact Value.all_builtin.mpr (h key b)
  · intro home name f hf
    rw [function?_fresh] at hf
    exact absurd hf (Option.some_ne_none f).symm

theorem Holds.of_module? (hw : w.Holds Sound Runs)
    (h : ∀ home, w'.module? home = w.module? home) : w'.Holds Sound Runs := by
  constructor
  · intro home name v hv
    unfold definition? at hv
    rw [h] at hv
    exact hw.definitions hv
  · intro home name f hf
    unfold function? at hf
    rw [h] at hf
    exact hw.functions hf

theorem Holds.ensureModule (hw : w.Holds Sound Runs) (name : Bytes) :
    (w.ensureModule name).Holds Sound Runs := by
  constructor
  · intro home key v hv
    rw [definition?_ensureModule] at hv
    exact hw.definitions hv
  · intro home key f hf
    rw [function?_ensureModule] at hf
    exact hw.functions hf

theorem Holds.define (hw : w.Holds Sound Runs) {v : Value} (hv : v.All Sound) :
    (w.update home (·.define name v)).Holds Sound Runs := by
  constructor
  · intro other key u hu
    cases hm : w.module? home with
    | none =>
      -- There is no such module, and nothing is changed.
      have hsame : (w.update home (·.define name v)).definition? other key =
          w.definition? other key := by
        unfold definition?
        rw [module?_update]
        split
        · rename_i heq
          rw [heq, hm]
          rfl
        · rfl
      exact hw.definitions (hsame ▸ hu)
    | some m =>
      rw [definition?_define w (Option.isSome_iff_exists.mpr ⟨m, hm⟩)] at hu
      split at hu
      · exact Option.some.inj hu ▸ hv
      · exact hw.definitions hu
  · intro other key f hf
    rw [function?_define] at hf
    exact hw.functions hf

theorem Holds.addClauses (hw : w.Holds Sound Runs) {exported : Bool} {clauses : List Clause}
    (hname : ∀ id, Sound (.function id home name)) (hc : ∀ clause ∈ clauses, Runs home clause) :
    (w.update home (·.addClauses name exported clauses)).Holds Sound Runs := by
  constructor
  · intro other key v hv
    rw [definition?_addClauses] at hv
    exact hw.definitions hv
  · intro other key f hf
    constructor
    · rcases w.function?_addClauses_cases hf with hold | ⟨rfl, rfl, -⟩
      · exact (hw.functions hold).1
      · exact hname
    · intro clause hclause
      rcases mem_clauses_addClauses w hf hclause with ⟨g, hg, hmem⟩ | ⟨rfl, -, hmem⟩
      · exact (hw.functions hg).2 clause hmem
      · exact hc clause hmem

end ClauseLisp.World
