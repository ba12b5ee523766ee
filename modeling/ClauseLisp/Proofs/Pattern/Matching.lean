import ClauseLisp.Pattern.Match
import ClauseLisp.Proofs.Expr.Scoped
import Mathlib.Data.List.Forall2

/-! Matching against what patterns mean. A value fits a pattern by its shape alone, and the
variables of a pattern stand at places of the value. Matching succeeds for the values that fit, and
binds each variable to what is at its place. -/

namespace ClauseLisp

namespace Value

inductive Step where
  | element (index : Nat)
  /-- To the list of all elements but the first ones. -/
  | after (count : Nat)

def elements : Value → List Value
  | list vs => vs
  | tuple vs => vs
  | _ => []

def at? : Value → List Step → Option Value
  | v, [] => some v
  | v, .element i :: path => v.elements[i]?.bind (at? · path)
  | v, .after n :: path => at? (.list (v.elements.drop n)) path

end Value

namespace Pattern

open Value (Step)

inductive Fits : Pattern → Value → Prop
  | variable {name v} : Fits (.variable name) v
  | wildcard {v} : Fits .wildcard v
  | literal {d v} : d.toValue.equal v = true → Fits (.literal d) v
  | list {ps vs} : List.Forall₂ Fits ps vs → Fits (.list ps none) (.list vs)
  | listRest {ps vs rest us} : List.Forall₂ Fits ps vs → Fits rest (.list us) →
    Fits (.list ps (some rest)) (.list (vs ++ us))
  | tuple {ps vs} : List.Forall₂ Fits ps vs → Fits (.tuple ps) (.tuple vs)

structure Occurrence where
  name : Bytes
  path : List Step

def Occurrence.below (s : Step) (o : Occurrence) : Occurrence := ⟨o.name, s :: o.path⟩

mutual

def occurrences : Pattern → List Occurrence
  | .variable name => [⟨name, []⟩]
  | .wildcard => []
  | .literal _ => []
  | .list ps none => occurrencesFrom 0 ps
  | .list ps (some rest) =>
    occurrencesFrom 0 ps ++ (occurrences rest).map (.below (.after ps.length))
  | .tuple ps => occurrencesFrom 0 ps

def occurrencesFrom (index : Nat) : List Pattern → List Occurrence
  | [] => []
  | p :: ps => (occurrences p).map (.below (.element index)) ++ occurrencesFrom (index + 1) ps

end

mutual

theorem map_name_occurrences (p : Pattern) : p.occurrences.map Occurrence.name = p.names := by
  match p with
  | .variable _ | .wildcard | .literal _ => rfl
  | .list ps none => exact map_name_occurrencesFrom 0 ps
  | .list ps (some rest) =>
    rw [occurrences, names, List.map_append, map_name_occurrencesFrom 0 ps, List.map_map]
    exact congrArg (namesAll ps ++ ·) (map_name_occurrences rest)
  | .tuple ps => exact map_name_occurrencesFrom 0 ps

theorem map_name_occurrencesFrom (index : Nat) (ps : List Pattern) :
    (occurrencesFrom index ps).map Occurrence.name = namesAll ps := by
  match ps with
  | [] => rfl
  | p :: ps =>
    rw [occurrencesFrom, namesAll, List.map_append, map_name_occurrencesFrom (index + 1) ps,
      List.map_map]
    exact congrArg (· ++ namesAll ps) (map_name_occurrences p)

end

def Occurrence.Binds (v : Value) (o : Occurrence) (b : Bytes × Value) : Prop :=
  b.1 = o.name ∧ v.at? o.path = some b.2

theorem binds_below {v u : Value} {s : Step} (h : ∀ path, v.at? (s :: path) = u.at? path)
    {os : List Occurrence} {bs : ValueFrame} (hbs : List.Forall₂ (Occurrence.Binds u) os bs) :
    List.Forall₂ (Occurrence.Binds v) (os.map (.below s)) bs := by
  rw [List.forall₂_map_left_iff]
  refine hbs.imp fun o b hb => ⟨hb.1, ?_⟩
  rw [Occurrence.below, h, hb.2]

mutual

theorem fits_of_match? {p : Pattern} {v : Value} {f g : ValueFrame} (h : p.match? v f = some g) :
    p.Fits v ∧ ∃ bs, g = bs.reverse ++ f ∧ List.Forall₂ (Occurrence.Binds v) p.occurrences bs := by
  match p with
  | .variable name =>
    obtain rfl := Option.some.inj h
    exact ⟨.variable, [(name, v)], rfl, .cons ⟨rfl, rfl⟩ .nil⟩
  | .wildcard =>
    obtain rfl := Option.some.inj h
    exact ⟨.wildcard, [], rfl, .nil⟩
  | .literal d =>
    obtain ⟨hequal, rfl⟩ : d.toValue.equal v = true ∧ f = g := by simpa [match?] using h
    exact ⟨.literal hequal, [], rfl, .nil⟩
  | .list ps none =>
    cases v with
    | list vs =>
      have hvs : ∀ j u, vs[j]? = some u → (Value.list vs).elements[0 + j]? = some u := by
        simp [Value.elements]
      obtain ⟨hfits, hbs⟩ := fits_of_matchAll? hvs h
      exact ⟨.list hfits, hbs⟩
    | _ => simp [match?] at h
  | .list ps (some rest) =>
    cases v with
    | list vs =>
      simp only [match?, Option.ite_none_left_eq_some] at h
      obtain ⟨f', hps, hrest⟩ := Option.bind_eq_some_iff.mp h.2
      -- The first elements stand at the same places in the whole list.
      have htake : ∀ j u, (vs.take ps.length)[j]? = some u →
          (Value.list vs).elements[0 + j]? = some u := by
        intro j u hu
        rw [List.getElem?_take] at hu
        split at hu
        · simpa [Value.elements] using hu
        · simp at hu
      obtain ⟨hfits, bs, rfl, hbs⟩ := fits_of_matchAll? htake hps
      obtain ⟨hfitsRest, cs, rfl, hcs⟩ := fits_of_match? hrest
      refine ⟨?_, bs ++ cs, by simp, ?_⟩
      · rw [← List.take_append_drop ps.length vs]
        exact .listRest hfits hfitsRest
      · exact List.rel_append hbs (binds_below (fun path => rfl) hcs)
    | _ => simp [match?] at h
  | .tuple ps =>
    cases v with
    | tuple vs =>
      have hvs : ∀ j u, vs[j]? = some u → (Value.tuple vs).elements[0 + j]? = some u := by
        simp [Value.elements]
      obtain ⟨hfits, hbs⟩ := fits_of_matchAll? hvs h
      exact ⟨.tuple hfits, hbs⟩
    | _ => simp [match?] at h

theorem fits_of_matchAll? {ps : List Pattern} {vs : List Value} {f g : ValueFrame} {v : Value}
    {index : Nat} (hvs : ∀ j u, vs[j]? = some u → v.elements[index + j]? = some u)
    (h : matchAll? ps vs f = some g) :
    List.Forall₂ Fits ps vs ∧ ∃ bs, g = bs.reverse ++ f ∧
      List.Forall₂ (Occurrence.Binds v) (occurrencesFrom index ps) bs := by
  match ps, vs with
  | [], [] =>
    obtain rfl := Option.some.inj h
    exact ⟨.nil, [], rfl, .nil⟩
  | p :: ps, u :: us =>
    obtain ⟨f', hp, hps⟩ := Option.bind_eq_some_iff.mp h
    have hu : v.elements[index]? = some u := hvs 0 u rfl
    have hus : ∀ j u', us[j]? = some u' → v.elements[index + 1 + j]? = some u' := by
      intro j u' hu'
      rw [Nat.add_right_comm, Nat.add_assoc]
      exact hvs (j + 1) u' hu'
    obtain ⟨hfits, bs, rfl, hbs⟩ := fits_of_match? hp
    obtain ⟨hfitsAll, cs, rfl, hcs⟩ := fits_of_matchAll? hus hps
    refine ⟨.cons hfits hfitsAll, bs ++ cs, by simp, ?_⟩
    refine List.rel_append (binds_below (fun path => ?_) hbs) hcs
    rw [Value.at?, hu, Option.bind_some]
  | [], u :: us => simp [matchAll?] at h
  | p :: ps, [] => simp [matchAll?] at h

end

mutual

theorem isSome_match?_of_fits {p : Pattern} {v : Value} (h : p.Fits v) (f : ValueFrame) :
    (p.match? v f).isSome = true := by
  match p, h with
  | _, .variable => rfl
  | _, .wildcard => rfl
  | _, .literal hequal => simp [match?, hequal]
  | .list ps none, .list hps => exact isSome_matchAll?_of_fits hps f
  | .list ps (some rest), @Fits.listRest _ vs _ us hps hrest =>
    have hlength : ps.length = vs.length := hps.length_eq
    obtain ⟨g, hg⟩ := Option.isSome_iff_exists.mp (isSome_matchAll?_of_fits hps f)
    rw [match?, hlength, if_neg (by simp), List.take_left, List.drop_left, hg, Option.bind_some]
    exact isSome_match?_of_fits hrest g
  | .tuple ps, .tuple hps => exact isSome_matchAll?_of_fits hps f

theorem isSome_matchAll?_of_fits {ps : List Pattern} {vs : List Value}
    (h : List.Forall₂ Fits ps vs) (f : ValueFrame) : (matchAll? ps vs f).isSome = true := by
  match ps, h with
  | [], .nil => rfl
  | p :: ps, .cons hp hps =>
    obtain ⟨g, hg⟩ := Option.isSome_iff_exists.mp (isSome_match?_of_fits hp f)
    rw [matchAll?, hg, Option.bind_some]
    exact isSome_matchAll?_of_fits hps g

end

theorem lookup_reverse_append {before after f : ValueFrame} {name : Bytes} {u : Value}
    (h : name ∉ after.map Prod.fst) :
    ((before ++ (name, u) :: after).reverse ++ f).lookup name = some u := by
  have hafter : after.reverse.lookup name = none := by
    rw [List.lookup_eq_none_iff]
    intro b hb
    rw [bne_iff_ne]
    rintro rfl
    exact h (List.mem_map_of_mem (List.mem_reverse.mp hb))
  rw [List.reverse_append, List.reverse_cons, List.append_assoc, List.append_assoc,
    List.lookup_append, hafter, Option.none_or, List.singleton_append, List.lookup_cons_self]

/-- Matching succeeds for the values that fit the pattern. The frame is then extended by the names
of the pattern in their order, each with what is at its place in the value, so that a name is found
where it occurs last. The names of the frame are those that are in scope of a clause with this
pattern. -/
theorem match?_binds_occurrences (p : Pattern) (v : Value) (f : ValueFrame) :
    ((p.match? v f).isSome = true ↔ p.Fits v) ∧
    ∀ g, p.match? v f = some g → ∃ bs : ValueFrame, g = bs.reverse ++ f ∧
      bs.map Prod.fst = p.names ∧ List.Forall₂ (Occurrence.Binds v) p.occurrences bs ∧
      (∀ before name u after, bs = before ++ (name, u) :: after → name ∉ after.map Prod.fst →
        g.lookup name = some u) ∧
      ∀ loc, (Expr.bindNames loc (f.map Prod.fst) p.names).result = .ok (g.map Prod.fst) := by
  refine ⟨⟨fun h => ?_, fun h => isSome_match?_of_fits h f⟩, fun g hg => ?_⟩
  · obtain ⟨g, hg⟩ := Option.isSome_iff_exists.mp h
    exact (fits_of_match? hg).1
  · obtain ⟨-, bs, rfl, hbs⟩ := fits_of_match? hg
    have hnames : bs.map Prod.fst = p.names := by
      rw [← map_name_occurrences, ← List.forall₂_eq_eq_eq, List.forall₂_map_left_iff,
        List.forall₂_map_right_iff]
      exact hbs.flip.imp fun b o hb => hb.1
    refine ⟨bs, rfl, hnames, hbs, ?_, fun loc => ?_⟩
    · rintro before name u after rfl hafter
      exact lookup_reverse_append hafter
    · rw [Expr.result_bindNames, ← hnames, List.map_append, List.map_reverse]

def twiceBound : Pattern :=
  .list [.variable (utf8 "x"), .tuple [.wildcard, .variable (utf8 "x")]]
    (some (.variable (utf8 "ys")))

theorem match?_binds_occurrences_twiceBound :
    let v : Value := .list [.integer 1, .tuple [.integer 2, .integer 3], .integer 4, .integer 5]
    ∃ g, twiceBound.match? v [] = some g ∧ twiceBound.Fits v ∧
      g.lookup (utf8 "x") = some (.integer 3) ∧
      v.at? [.after 2] = some (.list [.integer 4, .integer 5]) ∧
      (Expr.bindNames .unknown [] twiceBound.names).result = .ok (g.map Prod.fst) := by
  intro v
  obtain ⟨hfits, hbinds⟩ := match?_binds_occurrences twiceBound v []
  obtain ⟨bs, hg, -, -, hlast, hscope⟩ := hbinds _ rfl
  have hbs : bs = [(utf8 "x", .integer 1)] ++ (utf8 "x", .integer 3) ::
      [(utf8 "ys", .list [.integer 4, .integer 5])] := by
    rw [List.append_nil] at hg
    rw [← List.reverse_reverse bs, ← hg]
    rfl
  exact ⟨_, rfl, hfits.mp rfl, hlast _ _ _ _ hbs (by decide), rfl, hscope .unknown⟩

end Pattern
end ClauseLisp
