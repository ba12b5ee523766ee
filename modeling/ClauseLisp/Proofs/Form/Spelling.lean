import ClauseLisp.Form.Reader

/-! The grammar of forms. `Form.Spelled` relates a form to the tokens it is written with, locations
included; it says the same as `Form.flatten` for the lexemes and `Form.LocatedAt` for the
locations. -/

namespace ClauseLisp.Form

mutual

/-- Every node of a form has the location of its first token, where the form stands at the front of
the tokens. -/
def LocatedAt : Form → List Token → Prop
  | atom loc _, ts => ts.head?.map Token.loc = some loc
  | sequence loc _ xs, ts => ts.head?.map Token.loc = some loc ∧ LocatedAllAt xs ts.tail
  | marked loc _ x, ts => ts.head?.map Token.loc = some loc ∧ LocatedAt x ts.tail

def LocatedAllAt : List Form → List Token → Prop
  | [], _ => True
  | x :: xs, ts => LocatedAt x ts ∧ LocatedAllAt xs (ts.drop (flatten x).length)

end

mutual

inductive Spelled : Form → List Token → Prop
  | atom (loc : Location) (a : Atom) : Spelled (.atom loc a) [⟨.atom a, loc⟩]
  | sequence {xs : List Form} {ts : List Token} (loc : Location) (b : Bracket) (close : Location) :
      SpelledAll xs ts →
      Spelled (.sequence loc b xs) (⟨.opening b, loc⟩ :: (ts ++ [⟨.closing b, close⟩]))
  | marked {x : Form} {ts : List Token} (loc : Location) (m : Mark) :
      Spelled x ts → Spelled (.marked loc m x) (⟨.mark m, loc⟩ :: ts)

inductive SpelledAll : List Form → List Token → Prop
  | nil : SpelledAll [] []
  | cons {x : Form} {xs : List Form} {ts us : List Token} :
      Spelled x ts → SpelledAll xs us → SpelledAll (x :: xs) (ts ++ us)

end

mutual

theorem Spelled.lexemes {x : Form} {ts : List Token} (h : Spelled x ts) :
    ts.map Token.lexeme = x.flatten :=
  match h with
  | .atom loc a => rfl
  | .sequence loc b close h => by simp [flatten, h.lexemes]
  | .marked loc m h => by simp [flatten, h.lexemes]

theorem SpelledAll.lexemes {xs : List Form} {ts : List Token} (h : SpelledAll xs ts) :
    ts.map Token.lexeme = flattenAll xs :=
  match h with
  | .nil => rfl
  | .cons h hs => by simp [flattenAll, h.lexemes, hs.lexemes]

end

theorem Spelled.length_eq {x : Form} {ts : List Token} (h : Spelled x ts) :
    ts.length = x.flatten.length := by
  rw [← h.lexemes, List.length_map]

mutual

theorem Spelled.locatedAt {x : Form} {ts : List Token} (h : Spelled x ts) (us : List Token) :
    x.LocatedAt (ts ++ us) :=
  match h with
  | .atom loc a => rfl
  | .sequence loc b close h => ⟨rfl, by simpa using h.locatedAt (⟨.closing b, close⟩ :: us)⟩
  | .marked loc m h => ⟨rfl, h.locatedAt us⟩

theorem SpelledAll.locatedAt {xs : List Form} {ts : List Token} (h : SpelledAll xs ts)
    (us : List Token) : LocatedAllAt xs (ts ++ us) :=
  match h with
  | .nil => trivial
  | .cons h hs => ⟨by simpa using h.locatedAt _, by simpa [← h.length_eq] using hs.locatedAt us⟩

end

mutual

theorem spelled_of_locatedAt {x : Form} {ts us : List Token}
    (hlex : ts.map Token.lexeme = x.flatten) (hloc : x.LocatedAt (ts ++ us)) : Spelled x ts := by
  match x with
  | .atom loc a =>
    obtain ⟨⟨l, loc'⟩, ts', rfl, rfl, hnil⟩ := List.map_eq_cons_iff.mp hlex
    obtain rfl := List.map_eq_nil_iff.mp hnil
    obtain rfl : loc' = loc := by simpa [LocatedAt] using hloc
    exact .atom loc' a
  | .sequence loc b xs =>
    obtain ⟨⟨l, loc'⟩, ts', rfl, rfl, htail⟩ := List.map_eq_cons_iff.mp hlex
    obtain ⟨vs, ws, rfl, helements, hclose⟩ := List.map_eq_append_iff.mp htail
    obtain ⟨⟨l, close⟩, ws', rfl, rfl, hnil⟩ := List.map_eq_cons_iff.mp hclose
    obtain rfl := List.map_eq_nil_iff.mp hnil
    obtain ⟨rfl, hrest⟩ : loc' = loc ∧ LocatedAllAt xs (vs ++ (⟨.closing b, close⟩ :: us)) := by
      simpa [LocatedAt] using hloc
    exact .sequence loc' b close (spelledAll_of_locatedAt helements hrest)
  | .marked loc m x =>
    obtain ⟨⟨l, loc'⟩, ts', rfl, rfl, hdatum⟩ := List.map_eq_cons_iff.mp hlex
    obtain ⟨rfl, hrest⟩ : loc' = loc ∧ LocatedAt x (ts' ++ us) := by
      simpa [LocatedAt] using hloc
    exact .marked loc' m (spelled_of_locatedAt hdatum hrest)

theorem spelledAll_of_locatedAt {xs : List Form} {ts us : List Token}
    (hlex : ts.map Token.lexeme = flattenAll xs) (hloc : LocatedAllAt xs (ts ++ us)) :
    SpelledAll xs ts := by
  match xs with
  | [] =>
    obtain rfl := List.map_eq_nil_iff.mp hlex
    exact .nil
  | x :: xs =>
    obtain ⟨vs, ws, rfl, hv, hw⟩ := List.map_eq_append_iff.mp hlex
    obtain ⟨hfirst, hrest⟩ : LocatedAt x (vs ++ (ws ++ us)) ∧ LocatedAllAt xs (ws ++ us) := by
      simpa [LocatedAllAt, ← hv] using hloc
    exact .cons (spelled_of_locatedAt hv hfirst) (spelledAll_of_locatedAt hw hrest)

end

theorem spelledAll_iff {xs : List Form} {ts : List Token} :
    SpelledAll xs ts ↔ ts.map Token.lexeme = flattenAll xs ∧ LocatedAllAt xs ts := by
  constructor
  · intro h
    exact ⟨h.lexemes, by simpa using h.locatedAt []⟩
  · rintro ⟨hlex, hloc⟩
    exact spelledAll_of_locatedAt hlex (List.append_nil ts ▸ hloc)

theorem SpelledAll.append {xs ys : List Form} {ts us : List Token} (h : SpelledAll xs ts)
    (h' : SpelledAll ys us) : SpelledAll (xs ++ ys) (ts ++ us) := by
  induction xs generalizing ts with
  | nil =>
    cases h
    exact h'
  | cons x xs ih =>
    obtain _ | ⟨hx, hxs⟩ := h
    rw [List.append_assoc]
    exact .cons hx (ih hxs)

theorem SpelledAll.concat {xs : List Form} {x : Form} {ts us : List Token}
    (h : SpelledAll xs.reverse ts) (hx : Spelled x us) :
    SpelledAll (x :: xs).reverse (ts ++ us) := by
  have h' := h.append (.cons hx .nil)
  rwa [← List.reverse_cons, List.append_nil] at h'

theorem heightAll_le_iff {xs : List Form} {n : Nat} :
    heightAll xs ≤ n ↔ ∀ x ∈ xs, height x ≤ n := by
  induction xs with
  | nil => simp [heightAll]
  | cons x xs ih => rw [heightAll, Nat.max_le, ih, List.forall_mem_cons]

mutual

def erase : Form → Form
  | atom _ a => atom .unknown a
  | sequence _ b xs => sequence .unknown b (eraseAll xs)
  | marked _ m x => marked .unknown m (erase x)

def eraseAll : List Form → List Form
  | [] => []
  | x :: xs => erase x :: eraseAll xs

end

mutual

theorem height_erase (x : Form) : x.erase.height = x.height :=
  match x with
  | .atom .. => rfl
  | .sequence _ _ xs => by rw [erase, height, height, heightAll_eraseAll xs]
  | .marked _ _ x => by rw [erase, height, height, height_erase x]

theorem heightAll_eraseAll (xs : List Form) : heightAll (eraseAll xs) = heightAll xs :=
  match xs with
  | [] => rfl
  | x :: xs => by rw [eraseAll, heightAll, heightAll, height_erase x, heightAll_eraseAll xs]

end

mutual

theorem exists_spelled {x : Form} {ts : List Token} (h : ts.map Token.lexeme = x.flatten) :
    ∃ y, Spelled y ts ∧ y.erase = x.erase := by
  match x with
  | .atom _ a =>
    obtain ⟨⟨l, loc⟩, ts', rfl, rfl, hnil⟩ := List.map_eq_cons_iff.mp h
    obtain rfl := List.map_eq_nil_iff.mp hnil
    exact ⟨_, .atom loc a, rfl⟩
  | .sequence _ b xs =>
    obtain ⟨⟨l, loc⟩, ts', rfl, rfl, htail⟩ := List.map_eq_cons_iff.mp h
    obtain ⟨us, vs, rfl, helements, hclose⟩ := List.map_eq_append_iff.mp htail
    obtain ⟨⟨l, close⟩, vs', rfl, rfl, hnil⟩ := List.map_eq_cons_iff.mp hclose
    obtain rfl := List.map_eq_nil_iff.mp hnil
    obtain ⟨ys, hys, herase⟩ := exists_spelledAll helements
    exact ⟨_, .sequence loc b close hys, by rw [erase, erase, herase]⟩
  | .marked _ m x =>
    obtain ⟨⟨l, loc⟩, ts', rfl, rfl, hdatum⟩ := List.map_eq_cons_iff.mp h
    obtain ⟨y, hy, herase⟩ := exists_spelled hdatum
    exact ⟨_, .marked loc m hy, by rw [erase, erase, herase]⟩

theorem exists_spelledAll {xs : List Form} {ts : List Token}
    (h : ts.map Token.lexeme = flattenAll xs) :
    ∃ ys, SpelledAll ys ts ∧ eraseAll ys = eraseAll xs := by
  match xs with
  | [] =>
    obtain rfl := List.map_eq_nil_iff.mp h
    exact ⟨[], .nil, rfl⟩
  | x :: xs =>
    obtain ⟨us, vs, rfl, hu, hv⟩ := List.map_eq_append_iff.mp h
    obtain ⟨y, hy, herase⟩ := exists_spelled hu
    obtain ⟨ys, hys, heraseAll⟩ := exists_spelledAll hv
    exact ⟨y :: ys, .cons hy hys, by rw [eraseAll, eraseAll, herase, heraseAll]⟩

end

end ClauseLisp.Form
