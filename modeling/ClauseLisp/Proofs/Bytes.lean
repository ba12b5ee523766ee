import ClauseLisp.Bytes

/-! Facts about single bytes are decided by trying all of them, and a run of bytes of one class ends
in front of a byte that is not in it. -/

namespace ClauseLisp

instance (priority := low) decidableForallByte (p : UInt8 → Prop) [DecidablePred p] :
    Decidable (∀ c, p c) :=
  decidable_of_iff (∀ n : Fin 256, p (UInt8.ofFin n))
    ⟨fun h c => h c.toFin, fun h n => h (UInt8.ofFin n)⟩

namespace Bytes

variable {p : UInt8 → Bool} {s rest : Bytes}

/-- The bytes `rest` do not start with one of the class. -/
def Leaves (p : UInt8 → Bool) (rest : Bytes) : Prop := ∀ c ∈ rest.head?, p c = false

theorem leaves_cons {c : UInt8} (h : p c = false) (rest : Bytes) : Leaves p (c :: rest) := by
  intro d hd
  cases hd
  exact h

theorem leaves_dropWhile (p : UInt8 → Bool) (s : Bytes) : Leaves p (s.dropWhile p) := by
  intro c hc
  have h := List.head?_dropWhile_not p s
  rw [Option.mem_def.mp hc] at h
  simpa using h

theorem Leaves.takeWhile_eq_nil (h : Leaves p rest) : rest.takeWhile p = [] := by
  cases rest with
  | nil => rfl
  | cons c rest => simp [h c rfl]

theorem Leaves.dropWhile_eq_self (h : Leaves p rest) : rest.dropWhile p = rest := by
  cases rest with
  | nil => rfl
  | cons c rest => simp [h c rfl]

theorem takeWhile_append_leaves (hs : ∀ c ∈ s, p c = true) (h : Leaves p rest) :
    (s ++ rest).takeWhile p = s := by
  rw [List.takeWhile_append_of_pos hs, h.takeWhile_eq_nil, List.append_nil]

theorem dropWhile_append_leaves (hs : ∀ c ∈ s, p c = true) (h : Leaves p rest) :
    (s ++ rest).dropWhile p = rest := by
  rw [List.dropWhile_append_of_pos hs, h.dropWhile_eq_self]

theorem of_mem_takeWhile {c : UInt8} (h : c ∈ s.takeWhile p) : p c = true :=
  List.all_eq_true.mp List.all_takeWhile c h

end Bytes
end ClauseLisp
