import ClauseLisp.Expr.Printer
import ClauseLisp.Proofs.Bytes

/-! The text of operators is unambiguous. A reader with a stack of operators that wait for an operand
recovers every tree of names and operators from its text, up to locations, so that no two trees have
the same text. -/

namespace ClauseLisp.Expr

inductive Operator where
  | and
  | or
  | infixed (op : Operation) (h : op.isInfixed = true)
deriving DecidableEq

namespace Operator

def name : Operator → Bytes
  | and => utf8 "and"
  | or => utf8 "or"
  | infixed op _ => op.name

def binding : Operator → Nat
  | and => 2
  | or => 1
  | infixed op _ => op.binding

def text (op : Operator) : Bytes := utf8 " " ++ op.name ++ utf8 " "

def apply (loc : Location) : Operator → Expr → Expr → Expr
  | and, x, y => .and x y
  | or, x, y => .or x y
  | infixed op _, x, y => .operation loc op [x, y]

def all : List Operator :=
  [and, or, infixed .add rfl, infixed .subtract rfl, infixed .multiply rfl, infixed .divide rfl,
    infixed .remainder rfl, infixed .less rfl, infixed .greater rfl, infixed .atMost rfl,
    infixed .atLeast rfl, infixed .equal rfl, infixed .notEqual rfl]

def ofName? (name : Bytes) : Option Operator := all.find? (·.name = name)

theorem mem_all (op : Operator) : op ∈ all := by
  cases op with
  | and => decide
  | or => decide
  | infixed op h => cases op <;> cases h <;> decide

theorem ofName?_name (op : Operator) : ofName? op.name = some op :=
  (by decide : ∀ op ∈ all, ofName? op.name = some op) op op.mem_all

theorem space_notMem_name (op : Operator) : ∀ c ∈ op.name, (c != byte ' ') = true :=
  List.all_eq_true.mp
    ((by decide : ∀ op ∈ all, op.name.all (· != byte ' ') = true) op op.mem_all)

theorem binding_pos (op : Operator) : 0 < op.binding :=
  (by decide : ∀ op ∈ all, 0 < op.binding) op op.mem_all

theorem binding_lt (op : Operator) : op.binding < 6 :=
  (by decide : ∀ op ∈ all, op.binding < 6) op op.mem_all

end Operator

inductive Sign where
  | negate
  | not

namespace Sign

def operation : Sign → Operation
  | negate => .negate
  | not => .not

def text : Sign → Bytes
  | negate => utf8 "-"
  | not => utf8 "not "

def apply (loc : Location) (sign : Sign) (x : Expr) : Expr := .operation loc sign.operation [x]

end Sign

def isLetter (c : UInt8) : Bool :=
  (byte 'a' ≤ c && c ≤ byte 'z') || (byte 'A' ≤ c && c ≤ byte 'Z')

structure IsName (name : Bytes) : Prop where
  nonempty : name ≠ []
  letters : ∀ c ∈ name, isLetter c = true
  free : ∀ word ∈ [utf8 "and", utf8 "or", utf8 "not", utf8 "rem"], name ≠ word

inductive OperatorTree : Expr → Prop
  | name {word} (loc : Location) : IsName word → OperatorTree (.freeRef loc word)
  | sign {x} (loc : Location) (sign : Sign) : OperatorTree x → OperatorTree (sign.apply loc x)
  | operator {x y} (loc : Location) (op : Operator) :
    OperatorTree x → OperatorTree y → OperatorTree (op.apply loc x y)

def unlocated : Expr → Expr
  | freeRef _ name => .freeRef .unknown name
  | operation _ op [x] => .operation .unknown op [unlocated x]
  | operation _ op [x, y] => .operation .unknown op [unlocated x, unlocated y]
  | and x y => .and (unlocated x) (unlocated y)
  | or x y => .or (unlocated x) (unlocated y)
  | e => e

section Texts

variable (loc : Location) (indent : Nat) (x y : Expr)

theorem binding_pos : 0 < x.binding := by
  cases x with
  | operation loc op operands =>
    show 0 < op.binding
    cases op <;> decide
  | _ => exact Nat.zero_lt_succ _

theorem binding_operator (op : Operator) : (op.apply loc x y).binding = op.binding := by
  cases op <;> rfl

theorem unlocated_operator (op : Operator) :
    (op.apply loc x y).unlocated = op.apply .unknown x.unlocated y.unlocated := by
  cases op <;> simp only [Operator.apply, unlocated]

theorem unlocated_sign (sign : Sign) :
    (sign.apply loc x).unlocated = sign.apply .unknown x.unlocated := by
  simp only [Sign.apply, unlocated]

theorem parenthesized_unlocated (around : Nat) (right : Bool) (text : Bytes) :
    parenthesized around right x.unlocated text = parenthesized around right x text := by
  have hbinding : x.unlocated.binding = x.binding := by
    unfold unlocated
    split <;> rfl
  rw [parenthesized, parenthesized, hbinding]

theorem parenthesized_right (around : Nat) (text : Bytes) :
    parenthesized around true x text = parenthesized (around + 1) false x text := by
  simp only [parenthesized, true_and, Bool.false_eq_true, false_and, or_false,
    ← Nat.le_iff_lt_or_eq, Nat.lt_add_one_iff]

theorem shown_operator (op : Operator) :
    shown indent (op.apply loc x y) =
      parenthesized op.binding false x (shown indent x) ++ op.text ++
        parenthesized (op.binding + 1) false y (shown indent y) := by
  rw [← parenthesized_right]
  cases op with
  | and => rfl
  | or => rfl
  | infixed op h =>
    simp only [Operator.apply, shown, shownOperation, h, if_true, Operator.binding, Operator.text,
      Operator.name, List.append_assoc]

theorem shown_sign (sign : Sign) :
    shown indent (sign.apply loc x) = sign.text ++ parenthesized 6 false x (shown indent x) := by
  cases sign <;> rfl

end Texts

/-- What waits on the stack of the reader for an operand to be completed. -/
inductive Frame where
  | paren
  | sign (sign : Sign)
  | left (op : Operator) (x : Expr)

namespace Frame

def binding : Frame → Nat
  | paren => 0
  | sign _ => 6
  | left op _ => op.binding

def fill : Frame → Expr → Expr
  | paren, e => e
  | sign s, e => s.apply .unknown e
  | left op x, e => op.apply .unknown x e

end Frame

def complete (around : Nat) (e : Expr) : List Frame → Expr × List Frame
  | [] => (e, [])
  | f :: fs => if around ≤ f.binding then complete around (f.fill e) fs else (e, f :: fs)

theorem length_tail_dropWhile_le (p : UInt8 → Bool) (s : Bytes) :
    (s.dropWhile p).tail.length ≤ s.length :=
  ((List.tail_sublist _).trans (List.dropWhile_sublist p)).length_le

mutual

def readOperand (fs : List Frame) : Bytes → Option Expr
  | [] => none
  | c :: s =>
    if c = byte '(' then readOperand (.paren :: fs) s
    else if c = byte '-' then readOperand (.sign .negate :: fs) s
    else if (c :: s).takeWhile isLetter = utf8 "not" then
      readOperand (.sign .not :: fs) (s.dropWhile isLetter).tail
    else
      readOn (.freeRef .unknown ((c :: s).takeWhile isLetter)) fs ((c :: s).dropWhile isLetter)
termination_by s => (s.length, 1)
decreasing_by
  · exact Prod.Lex.left _ _ (Nat.lt_succ_self _)
  · exact Prod.Lex.left _ _ (Nat.lt_succ_self _)
  · exact Prod.Lex.left _ _ (Nat.lt_succ_of_le (length_tail_dropWhile_le _ _))
  · exact Prod.Lex.right' _ (List.dropWhile_sublist _).length_le Nat.zero_lt_one

def readOn (e : Expr) (fs : List Frame) : Bytes → Option Expr
  | [] => some (complete 1 e fs).1
  | c :: s =>
    if c = byte ')' then readOn (complete 1 e fs).1 (complete 1 e fs).2.tail s
    else
      (Operator.ofName? (s.takeWhile (· != byte ' '))).bind fun op =>
        readOperand (.left op (complete op.binding e fs).1 :: (complete op.binding e fs).2)
          (s.dropWhile (· != byte ' ')).tail
termination_by s => (s.length, 0)
decreasing_by
  · exact Prod.Lex.left _ _ (Nat.lt_succ_self _)
  · exact Prod.Lex.left _ _ (Nat.lt_succ_of_le (length_tail_dropWhile_le _ _))

end

def Waits (around : Nat) (fs : List Frame) : Prop :=
  around < 6 → ∀ f ∈ fs.head?, f.binding < around

/-- What stands after an operand of this binding: the end, or what does not take the operand apart. -/
inductive Stops (around : Nat) : Bytes → Prop
  | nil : Stops around []
  | close (s : Bytes) : Stops around (utf8 ")" ++ s)
  | operator (op : Operator) (s : Bytes) : op.binding ≤ around → Stops around (op.text ++ s)

theorem Waits.mono {p q : Nat} {fs : List Frame} (h : Waits p fs) (hpq : p ≤ q) : Waits q fs :=
  fun hq f hf => Nat.lt_of_lt_of_le (h (Nat.lt_of_le_of_lt hpq hq) f hf) hpq

theorem waits_cons {p : Nat} {f : Frame} (h : f.binding < p) (fs : List Frame) :
    Waits p (f :: fs) := by
  intro _ g hg
  cases hg
  exact h

theorem Stops.mono {p q : Nat} {s : Bytes} (h : Stops p s) (hpq : p ≤ q) : Stops q s := by
  cases h with
  | nil => exact .nil
  | close s => exact .close s
  | operator op s hop => exact .operator op s (Nat.le_trans hop hpq)

theorem Stops.leaves {p : Nat} {s : Bytes} (h : Stops p s) : s.Leaves isLetter := by
  cases h with
  | nil => exact fun c hc => nomatch hc
  | close s => exact Bytes.leaves_cons (by decide) s
  | operator op s _ => exact Bytes.leaves_cons (by decide) _

section Reader

variable {e : Expr} {fs : List Frame} {f : Frame} {s : Bytes} {p : Nat}

theorem complete_of_waits (h : Waits p fs) (hp : p < 6) : complete p e fs = (e, fs) := by
  cases fs with
  | nil => rfl
  | cons f fs =>
    have hf : f.binding < p := h hp f rfl
    rw [complete, if_neg (Nat.not_le.mpr hf)]

theorem complete_cons (h : p ≤ f.binding) : complete p e (f :: fs) = complete p (f.fill e) fs := by
  rw [complete, if_pos h]

theorem readOperand_open : readOperand fs (utf8 "(" ++ s) = readOperand (.paren :: fs) s := by
  rw [show utf8 "(" ++ s = byte '(' :: s from rfl, readOperand, if_pos rfl]

theorem readOperand_name {name : Bytes} (hname : IsName name) (hs : s.Leaves isLetter) :
    readOperand fs (name ++ s) = readOn (.freeRef .unknown name) fs s := by
  obtain ⟨c, t, rfl⟩ := List.exists_cons_of_ne_nil hname.nonempty
  have hc : isLetter c = true := hname.letters c List.mem_cons_self
  have htake := Bytes.takeWhile_append_leaves hname.letters hs
  have hdrop := Bytes.dropWhile_append_leaves hname.letters hs
  have hnot : c :: t ≠ utf8 "not" := hname.free _ (by decide)
  rw [List.cons_append] at htake hdrop ⊢
  rw [readOperand, htake, hdrop, if_neg, if_neg, if_neg hnot]
  · rintro rfl; exact absurd hc (by decide)
  · rintro rfl; exact absurd hc (by decide)

theorem readOperand_sign (sign : Sign) :
    readOperand fs (sign.text ++ s) = readOperand (.sign sign :: fs) s := by
  cases sign with
  | negate =>
    rw [show Sign.negate.text ++ s = byte '-' :: s from rfl, readOperand, if_neg (by decide),
      if_pos rfl]
  | not =>
    have hleaves : Bytes.Leaves isLetter (byte ' ' :: s) := Bytes.leaves_cons (by decide) s
    have htake : (byte 'n' :: (utf8 "ot" ++ byte ' ' :: s)).takeWhile isLetter = utf8 "not" :=
      Bytes.takeWhile_append_leaves (s := utf8 "not") (List.all_eq_true.mp (by decide)) hleaves
    have hdrop :=
      Bytes.dropWhile_append_leaves (s := utf8 "ot") (List.all_eq_true.mp (by decide)) hleaves
    rw [show Sign.not.text ++ s = byte 'n' :: (utf8 "ot" ++ byte ' ' :: s) from rfl, readOperand,
      hdrop, if_neg (by decide), if_neg (by decide), if_pos htake]
    rfl

theorem readOn_close :
    readOn e fs (utf8 ")" ++ s) = readOn (complete 1 e fs).1 (complete 1 e fs).2.tail s := by
  rw [show utf8 ")" ++ s = byte ')' :: s from rfl, readOn, if_pos rfl]

theorem readOn_operator (op : Operator) :
    readOn e fs (op.text ++ s) =
      readOperand (.left op (complete op.binding e fs).1 :: (complete op.binding e fs).2) s := by
  have hleaves : Bytes.Leaves (· != byte ' ') (byte ' ' :: s) := Bytes.leaves_cons (by decide) s
  have htake := Bytes.takeWhile_append_leaves op.space_notMem_name hleaves
  have hdrop := Bytes.dropWhile_append_leaves op.space_notMem_name hleaves
  have htext : op.text ++ s = byte ' ' :: (op.name ++ byte ' ' :: s) := by
    rw [Operator.text, List.append_assoc, List.append_assoc]
    rfl
  rw [htext, readOn, if_neg (by decide), htake, hdrop, op.ofName?_name]
  rfl

theorem readOn_fill (hf : 0 < f.binding) (hs : Stops f.binding s) :
    readOn e (f :: fs) s = readOn (f.fill e) fs s := by
  cases hs with
  | nil => rw [readOn, readOn, complete_cons hf]
  | close s => rw [readOn_close, readOn_close, complete_cons hf]
  | operator op s hop => rw [readOn_operator, readOn_operator, complete_cons hop]

end Reader

def Reads (indent : Nat) (e : Expr) : Prop :=
  ∀ fs s, Waits e.binding fs → Stops e.binding s →
    readOperand fs (shown indent e ++ s) = readOn e.unlocated fs s

section Reads

variable {e x y : Expr} {indent p : Nat} {fs : List Frame} {s : Bytes}

theorem Reads.parenthesized (h : Reads indent e) (hfs : Waits p fs) (hs : Stops p s) :
    readOperand fs (parenthesized p false e (shown indent e) ++ s) = readOn e.unlocated fs s := by
  simp only [Expr.parenthesized, Bool.false_eq_true, false_and, or_false]
  split
  next =>
    -- A parenthesis on the stack waits for anything, until it is closed.
    have hwaits : ∀ b, 0 < b → Waits b (.paren :: fs) := fun b hb => waits_cons hb fs
    rw [List.append_assoc, List.append_assoc, readOperand_open,
      h _ _ (hwaits _ e.binding_pos) (.close s), readOn_close,
      complete_of_waits (hwaits 1 Nat.zero_lt_one) (by decide)]
    rfl
  next hp =>
    have hp : p ≤ e.binding := Nat.not_lt.mp hp
    exact h fs s (hfs.mono hp) (hs.mono hp)

theorem Reads.sign (loc : Location) (sign : Sign) (h : Reads indent x) :
    Reads indent (sign.apply loc x) := by
  intro fs s _ hs
  have hbinding : (sign.apply loc x).binding = 6 := by cases sign <;> rfl
  rw [hbinding] at hs
  have hwaits : Waits 6 (.sign sign :: fs) := fun h => absurd h (Nat.lt_irrefl 6)
  rw [shown_sign, List.append_assoc, readOperand_sign, h.parenthesized hwaits hs,
    readOn_fill (f := .sign sign) (Nat.zero_lt_succ 5) hs, unlocated_sign]
  rfl

theorem Reads.operator (loc : Location) (op : Operator) (hx : Reads indent x) (hy : Reads indent y) :
    Reads indent (op.apply loc x y) := by
  -- The left operand waits with its operator for the right one.
  intro fs s hfs hs
  rw [binding_operator] at hfs hs
  have hwaits : Waits (op.binding + 1) (.left op x.unlocated :: fs) :=
    waits_cons (Nat.lt_succ_self op.binding) fs
  rw [shown_operator, List.append_assoc, List.append_assoc,
    hx.parenthesized hfs (.operator op _ (Nat.le_refl _)), readOn_operator,
    complete_of_waits hfs op.binding_lt,
    hy.parenthesized hwaits (hs.mono (Nat.le_succ _)),
    readOn_fill (f := .left op x.unlocated) op.binding_pos hs, unlocated_operator]
  rfl

theorem OperatorTree.reads (h : OperatorTree e) (indent : Nat) : Reads indent e := by
  induction h with
  | name loc hname =>
    intro fs s _ hs
    rw [shown, unlocated, readOperand_name hname hs.leaves]
  | sign loc sign _ ih => exact ih.sign loc sign
  | operator loc op _ _ ihx ihy => exact ihx.operator loc op ihy

theorem OperatorTree.readOperand_shown (h : OperatorTree e) (indent : Nat) :
    readOperand [] (shown indent e) = some e.unlocated := by
  have hread := h.reads indent [] [] (fun _ _ hf => nomatch hf) .nil
  rw [List.append_nil] at hread
  rw [hread, readOn]
  rfl

theorem OperatorTree.shown_unlocated (h : OperatorTree e) (indent : Nat) :
    shown indent e.unlocated = shown indent e := by
  induction h with
  | name loc _ => rfl
  | sign loc sign _ ih => rw [unlocated_sign, shown_sign, shown_sign, parenthesized_unlocated, ih]
  | operator loc op _ _ ihx ihy =>
    rw [unlocated_operator, shown_operator, shown_operator, parenthesized_unlocated,
      parenthesized_unlocated, ihx, ihy]

end Reads

/-- Two trees of names and operators have the same text just when they are the same tree, wherever
they were written. -/
theorem shown_eq_shown_iff {e₁ e₂ : Expr} (h₁ : OperatorTree e₁) (h₂ : OperatorTree e₂)
    (indent : Nat) : shown indent e₁ = shown indent e₂ ↔ e₁.unlocated = e₂.unlocated := by
  constructor
  · intro htext
    have hread := h₁.readOperand_shown indent
    rw [htext, h₂.readOperand_shown] at hread
    exact (Option.some.inj hread).symm
  · intro htree
    rw [← h₁.shown_unlocated, htree, h₂.shown_unlocated]

theorem shown_eq_shown_iff_subtract :
    ∃ x, OperatorTree (.operation .unknown .subtract [x, .operation .unknown .subtract [x, x]]) ∧
      OperatorTree (.operation .unknown .subtract [.operation .unknown .subtract [x, x], x]) ∧
      shown 0 (.operation .unknown .subtract [x, .operation .unknown .subtract [x, x]]) ≠
        shown 0 (.operation .unknown .subtract [.operation .unknown .subtract [x, x], x]) := by
  have hx : OperatorTree (.freeRef .unknown (utf8 "x")) :=
    .name .unknown ⟨by decide, List.all_eq_true.mp (by decide), by decide⟩
  have hxx := hx.operator .unknown (.infixed .subtract rfl) hx
  have hright := hx.operator .unknown (.infixed .subtract rfl) hxx
  have hleft := hxx.operator .unknown (.infixed .subtract rfl) hx
  refine ⟨_, hright, hleft, fun htext => ?_⟩
  have htree := (shown_eq_shown_iff hright hleft 0).mp htext
  simp [Operator.apply, unlocated] at htree

end ClauseLisp.Expr
