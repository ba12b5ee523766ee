import ClauseLisp.Location

/-! A reading position in a source text, with one byte of lookahead or more. -/

namespace ClauseLisp

structure Cursor where
  source : Bytes
  position : Nat
  location : Location

namespace Cursor

def ofSource (source file : Bytes) : Cursor := ⟨source, 0, .start file⟩

/-- The byte `offset` places ahead; places are counted modulo 2^64. -/
def peekAt (c : Cursor) (offset : UInt64) : Option UInt8 :=
  c.source[(c.position + offset.toNat) % Nat.pow 2 64]?

def peek (c : Cursor) : Option UInt8 := c.peekAt 0

def read (c : Cursor) : Option UInt8 × Cursor :=
  match c.peek with
  | none => (none, c)
  | some b => (some b, { c with position := c.position + 1, location := c.location.next b })

def advanceAndPeek (c : Cursor) : Option UInt8 × Cursor :=
  let moved := c.read.2
  (moved.peek, moved)

end Cursor
end ClauseLisp
