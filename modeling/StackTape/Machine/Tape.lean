/-!
# The tape

A row of byte cells, all zero at first.  Only the cells up to the last one that was ever set are
kept; any cell beyond reads as zero.  `get` and `set` are the whole interface:
`(t.set i v).get j` is `v` at `i` and `t.get j` elsewhere.
-/

namespace StackTape

/-- The cells of a machine. -/
structure Tape where
  cells : Array UInt8 := #[]
deriving Repr, Inhabited

namespace Tape

/-- The value of a cell. -/
def get (t : Tape) (i : Nat) : UInt8 := t.cells.getD i 0

/-- Sets a cell. -/
def set (t : Tape) (i : Nat) (v : UInt8) : Tape :=
  if i < t.cells.size then ⟨t.cells.setIfInBounds i v⟩
  else if v = 0 then t
  else ⟨(t.cells ++ Array.replicate (i - t.cells.size) 0).push v⟩

/-- The largest index up to `i` of a cell that is not zero, or 0. -/
def lastNonzero (t : Tape) : Nat → Nat
  | 0 => 0
  | i + 1 => if t.get (i + 1) = 0 then t.lastNonzero i else i + 1

/-- The values of the first `n` cells. -/
def take (t : Tape) (n : Nat) : List UInt8 := (List.range n).map t.get

/-- The nonzero cells with their indexes, in ascending order. -/
def nonzero (t : Tape) : List (Nat × UInt8) :=
  (t.cells.toList.zipIdx.filter fun c => c.1 ≠ 0).map fun c => (c.2, c.1)

end Tape

end StackTape
