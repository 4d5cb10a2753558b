import StackTape.Text.Bytes

/-!
# Lines

A text is cut at line feeds; a carriage return right before one belongs to the line end, and so
does one at the end of the text.  A line holds fewer than `limit` bytes: from the first longer one
on nothing is read.
-/

namespace StackTape

namespace Lines

/-- The number of bytes at which a line is too long. -/
def limit : Nat := 65536

/-- The lines before the first overlong one, and whether there is one. -/
structure Read where
  lines : List Bytes
  overlong : Bool
deriving DecidableEq, Repr

/-- Without one carriage return at the end. -/
def dropReturn (b : Bytes) : Bytes := (b.dropLast? 0x0D).getD b

/-- The raw lines: a line feed ends a line, and what follows the last one is a line if it is not
empty. -/
def raw (src : Bytes) : List Bytes :=
  let pieces := src.splitOn Bytes.newline
  if pieces.getLast? = some [] then pieces.dropLast else pieces

/-- Reads the lines of a text. -/
def read (src : Bytes) : Read :=
  let all := raw src
  let fitting := all.takeWhile (·.length < limit)
  ⟨fitting.map dropReturn, fitting.length < all.length⟩

end Lines

end StackTape
