/-!
# Byte strings

Every text of the library is a list of bytes: source files, names, tape code and messages may hold
bytes that are no UTF-8 at all.  `Bytes.ascii` writes the library's own words.
-/

namespace StackTape

/-- A text, byte by byte. -/
abbrev Bytes := List UInt8

namespace Bytes

/-- The bytes of an ASCII literal. -/
def ascii (s : String) : Bytes := s.toList.map fun c => c.toNat.toUInt8

/-- `n` copies of the byte `b`. -/
def repeated (n : Nat) (b : UInt8) : Bytes := List.replicate n b

/-- The line end. -/
def newline : UInt8 := 0x0A

/-- A line of text with its line end. -/
def line (b : Bytes) : Bytes := b ++ [newline]

/-- The pieces in order with `sep` between neighbours. -/
def join (sep : Bytes) : List Bytes → Bytes
  | [] => []
  | [b] => b
  | b :: rest => b ++ sep ++ join sep rest

/-- `b` without the last byte when that byte is `c`. -/
def dropLast? (c : UInt8) (b : Bytes) : Option Bytes :=
  if b.getLast? = some c then some b.dropLast else none

/-- `b` with spaces in front up to `width` bytes. -/
def padLeft (width : Nat) (b : Bytes) : Bytes := repeated (width - b.length) 0x20 ++ b

/-- Cuts at every occurrence of `c`; a text without `c` is one piece. -/
def splitOn (c : UInt8) : Bytes → List Bytes
  | [] => [[]]
  | b :: rest =>
    if b = c then [] :: splitOn c rest
    else
      match splitOn c rest with
      | [] => [[b]]
      | piece :: pieces => (b :: piece) :: pieces

end Bytes

end StackTape
