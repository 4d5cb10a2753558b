import StackTape.Text.Hex
import StackTape.Text.Printable
import StackTape.Text.Utf8

/-!
# Quoted text

A text in double quotes, or a character in single quotes.  Printable characters stand for
themselves; the quote and the backslash take a backslash; seven control characters have letters;
anything else is written by its code point, and a stray byte by its value.
-/

namespace StackTape

namespace Quoted

/-- The letter that stands for a control character after a backslash. -/
def letter? : Nat → Option UInt8
  | 0x07 => some 0x61
  | 0x08 => some 0x62
  | 0x0C => some 0x66
  | 0x0A => some 0x6E
  | 0x0D => some 0x72
  | 0x09 => some 0x74
  | 0x0B => some 0x76
  | _ => none

/-- The backslash. -/
def backslash : UInt8 := 0x5C

/-- A code point between quotes `q`. -/
def escape (q : UInt8) (c : Nat) : Bytes :=
  if c = q.toNat || c = backslash.toNat then [backslash, c.toUInt8]
  else if isPrintable c then Utf8.encode c
  else
    match letter? c with
    | some l => [backslash, l]
    | none =>
      if c < 0x20 || c = 0x7F then [backslash, 0x78] ++ Hex.padded 2 c
      else if c < 0x10000 then [backslash, 0x75] ++ Hex.padded 4 c
      else [backslash, 0x55] ++ Hex.padded 8 c

/-- A rune between quotes `q`. -/
def rune (q : UInt8) (r : Rune) : Bytes :=
  match r.code with
  | some c => escape q c
  | none => [backslash, 0x78] ++ Hex.ofBytes r.bytes

/-- A text in double quotes. -/
def text (b : Bytes) : Bytes := 0x22 :: (Utf8.runes b).flatMap (rune 0x22) ++ [0x22]

/-- A byte, taken as a code point, in single quotes. -/
def byte (b : UInt8) : Bytes := 0x27 :: escape 0x27 b.toNat ++ [0x27]

end Quoted

end StackTape
