import StackTape.Text.Bytes

/-!
# Hexadecimal digits
-/

namespace StackTape

namespace Hex

/-- The lower-case digit for a value below sixteen. -/
def digit (n : Nat) : UInt8 := if n < 10 then (0x30 + n).toUInt8 else (0x57 + n).toUInt8

/-- The upper-case digit for a value below sixteen. -/
def upperDigit (n : Nat) : UInt8 := if n < 10 then (0x30 + n).toUInt8 else (0x37 + n).toUInt8

/-- The two digits of a byte. -/
def ofByte (b : UInt8) : Bytes := [digit (b.toNat / 16), digit (b.toNat % 16)]

/-- Two digits for every byte. -/
def ofBytes (b : Bytes) : Bytes := b.flatMap ofByte

/-- The last `width` digits of `n`. -/
def padded : Nat → Nat → Bytes
  | 0, _ => []
  | width + 1, n => padded width (n / 16) ++ [digit (n % 16)]

/-- The value of a digit of either case. -/
def value? (b : UInt8) : Option Nat :=
  if 0x30 ≤ b && b ≤ 0x39 then some (b.toNat - 0x30)
  else if 0x61 ≤ b && b ≤ 0x66 then some (b.toNat - 0x57)
  else if 0x41 ≤ b && b ≤ 0x46 then some (b.toNat - 0x37)
  else none

end Hex

end StackTape
