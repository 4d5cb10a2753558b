import StackTape.Text.Bytes

/-!
# Decimal integers

Writing: the usual digits, a minus sign for negative numbers, optional zero padding and grouping
by thousands.  Reading: an optional sign and digits, within the 64-bit range.  A number that leaves
the unsigned 64-bit range is out of range at the digit that does it, whatever follows.
-/

namespace StackTape

namespace Decimal

/-- The digits of a natural number, without leading zeros. -/
def ofNat (n : Nat) : Bytes := (Nat.toDigits 10 n).map fun c => c.toNat.toUInt8

/-- A signed number. -/
def ofInt (n : Int) : Bytes :=
  if n < 0 then 0x2D :: ofNat n.natAbs else ofNat n.natAbs

/-- A signed word. -/
def ofWord (n : Int64) : Bytes := ofInt n.toInt

/-- At least `width` digits, filled with zeros in front. -/
def padded (width n : Nat) : Bytes :=
  let d := ofNat n
  Bytes.repeated (width - d.length) 0x30 ++ d

/-- Groups of three digits from the right, given the digits last one first. -/
def groups : Bytes → Bytes
  | a :: b :: c :: d :: rest => a :: b :: c :: 0x2C :: groups (d :: rest)
  | short => short

/-- A signed number with a comma between groups of three digits. -/
def grouped (n : Int) : Bytes :=
  let d := (groups (ofNat n.natAbs).reverse).reverse
  if n < 0 then 0x2D :: d else d

/-- The value of a decimal digit. -/
def digit? (b : UInt8) : Option Nat :=
  if 0x30 ≤ b && b ≤ 0x39 then some (b.toNat - 0x30) else none

end Decimal

/-- Why a text is no 64-bit integer. -/
inductive IntegerFault where
  | malformed
  | outOfRange
deriving DecidableEq, Repr

namespace IntegerFault

/-- The words for a fault. -/
def message : IntegerFault → Bytes
  | .malformed => Bytes.ascii "invalid syntax"
  | .outOfRange => Bytes.ascii "value out of range"

end IntegerFault

namespace Decimal

/-- Folds digits into a number of the given base, stopping at the first fault. -/
def magnitude (base : Nat) (digit : UInt8 → Option Nat) : Nat → Bytes → Except IntegerFault Nat
  | acc, [] => .ok acc
  | acc, b :: rest =>
    match digit b with
    | none => .error .malformed
    | some d =>
      let next := acc * base + d
      if next < 0x10000000000000000 then magnitude base digit next rest else .error .outOfRange

/-- Splits off an optional sign; `true` is minus. -/
def sign : Bytes → Bool × Bytes
  | 0x2B :: rest => (false, rest)
  | 0x2D :: rest => (true, rest)
  | b => (false, b)

/-- A magnitude with its sign as a signed word. -/
def signed (negative : Bool) (n : Nat) : Except IntegerFault Int64 :=
  if negative then
    if n ≤ 0x8000000000000000 then .ok (Int64.ofInt (-(n : Int))) else .error .outOfRange
  else
    if n < 0x8000000000000000 then .ok (Int64.ofNat n) else .error .outOfRange

/-- Reads a signed decimal word. -/
def parse (b : Bytes) : Except IntegerFault Int64 :=
  let (negative, rest) := sign b
  if rest.isEmpty then .error .malformed
  else
    match magnitude 10 digit? 0 rest with
    | .ok n => signed negative n
    | .error fault => .error fault

end Decimal

end StackTape
