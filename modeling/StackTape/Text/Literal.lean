import StackTape.Text.Decimal

/-!
# Integer literals

Integers with an optional base in front: `0b`, `0o`, `0x`, or a plain `0` for octal.  Underscores
may stand between digits, and between the base and the first digit.
-/

namespace StackTape

namespace Literal

/-- The lower-case form of an ASCII letter. -/
def lower (b : UInt8) : UInt8 := if 0x41 ≤ b && b ≤ 0x5A then b + 0x20 else b

/-- The separator between digits. -/
def underscore : UInt8 := 0x5F

/-- The value of a digit or letter, if it is below the base. -/
def digitIn (base : Nat) (b : UInt8) : Option Nat :=
  let c := lower b
  let v :=
    if 0x30 ≤ c && c ≤ 0x39 then c.toNat - 0x30
    else if 0x61 ≤ c && c ≤ 0x7A then c.toNat - 0x57
    else base
  if v < base then some v else none

/-- The base of a letter behind a zero. -/
def baseOf? (b : UInt8) : Option Nat :=
  match lower b with
  | 0x62 => some 2
  | 0x6F => some 8
  | 0x78 => some 16
  | _ => none

/-- The base of a text and the text behind it. -/
def base : Bytes → Nat × Bytes
  | 0x30 :: c :: d :: rest =>
    match baseOf? c with
    | some n => (n, d :: rest)
    | none => (8, c :: d :: rest)
  | 0x30 :: rest => (8, rest)
  | b => (10, b)

/-- Every underscore follows a digit and a digit follows it; `seen` says that a digit, or a base,
comes right before. -/
def separatedFrom (hex : Bool) : (seen : Bool) → Bytes → Bool
  | _, [] => true
  | seen, b :: rest =>
    if b = underscore then
      seen && (match rest with
        | [] => false
        | c :: _ => (digitIn (if hex then 16 else 10) c).isSome) && separatedFrom hex false rest
    else separatedFrom hex (digitIn (if hex then 16 else 10) b).isSome rest

/-- The underscores of a text stand where they may. -/
def separated : Bytes → Bool
  | 0x30 :: c :: rest =>
    match baseOf? c with
    | some n => separatedFrom (n = 16) true rest
    | none => separatedFrom false true (c :: rest)
  | b => separatedFrom false false b

/-- Reads an unsigned literal below `2 ^ 64`. -/
def natural (b : Bytes) : Except IntegerFault Nat :=
  if b.isEmpty then .error .malformed
  else
    let (n, digits) := base b
    match Decimal.magnitude n (digitIn n) 0 (digits.filter (· ≠ underscore)) with
    | .error fault => .error fault
    | .ok value => if separated b then .ok value else .error .malformed

/-- Reads a signed literal. -/
def parse (b : Bytes) : Except IntegerFault Int64 :=
  let (negative, rest) := Decimal.sign b
  match natural rest with
  | .error fault => .error fault
  | .ok n => Decimal.signed negative n

/-- Reads an unsigned word. -/
def parseWord (b : Bytes) : Except IntegerFault UInt64 :=
  match natural b with
  | .error fault => .error fault
  | .ok n => .ok n.toUInt64

end Literal

end StackTape
