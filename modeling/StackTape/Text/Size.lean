import StackTape.Text.Decimal

/-!
# Sizes

A number of bytes for people: in the largest unit of thousands that it reaches, rounded to tenths.
Tenths are shown below ten; above, a half goes to the even neighbour.
-/

namespace StackTape

namespace Size

/-- The units, each a thousand times the one before. -/
def units : List Bytes :=
  [Bytes.ascii "B", Bytes.ascii "kB", Bytes.ascii "MB", Bytes.ascii "GB", Bytes.ascii "TB",
    Bytes.ascii "PB", Bytes.ascii "EB"]

/-- The largest of the units that a size reaches, as a power of a thousand. -/
def power (n : Nat) : Nat := ((List.range units.length).filter fun k => Nat.pow 1000 k ≤ n).length - 1

/-- The tenths of a unit in a size, a half of a tenth rounded up. -/
def tenths (n unit : Nat) : Nat := (20 * n + unit) / (2 * unit)

/-- Tenths without their fraction, a half going to the even neighbour. -/
def whole (t : Nat) : Nat :=
  let q := t / 10
  let r := t % 10
  if 5 < r ∨ (r = 5 ∧ q % 2 = 1) then q + 1 else q

/-- The text of a size. -/
def text (n : Nat) : Bytes :=
  let k := power n
  let t := tenths n (Nat.pow 1000 k)
  let digits :=
    if n < 10 then Decimal.ofNat n
    else if t < 100 then Decimal.ofNat (t / 10) ++ 0x2E :: Decimal.ofNat (t % 10)
    else Decimal.ofNat (whole t)
  digits ++ 0x20 :: units.getD k []

end Size

end StackTape
