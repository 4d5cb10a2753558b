import StackTape.Bytecode.Instr

/-!
# Fresh labels

A labeler hands out the names `stem_0`, `stem_1`, … in order and passes over those that are taken,
by an earlier name or by a claim.  Of any `n + 1` names in a row one is free when `n` are taken, so
the search is bounded.
-/

namespace StackTape

/-- The state of a supply of labels. -/
structure Labeler where
  stem : Bytes
  /-- The number the search goes on at. -/
  next : Nat := 0
  taken : List Bytes := []
deriving DecidableEq, Repr, Inhabited

namespace Labeler

/-- The candidate with a number. -/
def candidate (stem : Bytes) (i : Nat) : Bytes := stem ++ 0x5F :: Decimal.ofNat i

/-- Marks names as taken. -/
def claim (l : Labeler) (names : List Bytes) : Labeler := { l with taken := names ++ l.taken }

/-- The first number from `i` on whose candidate is free, looking at no more than `fuel`. -/
def firstFree (stem : Bytes) (taken : List Bytes) : (fuel i : Nat) → Nat
  | 0, i => i
  | fuel + 1, i =>
    if candidate stem i ∈ taken then firstFree stem taken fuel (i + 1) else i

/-- A label that was not taken, and the labeler after it. -/
def fresh (l : Labeler) : Bytes × Labeler :=
  let i := firstFree l.stem l.taken (l.taken.length + 1) l.next
  let name := candidate l.stem i
  (name, { l with next := i + 1, taken := name :: l.taken })

/-- Several labels in a row. -/
def freshMany : Nat → Labeler → List Bytes × Labeler
  | 0, l => ([], l)
  | n + 1, l =>
    let (name, l) := l.fresh
    let (names, l) := freshMany n l
    (name :: names, l)

end Labeler

end StackTape
