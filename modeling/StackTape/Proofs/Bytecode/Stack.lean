import StackTape.Lowering.Program
import StackTape.Proofs.MacroOp.View

/-!
# The stack machine

What bytecode means by itself: bytes on a stack, named slots, an input and an output.
`Instr.effect` is one instruction that does not jump; it is `none` where the stack is too short or
a literal is no byte.  `Program.after` runs a program block by block.
-/

namespace StackTape

/-- The state of the stack machine. -/
@[ext]
structure Store where
  /-- The expression stack, top first. -/
  stack : List UInt8
  slots : Bytes → UInt8
  input : Bytes
  output : Bytes

/-- Before the first instruction. -/
def Store.initial (input : Bytes) : Store := ⟨[], fun _ => 0, input, []⟩

/-- The byte that `read` pushes, and the input behind it. -/
def Store.next (eof : EofMode) : Bytes → UInt8 × Bytes
  | [] => (eof.store 0, [])
  | b :: rest => (b, rest)

namespace Instr

/-- What an instruction on two bytes makes of them, the lower one first. -/
def combine : Instr → Option (UInt8 → UInt8 → UInt8)
  | .addc => some fun x y => x + y
  | .subc => some fun x y => x - y
  | .and => some fun x y => View.bit (x ≠ 0 && y ≠ 0)
  | .or => some fun x y => View.bit (x ≠ 0 || y ≠ 0)
  | .xor => some fun x y => View.bit ((x ≠ 0) != (y ≠ 0))
  | .eq => some fun x y => View.bit (x = y)
  | _ => none

/-- What an instruction does that does not jump. -/
def effect (eof : EofMode) (i : Instr) (s : Store) : Option Store :=
  match i, s.stack with
  | .push operand, st =>
    match Lowering.literal operand with
    | .ok v => some { s with stack := UInt8.ofInt v.toInt :: st }
    | .error _ => none
  | .pop name, x :: st => some { s with stack := st, slots := Function.update s.slots name x }
  | .dup, x :: st => some { s with stack := x :: x :: st }
  | .not, x :: st => some { s with stack := View.bit (x = 0) :: st }
  | .write, x :: st => some { s with stack := st, output := s.output ++ [x] }
  | .read, st =>
    some { s with stack := (Store.next eof s.input).1 :: st, input := (Store.next eof s.input).2 }
  | .reserve .., _ | .unreserve .., _ | .label _, _ => some s
  | i, y :: x :: st => i.combine.map fun f => { s with stack := f x y :: st }
  | _, _ => none

section

variable (eof : EofMode) {s : Store} {x : UInt8} {st : List UInt8}

/-- A literal goes on the stack as a byte. -/
theorem effect_push {operand : Bytes} {v : Int64} (hv : Lowering.literal operand = .ok v) :
    (push operand).effect eof s = some { s with stack := UInt8.ofInt v.toInt :: s.stack } := by
  simp only [effect, hv]

/-- The top of the stack goes into a slot. -/
theorem effect_pop (name : Bytes) (hs : s.stack = x :: st) :
    (pop name).effect eof s =
      some { s with stack := st, slots := Function.update s.slots name x } := by
  simp only [effect, hs]

theorem effect_dup (hs : s.stack = x :: st) :
    dup.effect eof s = some { s with stack := x :: x :: st } := by
  simp only [effect, hs]

theorem effect_not (hs : s.stack = x :: st) :
    not.effect eof s = some { s with stack := View.bit (x = 0) :: st } := by
  simp only [effect, hs]

/-- The top of the stack goes to the output. -/
theorem effect_write (hs : s.stack = x :: st) :
    write.effect eof s = some { s with stack := st, output := s.output ++ [x] } := by
  simp only [effect, hs]

/-- An instruction on two bytes takes them off the stack. -/
theorem effect_of_combine {i : Instr} {f : UInt8 → UInt8 → UInt8} (hi : i.combine = some f)
    {y : UInt8} (hs : s.stack = y :: x :: st) :
    i.effect eof s = some { s with stack := f x y :: st } := by
  cases i <;> cases hi <;> simp only [effect, hs] <;> rfl

end

/-- What instructions in sequence do. -/
def effectAll (eof : EofMode) : List Instr → Store → Option Store
  | [], s => some s
  | i :: rest, s => (i.effect eof s).bind (effectAll eof rest)

end Instr

/-! ### Blocks -/

/-- Runs the instructions of a block: the label to go on at, if there is one, and the state.
`exit` is where the block goes on without a terminator. -/
def Block.runFrom (eof : EofMode) (exit : Option Bytes) :
    List Instr → Store → Option (Option Bytes × Store)
  | [], s => some (exit, s)
  | .jump target :: _, s => some (some target, s)
  | .cond whenTrue whenFalse :: _, s =>
    match s.stack with
    | x :: st => some (some (if x ≠ 0 then whenTrue else whenFalse), { s with stack := st })
    | [] => none
  | i :: rest, s => (i.effect eof s).bind (runFrom eof exit rest)

/-- Where a block goes on without a terminator. -/
def Block.fallsTo (b : Block) : Option Bytes :=
  if b.trueExit.isEmpty then none else some b.trueExit

/-- Runs a block. -/
def Block.run (eof : EofMode) (b : Block) (s : Store) : Option (Option Bytes × Store) :=
  Block.runFrom eof b.fallsTo b.instrs s

namespace Program

/-- Runs the block of a label; a program that has halted stays as it is. -/
def advance (p : Program) (eof : EofMode) : Option Bytes × Store → Option (Option Bytes × Store)
  | (none, s) => some (none, s)
  | (some label, s) => (p.block? label).bind fun b => b.run eof s

/-- The block to go on at and the state after `n` blocks. -/
def after (p : Program) (eof : EofMode) (s : Store) : Nat → Option (Option Bytes × Store)
  | 0 => some (some p.entry, s)
  | n + 1 => (after p eof s n).bind (p.advance eof)

end Program

end StackTape
