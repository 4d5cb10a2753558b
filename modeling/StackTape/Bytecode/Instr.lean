import StackTape.Bytecode.Opcode
import StackTape.Text.Decimal

/-!
# Instructions

One instruction of the stack bytecode with its operands, its opcode and the text it is written as.
-/

namespace StackTape

/-- An instruction. -/
inductive Instr where
  /-- Lays out a slot of `size` cells above the current top. -/
  | reserve (name : Bytes) (size : Int64)
  /-- Releases a slot. -/
  | unreserve (name : Bytes) (size : Int64)
  /-- Pushes a sized literal such as `5c`. -/
  | push (operand : Bytes)
  /-- Stores the top of the stack into a slot. -/
  | pop (name : Bytes)
  /-- Doubles the top. -/
  | dup
  /-- Adds the top into the cell below. -/
  | addc
  /-- Subtracts the top from the cell below. -/
  | subc
  /-- Turns the top into 1 if it is zero and into 0 otherwise. -/
  | not
  /-- 1 if both of the top two are nonzero. -/
  | and
  /-- 1 if one of the top two is nonzero. -/
  | or
  /-- 1 if exactly one of the top two is nonzero. -/
  | xor
  /-- 1 if the top two are equal. -/
  | eq
  /-- Pops a character and writes it. -/
  | write
  /-- Reads a character and pushes it. -/
  | read
  /-- Starts a block. -/
  | label (name : Bytes)
  /-- Goes on at another block. -/
  | jump (target : Bytes)
  /-- Pops and goes on at one of two blocks, the first if the value was nonzero. -/
  | cond (whenTrue whenFalse : Bytes)
deriving DecidableEq, Repr, Inhabited

namespace Instr

/-- The operation of an instruction. -/
def opcode : Instr → Opcode
  | .reserve .. => .reserve
  | .unreserve .. => .unreserve
  | .push _ => .push
  | .pop _ => .pop
  | .dup => .dup
  | .addc => .addc
  | .subc => .subc
  | .not => .not
  | .and => .and
  | .or => .or
  | .xor => .xor
  | .eq => .eq
  | .write => .write
  | .read => .read
  | .label _ => .label
  | .jump _ => .jump
  | .cond .. => .cond

/-- The operands as words. -/
def operands : Instr → List Bytes
  | .reserve name size => [name, Decimal.ofWord size]
  | .unreserve name size => [name, Decimal.ofWord size]
  | .push operand => [operand]
  | .pop name => [name]
  | .label name => [name]
  | .jump target => [target]
  | .cond whenTrue whenFalse => [whenTrue, whenFalse]
  | _ => []

/-- The mnemonic and the operands, a space before each operand. -/
def text (i : Instr) : Bytes := Bytes.join [0x20] (i.opcode.name :: i.operands)

/-- The push of the character-sized literal `v`. -/
def char (v : Int64) : Instr := .push (Decimal.ofWord v ++ [0x63])

/-- An instruction that ends a block. -/
def isTerminator (i : Instr) : Bool := i.opcode.isTerminator

/-- The name an instruction defines as a label. -/
def label? : Instr → Option Bytes
  | .label name => some name
  | _ => none

/-- The names an instruction may go on at. -/
def targets : Instr → List Bytes
  | .jump target => [target]
  | .cond whenTrue whenFalse => [whenTrue, whenFalse]
  | _ => []

/-- The code has a control-flow instruction. -/
def hasControl (code : List Instr) : Bool := code.any (·.opcode.isControl)

end Instr

end StackTape
