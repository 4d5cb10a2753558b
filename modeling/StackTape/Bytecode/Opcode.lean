import StackTape.Text.Hex

/-!
# Opcodes

The seventeen operations of the stack bytecode, the byte that stands for each, and what each does
to the expression stack.  A byte without an operation still has a name and a class.
-/

namespace StackTape

/-- An operation of the stack bytecode. -/
inductive Opcode where
  | reserve | unreserve
  | push | pop | dup
  | addc | subc
  | not | and | or | xor | eq
  | write | read
  | label | jump | cond
deriving DecidableEq, Repr, Inhabited

/-- What is known of an operation: its mnemonic, the stack cells it consumes and produces, and the
number of operands written after it. -/
structure Opcode.Info where
  name : Bytes
  pops : Nat
  pushes : Nat
  operands : Nat
deriving DecidableEq, Repr

namespace Opcode

/-- Every operation, in the order of their bytes. -/
def all : List Opcode :=
  [.reserve, .unreserve, .push, .pop, .dup, .addc, .subc, .not, .and, .or, .xor, .eq, .write,
    .read, .label, .jump, .cond]

/-- The byte of an operation; the high half is its family. -/
def toByte : Opcode → UInt8
  | .reserve => 0x00
  | .unreserve => 0x01
  | .push => 0x10
  | .pop => 0x11
  | .dup => 0x12
  | .addc => 0x20
  | .subc => 0x21
  | .not => 0x30
  | .and => 0x31
  | .or => 0x32
  | .xor => 0x33
  | .eq => 0x34
  | .write => 0x40
  | .read => 0x41
  | .label => 0x80
  | .jump => 0x81
  | .cond => 0x82

/-- The table of operations. -/
def info : Opcode → Info
  | .reserve => ⟨.ascii "reserve", 0, 0, 2⟩
  | .unreserve => ⟨.ascii "unreserve", 0, 0, 2⟩
  | .push => ⟨.ascii "push", 0, 1, 1⟩
  | .pop => ⟨.ascii "pop", 1, 0, 1⟩
  | .dup => ⟨.ascii "dup", 1, 2, 0⟩
  | .addc => ⟨.ascii "addc", 2, 1, 0⟩
  | .subc => ⟨.ascii "subc", 2, 1, 0⟩
  | .not => ⟨.ascii "not", 1, 1, 0⟩
  | .and => ⟨.ascii "and", 2, 1, 0⟩
  | .or => ⟨.ascii "or", 2, 1, 0⟩
  | .xor => ⟨.ascii "xor", 2, 1, 0⟩
  | .eq => ⟨.ascii "eq", 2, 1, 0⟩
  | .write => ⟨.ascii "out", 1, 0, 0⟩
  | .read => ⟨.ascii "in", 0, 1, 0⟩
  | .label => ⟨.ascii "label", 0, 0, 1⟩
  | .jump => ⟨.ascii "jump", 0, 0, 1⟩
  | .cond => ⟨.ascii "cond", 1, 0, 2⟩

/-- The mnemonic. -/
def name (op : Opcode) : Bytes := op.info.name

/-- The operation of a byte. -/
def ofByte? (b : UInt8) : Option Opcode := all.find? fun op => op.toByte = b

/-- The operation of a mnemonic. -/
def ofName? (name : Bytes) : Option Opcode := all.find? fun op => op.name = name

/-- The table entry of any byte; one without an operation is named by its value. -/
def infoOfByte (b : UInt8) : Info :=
  match ofByte? b with
  | some op => op.info
  | none =>
    ⟨Bytes.ascii "UNKNOWN(0x" ++ [Hex.upperDigit (b.toNat / 16), Hex.upperDigit (b.toNat % 16)] ++
      Bytes.ascii ")", 0, 0, 0⟩

/-- The family of control flow. -/
def isControlByte (b : UInt8) : Bool := 0x80 ≤ b && b ≤ 0x8F

/-- A byte whose operation ends a block. -/
def isTerminatorByte (b : UInt8) : Bool := b = jump.toByte || b = cond.toByte

/-- An operation that straight-line code does not have. -/
def isControl (op : Opcode) : Bool := isControlByte op.toByte

/-- An operation that ends a block. -/
def isTerminator (op : Opcode) : Bool := isTerminatorByte op.toByte

end Opcode

end StackTape
