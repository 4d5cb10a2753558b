import StackTape.Bytecode.Program
import StackTape.Frame
import StackTape.MacroOp.Contract

/-!
# Lowering straight-line code

Lowering keeps one cursor, the depth of the stack; between instructions the tape pointer stands at
it, one cell above the top of the expression stack.  Every stack reference is then an offset from
the pointer.  Work cells are borrowed directly above the cursor and are zero again after each
instruction; only how far up the tape they reached is kept.
-/

namespace StackTape

/-- A slot that is laid out, with the depth of its first cell. -/
structure Placed where
  name : Bytes
  depth : Int64
  size : Int64
deriving DecidableEq, Repr, Inhabited

/-- What lowering knows between two instructions. -/
structure Lowering where
  /-- The declared frame; without one any slot may be reserved. -/
  frame : Option Frame := none
  slots : List Placed := []
  /-- The depth of the stack, slots included. -/
  depth : Int64 := 0
  /-- The cells held by slots. -/
  reserved : Int64 := 0
  /-- One past the highest depth ever touched. -/
  high : Int64 := 0
  /-- The cells below depth zero. -/
  base : Int64 := 0
  /-- The frame is laid out for good, so that reserve and unreserve do nothing. -/
  framed : Bool := false
deriving DecidableEq, Repr, Inhabited

/-- Why an instruction or a program cannot be lowered. -/
inductive LoweringFault where
  | notInFrame (name : Bytes) (frame : Frame)
  | sizeInFrame (name : Bytes) (want got : Int64)
  | alreadyReserved (name : Bytes)
  | slotSize (size : Int64)
  | unknownSlot (name : Bytes)
  | sizeReserved (name : Bytes) (size got : Int64)
  | negativeDepth
  | underflow (need : Nat) (held : Int64)
  | notCharSized (operand : Bytes)
  | notNumber (operand : Bytes)
  | outOfByteRange (operand : Bytes)
  | contract (e : OperandError)
  | labelInside
  | afterExit
  | unknownTarget (label : Bytes)
  | unbalanced (depth height : Int64)
  | tooManyBlocks (count : Nat)
  | program (e : ProgramError)
  | slot (e : SlotError)
deriving Repr

/-- The largest number of blocks that a byte can tell apart from halting. -/
def maxBlocks : Nat := 255

/-- The words for a fault. -/
def LoweringFault.message : LoweringFault → Bytes
  | .notInFrame name frame =>
    Bytes.ascii "slot " ++ Quoted.text name ++ Bytes.ascii " not in frame " ++ frame.text ++
      Bytes.ascii ": frame mismatch"
  | .sizeInFrame name want got =>
    Bytes.ascii "slot " ++ Quoted.text name ++ Bytes.ascii " has size " ++ Decimal.ofWord want ++
      Bytes.ascii " in frame, got " ++ Decimal.ofWord got ++ Bytes.ascii ": frame mismatch"
  | .alreadyReserved name =>
    Bytes.ascii "slot " ++ Quoted.text name ++ Bytes.ascii " already reserved: frame mismatch"
  | .slotSize size =>
    Bytes.ascii "slot size " ++ Decimal.ofWord size ++ Bytes.ascii ": unsupported operand"
  | .unknownSlot name =>
    Bytes.ascii "slot " ++ Quoted.text name ++ Bytes.ascii ": unknown symbol"
  | .sizeReserved name size got =>
    Bytes.ascii "slot " ++ Quoted.text name ++ Bytes.ascii " has size " ++ Decimal.ofWord size ++
      Bytes.ascii ", unreserving " ++ Decimal.ofWord got ++ Bytes.ascii ": frame mismatch"
  | .negativeDepth => Bytes.ascii "negative stack depth"
  | .underflow need held =>
    Bytes.ascii "need " ++ Decimal.ofNat need ++ Bytes.ascii " cells, have " ++
      Decimal.ofWord held ++ Bytes.ascii ": expression stack underflow"
  | .notCharSized operand =>
    Quoted.text operand ++
      Bytes.ascii ": only char-sized literals are supported: unsupported operand"
  | .notNumber operand =>
    Quoted.text operand ++ Bytes.ascii ": not a number: unsupported operand"
  | .outOfByteRange operand =>
    Quoted.text operand ++ Bytes.ascii ": out of byte range: unsupported operand"
  | .contract e => e.message
  | .labelInside => Bytes.ascii "label inside block: unsupported opcode"
  | .afterExit => Bytes.ascii "instruction after block exit: unsupported opcode"
  | .unknownTarget label => Quoted.text label ++ Bytes.ascii ": unknown label"
  | .unbalanced depth height =>
    Bytes.ascii "depth " ++ Decimal.ofWord depth ++ Bytes.ascii " at exit, frame height " ++
      Decimal.ofWord height ++ Bytes.ascii ": block leaves the stack unbalanced"
  | .tooManyBlocks count =>
    Decimal.ofNat count ++ Bytes.ascii " blocks, limit " ++ Decimal.ofNat maxBlocks ++
      Bytes.ascii ": too many basic blocks"
  | .program e => e.message
  | .slot e => e.message

/-- A fault and where it was met. -/
structure LoweringError where
  /-- The block around it; empty in straight-line code. -/
  block : Bytes := []
  /-- The position in the list of instructions. -/
  index : Nat := 0
  /-- The instruction, if the fault is one instruction's. -/
  instr : Option Instr := none
  fault : LoweringFault
deriving Repr

/-- The message of a fault. -/
def LoweringError.message (e : LoweringError) : Bytes :=
  Bytes.ascii "lowering: " ++
    (if e.block.isEmpty then [] else
      Bytes.ascii "block " ++ Quoted.text e.block ++ Bytes.ascii ": ") ++
    (match e.instr with
      | none => []
      | some i =>
        Bytes.ascii "instruction " ++ Decimal.ofNat e.index ++ Bytes.ascii " (" ++ i.text ++
          Bytes.ascii "): ") ++
    e.fault.message

namespace Lowering

/-- Before the first instruction. -/
def start (frame : Option Frame) : Lowering := { frame }

/-- The cells above the start that the lowered code may touch, work cells included. -/
def extent (s : Lowering) : Int64 := s.base + s.high

/-- The slot of a name. -/
def slot? (s : Lowering) (name : Bytes) : Option Placed := s.slots.find? fun p => p.name = name

/-- The depth of a slot's first cell. -/
def slotDepth? (s : Lowering) (name : Bytes) : Option Int64 := (s.slot? name).map (·.depth)

/-- Records that the cells below depth `d` are used. -/
def reach (s : Lowering) (d : Int64) : Lowering := if s.high < d then { s with high := d } else s

/-- Moves the cursor by `d`. -/
def moveBy (s : Lowering) (d : Int64) : Lowering := { s with depth := s.depth + d }

/-- Asks for `n` cells of the expression stack. -/
def need (s : Lowering) (n : Nat) : Except LoweringFault Unit :=
  if s.depth - s.reserved < Int64.ofNat n then .error (.underflow n (s.depth - s.reserved))
  else .ok ()

/-- Holds a slot against the declared frame. -/
def checkFrame (s : Lowering) (name : Bytes) (size : Int64) : Except LoweringFault Unit :=
  match s.frame with
  | none => .ok ()
  | some frame =>
    match frame.size? name with
    | none => .error (.notInFrame name frame)
    | some want => if want = size then .ok () else .error (.sizeInFrame name want size)

/-- The value of a character-sized literal such as `65c` or `-1c`. -/
def literal (operand : Bytes) : Except LoweringFault Int64 :=
  match operand.dropLast? 0x63 with
  | none => .error (.notCharSized operand)
  | some digits =>
    match Decimal.parse digits with
    | .error _ => .error (.notNumber operand)
    | .ok v => if v < -128 ∨ 255 < v then .error (.outOfByteRange operand) else .ok v

/-- The operations of one instruction, with the state after it; each must keep its contract. -/
def emit (ops : List MacroOp) (s : Lowering) : Except LoweringFault (List MacroOp × Lowering) :=
  match MacroOp.validateAll ops with
  | .ok () => .ok (ops, s)
  | .error e => .error (.contract e)

/-- Lays out a slot. -/
def reserve (s : Lowering) (name : Bytes) (size : Int64) :
    Except LoweringFault (List MacroOp × Lowering) := do
  s.checkFrame name size
  if s.framed then return ([], s)
  if (s.slot? name).isSome then throw (.alreadyReserved name)
  if size ≤ 0 then throw (.slotSize size)
  let s := { s with
    slots := s.slots ++ [Placed.mk name s.depth size]
    depth := s.depth + size
    reserved := s.reserved + size }
  emit [.go size] (s.reach s.depth)

/-- Releases a slot. -/
def unreserve (s : Lowering) (name : Bytes) (size : Int64) :
    Except LoweringFault (List MacroOp × Lowering) := do
  s.checkFrame name size
  if s.framed then return ([], s)
  match s.slot? name with
  | none => throw (.unknownSlot name)
  | some p =>
    if p.size ≠ size then throw (.sizeReserved name p.size size)
    if s.depth - p.size < 0 then throw .negativeDepth
    let s := { s with
      slots := s.slots.filter fun q => q.name ≠ name
      depth := s.depth - p.size
      reserved := s.reserved - p.size }
    emit [.go (-p.size)] s

/-- Stores the top into a slot, which is cleared first. -/
def pop (s : Lowering) (name : Bytes) : Except LoweringFault (List MacroOp × Lowering) :=
  match s.slot? name with
  | none => .error (.unknownSlot name)
  | some p => do
    s.need 1
    let s := s.moveBy (-1)
    let off := p.depth - s.depth
    emit [.go (-1), .zero off, .move off 0] s

/-- The operations of an instruction.  The pointer stands one above the top, so the top is at `-1`
and work cells are at `0`, `1` and `2`. -/
def step (s : Lowering) (i : Instr) : Except LoweringFault (List MacroOp × Lowering) :=
  match i with
  | .reserve name size => s.reserve name size
  | .unreserve name size => s.unreserve name size
  | .push operand => do
    let v ← literal operand
    let s := s.moveBy 1
    emit [.add 0 v, .go 1] (s.reach s.depth)
  | .pop name => s.pop name
  | .dup => do
    s.need 1
    emit [.copy 0 (-1) 1, .go 1] ((s.reach (s.depth + 2)).moveBy 1)
  | .addc => do
    s.need 2
    emit [.move (-2) (-1), .go (-1)] (s.moveBy (-1))
  | .subc => do
    s.need 2
    emit [.unmove (-2) (-1), .go (-1)] (s.moveBy (-1))
  | .not => do
    s.need 1
    emit [.move 0 (-1), .isZero (-1) 0 false []] (s.reach (s.depth + 1))
  | .and => do
    s.need 2
    emit [.move 0 (-2), .move 1 (-1), .and (-2) [0, 1] 2, .go (-1)]
      ((s.reach (s.depth + 3)).moveBy (-1))
  | .or => do
    s.need 2
    emit [.move 0 (-2), .move 1 (-1), .or 2 [0, 1], .isZero (-2) 2 true [], .go (-1)]
      ((s.reach (s.depth + 3)).moveBy (-1))
  | .xor => do
    s.need 2
    emit [.move 0 (-2), .move 1 (-1), .xor (-2) [0, 1] 2, .go (-1)]
      ((s.reach (s.depth + 3)).moveBy (-1))
  | .eq => do
    s.need 2
    emit [.move 0 (-2), .isEq (-2) 0 (-1) [], .go (-1)]
      ((s.reach (s.depth + 1)).moveBy (-1))
  | .write => do
    s.need 1
    emit [.go (-1), .literal (Bytes.ascii ".") 0, .zero 0] (s.moveBy (-1))
  | .read =>
    let s := s.moveBy 1
    emit [.literal (Bytes.ascii ",") 0, .go 1] (s.reach s.depth)
  | .label _ | .jump _ | .cond .. => emit [.control i] s

/-- Lowers code whose first instruction has position `index`; control flow is passed on. -/
def lowerFrom (s : Lowering) (index : Nat) :
    List Instr → Except LoweringError (List MacroOp × Lowering)
  | [] => .ok ([], s)
  | i :: rest =>
    match s.step i with
    | .error fault => .error { index, instr := some i, fault }
    | .ok (ops, s) =>
      match lowerFrom s (index + 1) rest with
      | .error e => .error e
      | .ok (more, s) => .ok (ops ++ more, s)

/-- Lowers code. -/
def lower (s : Lowering) (code : List Instr) : Except LoweringError (List MacroOp × Lowering) :=
  s.lowerFrom 0 code

end Lowering

end StackTape
