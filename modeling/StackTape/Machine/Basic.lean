import Std.Data.HashMap
import StackTape.Machine.Device
import StackTape.Machine.Tape
import StackTape.Text.Decimal
import StackTape.Text.Quoted

/-!
# The tape machine

A pointer over a tape of bytes, driven by a text of eight instructions.  `Machine.exec` is one
instruction; `Machine.runFrom` repeats it under the step budget until the text ends or something
stops it.  A `[` on a zero cell goes to its matching `]`, found by a scan that is remembered for
the text; a `]` goes back to the innermost `[` that was entered.

A run takes fuel, one unit for a byte of text it looks at, and answers `none` without enough.
-/

namespace StackTape

/-- What `,` stores at the end of the input. -/
inductive EofMode where
  | unchanged
  | zero
  | max
deriving DecidableEq, Repr, Inhabited

namespace EofMode

/-- The number of a mode. -/
def number : EofMode → Int64
  | .unchanged => 0
  | .zero => 1
  | .max => 2

/-- The name of a mode. -/
def name : EofMode → Bytes
  | .unchanged => Bytes.ascii "unchanged"
  | .zero => Bytes.ascii "zero"
  | .max => Bytes.ascii "max"

/-- Every mode. -/
def all : List EofMode := [.unchanged, .zero, .max]

/-- The mode of a name; the empty name is the default. -/
def ofName? (name : Bytes) : Option EofMode :=
  if name.isEmpty then some .unchanged else all.find? fun m => m.name = name

/-- The message for a name that is no mode. -/
def unknownMessage (name : Bytes) : Bytes :=
  Bytes.ascii "unknown eof mode " ++ Quoted.text name

/-- The name of a number; one without a mode is written as it is. -/
def nameOfNumber (n : Int64) : Bytes :=
  match all.find? fun m => m.number = n with
  | some m => m.name
  | none => Bytes.ascii "EOFMode(" ++ Decimal.ofWord n ++ Bytes.ascii ")"

/-- The value that a cell takes at the end of the input. -/
def store : EofMode → UInt8 → UInt8
  | .unchanged, v => v
  | .zero, _ => 0
  | .max, _ => 255

end EofMode

/-- How a machine runs. -/
structure Options where
  /-- The number of instructions after which a run stops; zero is no limit. -/
  maxSteps : UInt64 := 0
  eof : EofMode := .unchanged
  /-- The state is written out before every instruction. -/
  tracing : Bool := false
deriving DecidableEq, Repr, Inhabited

/-- What an instruction can do wrong. -/
inductive FaultKind where
  | pointerUnderflow
  | pointerOverflow
  | unbalancedLoop
  | unrecognized
deriving DecidableEq, Repr

/-- The words for a fault. -/
def FaultKind.message : FaultKind → Bytes
  | .pointerUnderflow => Bytes.ascii "pointer underflow"
  | .pointerOverflow => Bytes.ascii "pointer overflow"
  | .unbalancedLoop => Bytes.ascii "unbalanced loop"
  | .unrecognized => Bytes.ascii "unrecognized instruction"

/-- A fault and where it was met. -/
structure Fault where
  kind : FaultKind
  ip : Nat
  pointer : Nat
  /-- The instruction; zero at the end of the text. -/
  instr : UInt8
deriving DecidableEq, Repr

/-- The message of a fault. -/
def Fault.message (f : Fault) : Bytes :=
  Bytes.ascii "vm: " ++ f.kind.message ++
    (if f.instr = 0 then Bytes.ascii " at end of program"
      else Bytes.ascii " at instruction " ++ Decimal.ofNat f.ip ++ 0x20 :: Quoted.byte f.instr) ++
    Bytes.ascii " (pointer " ++ Decimal.ofNat f.pointer ++ Bytes.ascii ")"

/-- Why a run stops before the end of its text. -/
inductive Stop where
  | fault (f : Fault)
  | stepLimit (steps : UInt64) (ip : Nat)
  | outputFailed (ip : Nat)
  | inputFailed (ip : Nat)
  | aborted
deriving DecidableEq, Repr

/-- The words for a device that fails. -/
def deviceFailure : Bytes := Bytes.ascii "device failure"

/-- The message of a stopped run. -/
def Stop.message : Stop → Bytes
  | .fault f => f.message
  | .stepLimit steps ip =>
    Bytes.ascii "vm: step limit reached after " ++ Decimal.ofNat steps.toNat ++
      Bytes.ascii " steps at instruction " ++ Decimal.ofNat ip
  | .outputFailed ip =>
    Bytes.ascii "vm: output at instruction " ++ Decimal.ofNat ip ++ Bytes.ascii ": " ++
      deviceFailure
  | .inputFailed ip =>
    Bytes.ascii "vm: input at instruction " ++ Decimal.ofNat ip ++ Bytes.ascii ": " ++
      deviceFailure
  | .aborted => Bytes.ascii "aborted"

/-- The state of a machine. -/
structure Machine where
  /-- The number of cells. -/
  capacity : Nat
  tape : Tape := {}
  pointer : Nat := 0
  /-- The positions of the open loops, innermost first. -/
  loops : List Nat := []
  /-- The largest index of a nonzero cell, or 0. -/
  farthest : Nat := 0
  /-- The instructions executed since the last reset. -/
  steps : UInt64 := 0
  /-- The text of the last run. -/
  code : Bytes := []
  /-- The matching `]` of every `[` of that text that was passed over. -/
  skips : Std.HashMap Nat Nat := {}
  input : Source := {}
  output : Sink := {}
  /-- What was traced. -/
  trace : Array UInt8 := #[]
deriving Inhabited

namespace Machine

/-- The number of cells when none is asked for. -/
def defaultCapacity : Nat := 30000

/-- The largest number of cells that can be had at all. -/
def largestCapacity : Nat := 0x1000000000000

/-- A machine with a zero tape; no tape is larger than `largestCapacity`. -/
def new? (capacity : Int64) (input : Source) (output : Sink) : Option Machine :=
  if capacity ≤ 0 then some { capacity := defaultCapacity, input, output }
  else
    let n := capacity.toInt.toNat
    if n ≤ largestCapacity then some { capacity := n, input, output } else none

/-- The tape zero again and all progress forgotten; the devices stay. -/
def reset (m : Machine) : Machine :=
  { capacity := m.capacity, input := m.input, output := m.output, trace := m.trace }

/-- The value of a cell. -/
def cell (m : Machine) (i : Nat) : UInt8 := m.tape.get i

/-- The value under the pointer. -/
def current (m : Machine) : UInt8 := m.cell m.pointer

/-- The index of a cell, if it is on the tape. -/
def index? (m : Machine) (i : Int64) : Option Nat :=
  if 0 ≤ i ∧ i.toInt.toNat < m.capacity then some i.toInt.toNat else none

/-- Sets a cell and keeps the watermark. -/
def put (m : Machine) (i : Nat) (v : UInt8) : Machine :=
  let tape := m.tape.set i v
  let farthest :=
    if v ≠ 0 then max i m.farthest
    else if i = m.farthest then tape.lastNonzero i
    else m.farthest
  { m with tape, farthest }

/-- Sets a cell from outside; `none` if it is not on the tape. -/
def poke? (m : Machine) (i : Int64) (v : UInt8) : Option Machine := (m.index? i).map (m.put · v)

/-- Reads a cell from outside; `none` if it is not on the tape. -/
def cell? (m : Machine) (i : Int64) : Option UInt8 := (m.index? i).map m.cell

/-- The first `n` cells; `none` if there are not so many. -/
def cells? (m : Machine) (n : Int64) : Option Bytes :=
  if 0 ≤ n ∧ n.toInt.toNat ≤ m.capacity then some (m.tape.take n.toInt.toNat) else none

/-- A pointer that is not on the tape. -/
structure SeekError where
  target : Int64
  capacity : Nat
deriving DecidableEq, Repr

/-- The message of a refused move. -/
def SeekError.message (e : SeekError) : Bytes :=
  Bytes.ascii "vm: seek " ++ Decimal.ofWord e.target ++ Bytes.ascii " outside tape of " ++
    Decimal.ofNat e.capacity ++ Bytes.ascii " cells"

/-- Moves the pointer to a cell. -/
def seek (m : Machine) (p : Int64) : Except SeekError Machine :=
  match m.index? p with
  | some i => .ok { m with pointer := i }
  | none => .error ⟨p, m.capacity⟩

/-! ### State as text -/

/-- One cell as text, marked if the pointer stands on it. -/
def cellText (m : Machine) (i : Nat) : Bytes :=
  let v := Decimal.ofNat (m.cell i).toNat
  if i = m.pointer then 0x3E :: v ++ [0x3C, 0x20] else 0x5B :: v ++ [0x5D, 0x20]

/-- The first `n` cells as a line. -/
def rowText (m : Machine) (n : Nat) : Bytes := Bytes.line ((List.range n).flatMap m.cellText)

/-- The cells up to an index, as far as the tape goes, as a line. -/
def cellsText (m : Machine) (last : Int64) : Bytes :=
  if last < 0 then m.rowText 0
  else m.rowText (min (last.toInt.toNat + 1) m.capacity)

/-- The cells up to the farthest one that is nonzero or under the pointer, as a line. -/
def usedText (m : Machine) : Bytes := m.rowText (min (max m.farthest m.pointer + 1) m.capacity)

/-- The state before the instruction at a position of a text: a mark above the text, the open
loops, outermost first, and the cells in use. -/
def stateText (m : Machine) (code : Bytes) (ip : Nat) : Bytes :=
  Bytes.line (Bytes.repeated ip 0x20 ++ [0x76]) ++ Bytes.line code ++
    Bytes.line (Bytes.ascii "loops: [" ++
      Bytes.join [0x20] (m.loops.reverse.map Decimal.ofNat) ++ [0x5D]) ++
    m.usedText ++ [Bytes.newline]

/-- The same for a position from outside; `none` if no mark can stand there. -/
def stateText? (m : Machine) (code : Bytes) (ip : Int64) : Option Bytes :=
  if ip < 0 ∨ largestCapacity < ip.toInt.toNat then none
  else some (m.stateText code ip.toInt.toNat)

/-! ### One instruction -/

/-- The white space of tape text. -/
def isSpace (c : UInt8) : Bool := c = 0x20 || c = 0x09 || c = 0x0A || c = 0x0D

/-- The first position from `i` on of a `]` that closes a loop opened before, when `depth` loops
are open inside it. -/
def matchFrom (text : Array UInt8) (depth i : Nat) : Option Nat :=
  if h : i < text.size then
    if text[i] = 0x5B then matchFrom text (depth + 1) (i + 1)
    else if text[i] = 0x5D then
      match depth with
      | 0 => some i
      | depth + 1 => matchFrom text depth (i + 1)
    else matchFrom text depth (i + 1)
  else none
termination_by text.size - i

/-- The `]` that matches the `[` at a position, from memory or by a scan that is remembered. -/
def skip (m : Machine) (text : Array UInt8) (ip : Nat) : Option Nat × Machine :=
  match m.skips[ip]? with
  | some j => (some j, m)
  | none =>
    match matchFrom text 0 (ip + 1) with
    | some j => (some j, { m with skips := m.skips.insert ip j })
    | none => (none, m)

/-- The stop of a fault at an instruction. -/
def faultAt (m : Machine) (kind : FaultKind) (ip : Nat) (c : UInt8) : Stop :=
  .fault ⟨kind, ip, m.pointer, c⟩

/-- Executes the instruction `c` at position `ip`: the machine after it, and the position to go
on at or the reason to stop. -/
def exec (eof : EofMode) (text : Array UInt8) (ip : Nat) (c : UInt8) (m : Machine) :
    Machine × Except Stop Nat :=
  if c = 0x3E then
    if m.pointer + 1 < m.capacity then ({ m with pointer := m.pointer + 1 }, .ok (ip + 1))
    else (m, .error (m.faultAt .pointerOverflow ip c))
  else if c = 0x3C then
    if m.pointer = 0 then (m, .error (m.faultAt .pointerUnderflow ip c))
    else ({ m with pointer := m.pointer - 1 }, .ok (ip + 1))
  else if c = 0x2B then
    let v := m.current + 1
    (m.put m.pointer v, .ok (ip + 1))
  else if c = 0x2D then
    let v := m.current - 1
    (m.put m.pointer v, .ok (ip + 1))
  else if c = 0x5B then
    if m.current = 0 then
      match m.skip text ip with
      | (some j, m) => (m, .ok (j + 1))
      | (none, m) => (m, .error (m.faultAt .unbalancedLoop ip c))
    else ({ m with loops := ip :: m.loops }, .ok (ip + 1))
  else if c = 0x5D then
    match m.loops with
    | [] => (m, .error (m.faultAt .unbalancedLoop ip c))
    | top :: rest => ({ m with loops := rest }, .ok top)
  else if c = 0x2E then
    match m.output.write m.current with
    | some output => ({ m with output }, .ok (ip + 1))
    | none => (m, .error (.outputFailed ip))
  else if c = 0x2C then
    match m.input.read with
    | (.byte b, input) => ({ m with input }.put m.pointer b, .ok (ip + 1))
    | (.ended, input) => ({ m with input }.put m.pointer (eof.store m.current), .ok (ip + 1))
    | (.failed, input) => ({ m with input }, .error (.inputFailed ip))
  else (m, .error (m.faultAt .unrecognized ip c))

end Machine

end StackTape
