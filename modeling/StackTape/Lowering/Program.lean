import StackTape.Lowering.Basic

/-!
# Lowering programs

The tape has no jumps, so a program runs as one loop that keeps the number of the next block in a
cell.  Left to right the tape holds that cell, a selector, a work cell, the frame's slots and the
expression stack; depth zero is the first slot.  Blocks are numbered from 1, the entry first; the
number 0 halts.
-/

namespace StackTape

namespace Lowering

/-- The depth of the cell with the number of the next block. -/
def nextDepth : Int64 := -3

/-- The depth of the selector. -/
def selectorDepth : Int64 := -2

/-- The depth of the dispatcher's work cell. -/
def workDepth : Int64 := -1

/-- The cells below depth zero. -/
def controlSize : Int64 := 3

/-- The labels in the order they are tried: the entry, then the others as in the source. -/
def dispatchOrder (p : Program) : List Bytes :=
  p.entry :: p.order.filter fun label => label ≠ p.entry

/-- The number of a label: one more than its last position in `order`. -/
def numberIn (order : List Bytes) (label : Bytes) : Option Nat :=
  ((order.zipIdx 1).reverse.find? fun e => e.1 = label).map (·.2)

/-- The numbers of the blocks. -/
abbrev Numbers := Bytes → Option Nat

/-- The number of the block to go on at. -/
def target (numbers : Numbers) (label : Bytes) : Except LoweringFault Int64 :=
  match numbers label with
  | some n => .ok (Int64.ofNat n)
  | none => .error (.unknownTarget label)

/-- Sets the number of the next block, seen from the cursor. -/
def setNext (s : Lowering) (n : Int64) : List MacroOp :=
  [.zero (nextDepth - s.depth), .add (nextDepth - s.depth) n]

/-- The operations of a control-flow instruction at a position of its block. -/
def stepControl (numbers : Numbers) (index : Nat) (s : Lowering) (i : Instr) :
    Except LoweringFault (List MacroOp × Lowering) :=
  match i with
  | .jump label => do
    let n ← target numbers label
    emit (s.setNext n) s
  | .cond whenTrue whenFalse => do
    let t ← target numbers whenTrue
    let f ← target numbers whenFalse
    s.need 1
    let s := s.moveBy (-1)
    let s := s.reach (s.depth + 2)
    emit [.go (-1), .branch 0 1 (s.setNext t) (s.setNext f)] s
  | _ => if index = 0 then .ok ([], s) else .error .labelInside

/-- The operations of an instruction of a block. -/
def stepIn (numbers : Numbers) (index : Nat) (s : Lowering) (i : Instr) :
    Except LoweringFault (List MacroOp × Lowering) :=
  if i.opcode.isControl then s.stepControl numbers index i else s.step i

/-- Lowers the instructions of a block from a position on; `ended` says that a terminator came
before.  The result says whether one came at all. -/
def lowerInstrs (numbers : Numbers) (label : Bytes) (s : Lowering) (ended : Bool) (index : Nat) :
    List Instr → Except LoweringError (List MacroOp × Lowering × Bool)
  | [] => .ok ([], s, ended)
  | i :: rest =>
    if ended then .error ⟨label, index, some i, .afterExit⟩
    else
      match s.stepIn numbers index i with
      | .error fault => .error ⟨label, index, some i, fault⟩
      | .ok (ops, s) =>
        match lowerInstrs numbers label s i.isTerminator (index + 1) rest with
        | .error e => .error e
        | .ok (more, s, ended) => .ok (ops ++ more, s, ended)

/-- How a block without a terminator goes on: at its exit, if it names one, and else nowhere. -/
def fallThrough (numbers : Numbers) (s : Lowering) (exit : Bytes) :
    Except LoweringFault (List MacroOp) :=
  if exit.isEmpty then .ok [.zero (nextDepth - s.depth)]
  else do return s.setNext (← target numbers exit)

/-- The operations of a block for a pointer at the top of the frame. -/
def lowerBlock (numbers : Numbers) (height : Int64) (s : Lowering) (b : Block) :
    Except LoweringError (List MacroOp × Lowering) :=
  match lowerInstrs numbers b.label s false 0 b.instrs with
  | .error e => .error e
  | .ok (ops, s, ended) =>
    let whole (fault : LoweringFault) : LoweringError := ⟨b.label, b.instrs.length, none, fault⟩
    if s.depth ≠ height then .error (whole (.unbalanced s.depth height))
    else if ended then .ok (ops, s)
    else
      match fallThrough numbers s b.trueExit with
      | .error fault => .error (whole fault)
      | .ok exit => .ok (ops ++ exit, s)

/-- Runs a body if the next block has the number `n`: the selector takes a copy, loses `n`, and is
tested into the work cell. -/
def select (height : Int64) (n : Int64) (body : List MacroOp) : List MacroOp :=
  [.copy (selectorDepth - height) (nextDepth - height) (workDepth - height),
    .add (selectorDepth - height) (-n),
    .isZero (workDepth - height) (selectorDepth - height) false [],
    .cond (workDepth - height) body]

/-- The dispatcher over a list of labels. -/
def dispatch (p : Program) (numbers : Numbers) (height : Int64) (s : Lowering) :
    List Bytes → Except LoweringError (List MacroOp × Lowering)
  | [] => .ok ([], s)
  | label :: rest =>
    match p.block? label with
    | none => .error { fault := .program (.missingBlock label) }
    | some b =>
      match lowerBlock numbers height s b with
      | .error e => .error e
      | .ok (body, s) =>
        match dispatch p numbers height s rest with
        | .error e => .error e
        | .ok (more, s) =>
          .ok (select height (Int64.ofNat ((numbers label).getD 0)) body ++ more, s)

/-- The instructions of the blocks of a list of labels. -/
def instrsOf (p : Program) (labels : List Bytes) : List Instr :=
  labels.flatMap fun label => ((p.block? label).map (·.instrs)).getD []

/-- The declared frame, or the one that the blocks' own reserve instructions lay out. -/
def frameFor (s : Lowering) (p : Program) : Except SlotError Frame :=
  match s.frame with
  | some frame => .ok frame
  | none => Frame.ofCode (instrsOf p p.order)

/-- The dispatch loop and the way back to the start. -/
def close (height : Int64) (body : List MacroOp) : List MacroOp :=
  [.add (nextDepth - height) 1, .loop (nextDepth - height) body, .go (-height), .go (-controlSize)]

/-- Lowers a program into one dispatch loop that leaves the pointer where it was.  The frame is
laid out once at the front, and every block leaves the expression stack empty. -/
def lowerProgram (s : Lowering) (p : Program) :
    Except LoweringError (List MacroOp × Lowering) :=
  match p.validate with
  | .error e => .error { fault := .program e }
  | .ok () =>
    if maxBlocks < p.order.length then .error { fault := .tooManyBlocks p.order.length }
    else
      match s.frameFor p with
      | .error e => .error { fault := .slot e }
      | .ok frame =>
        match ({ s with frame := some frame, base := controlSize } : Lowering).lower
            frame.reserves with
        | .error e => .error e
        | .ok (front, s) =>
          let height := s.depth
          let order := dispatchOrder p
          match dispatch p (numberIn order) height { s with framed := true } order with
          | .error e => .error e
          | .ok (body, s) =>
            let tail := close height body
            match MacroOp.validateAll tail with
            | .error e => .error { fault := .contract e }
            | .ok () => .ok (.go controlSize :: (front ++ tail), s)

end Lowering

end StackTape
