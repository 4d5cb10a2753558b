import StackTape.Bytecode.Instr
import StackTape.Text.Quoted

/-!
# Macro-operations

The operations between stack bytecode and tape text.  Every operand is an offset from the tape
pointer where the operation starts; apart from `go` and `literal` an operation leaves the pointer
where it was.  Offsets are signed words, so that `shift` is an action of their ring: shifting by
`a` and then by `b` is shifting by `a + b`.
-/

namespace StackTape

/-- An operation on cells near the pointer. -/
inductive MacroOp where
  /-- Moves the pointer. -/
  | go (delta : Int64)
  /-- Adds a count to a cell. -/
  | add (dst count : Int64)
  /-- Drains `src` into `dst`. -/
  | move (dst src : Int64)
  /-- Drains `src` out of `dst`. -/
  | unmove (dst src : Int64)
  /-- Clears a cell. -/
  | zero (dst : Int64)
  /-- Adds `src` into `dst` by way of `work`, which is zero before and after. -/
  | copy (dst src work : Int64)
  /-- Adds 1 to `dst` if `src` is zero, or nonzero if `negated`; `src` is drained unless two zero
  cells preserve it. -/
  | isZero (dst src : Int64) (negated : Bool) (preserve : List Int64)
  /-- Adds 1 to `dst` if every source is nonzero; the sources are drained. -/
  | and (dst : Int64) (srcs : List Int64) (work : Int64)
  /-- Adds 1 to `dst` for every nonzero source; the sources are drained. -/
  | or (dst : Int64) (srcs : List Int64)
  /-- Toggles `dst` once for every nonzero source; the sources are drained. -/
  | xor (dst : Int64) (srcs : List Int64) (work : Int64)
  /-- Adds 1 to `dst` if two cells are equal; they are drained unless two zero cells preserve
  them. -/
  | isEq (dst first second : Int64) (works : List Int64)
  /-- Runs the body once if `src` is nonzero, and clears `src`. -/
  | cond (src : Int64) (body : List MacroOp)
  /-- Runs the body while `src` is nonzero. -/
  | loop (src : Int64) (body : List MacroOp)
  /-- Runs one of two bodies by `src`, which is cleared. -/
  | branch (src work : Int64) (whenTrue whenFalse : List MacroOp)
  /-- Raw tape text with the pointer moved by `shifted` before and back after. -/
  | literal (text : Bytes) (shifted : Int64)
  /-- A control-flow instruction that is still to be resolved. -/
  | control (instr : Instr)
deriving Repr, Inhabited

namespace MacroOp

/-! ### Rebasing -/

/-- Moves a list of offsets. -/
def shiftCells (d : Int64) (cells : List Int64) : List Int64 := cells.map (· + d)

mutual

/-- Moves every positional operand by `d`. -/
def shift (d : Int64) : MacroOp → MacroOp
  | .go delta => .go delta
  | .add dst count => .add (dst + d) count
  | .move dst src => .move (dst + d) (src + d)
  | .unmove dst src => .unmove (dst + d) (src + d)
  | .zero dst => .zero (dst + d)
  | .copy dst src work => .copy (dst + d) (src + d) (work + d)
  | .isZero dst src negated preserve =>
    .isZero (dst + d) (src + d) negated (shiftCells d preserve)
  | .and dst srcs work => .and (dst + d) (shiftCells d srcs) (work + d)
  | .or dst srcs => .or (dst + d) (shiftCells d srcs)
  | .xor dst srcs work => .xor (dst + d) (shiftCells d srcs) (work + d)
  | .isEq dst first second works =>
    .isEq (dst + d) (first + d) (second + d) (shiftCells d works)
  | .cond src body => .cond (src + d) (shiftAll d body)
  | .loop src body => .loop (src + d) (shiftAll d body)
  | .branch src work whenTrue whenFalse =>
    .branch (src + d) (work + d) (shiftAll d whenTrue) (shiftAll d whenFalse)
  | .literal text shifted => .literal text (shifted + d)
  | .control instr => .control instr

/-- Moves every operation of a list. -/
def shiftAll (d : Int64) : List MacroOp → List MacroOp
  | [] => []
  | op :: rest => shift d op :: shiftAll d rest

end

/-! ### Net movement -/

/-- The net movement of tape text: its right moves less its left moves. -/
def textDisplacement (text : Bytes) : Int64 :=
  Int64.ofNat (text.count 0x3E) - Int64.ofNat (text.count 0x3C)

/-- The net movement of one operation. -/
def moved : MacroOp → Int64
  | .go delta => delta
  | .literal text _ => textDisplacement text
  | _ => 0

/-- The net movement of operations run in sequence. -/
def displacement : List MacroOp → Int64
  | [] => 0
  | op :: rest => op.moved + displacement rest

/-! ### Text -/

/-- A list of cells as text. -/
def cellsText (cells : List Int64) : Bytes :=
  0x5B :: Bytes.join [0x20] (cells.map Decimal.ofWord) ++ [0x5D]

/-- A name and its arguments. -/
def call (name : String) (args : List Bytes) : Bytes :=
  Bytes.ascii name ++ 0x28 :: Bytes.join (Bytes.ascii ", ") args ++ [0x29]

mutual

/-- An operation as text. -/
def text : MacroOp → Bytes
  | .go delta => call "go" [Decimal.ofWord delta]
  | .add dst count => call "add" [Decimal.ofWord dst, Decimal.ofWord count]
  | .move dst src => call "move" [Decimal.ofWord dst, Decimal.ofWord src]
  | .unmove dst src => call "unmove" [Decimal.ofWord dst, Decimal.ofWord src]
  | .zero dst => call "zero" [Decimal.ofWord dst]
  | .copy dst src work =>
    call "copy" [Decimal.ofWord dst, Decimal.ofWord src, Decimal.ofWord work]
  | .isZero dst src negated preserve =>
    call (if negated then "isnotzero" else "iszero")
      ([Decimal.ofWord dst, Decimal.ofWord src] ++
        if preserve.isEmpty then [] else [cellsText preserve])
  | .and dst srcs work => call "and" [Decimal.ofWord dst, cellsText srcs, Decimal.ofWord work]
  | .or dst srcs => call "or" [Decimal.ofWord dst, cellsText srcs]
  | .xor dst srcs work => call "xor" [Decimal.ofWord dst, cellsText srcs, Decimal.ofWord work]
  | .isEq dst first second works =>
    call "iseq"
      ([Decimal.ofWord dst, Decimal.ofWord first, Decimal.ofWord second] ++
        if works.isEmpty then [] else [cellsText works])
  | .cond src body => call "cond" [Decimal.ofWord src, bodyText body]
  | .loop src body => call "loop" [Decimal.ofWord src, bodyText body]
  | .branch src work whenTrue whenFalse =>
    call "branch"
      [Decimal.ofWord src, Decimal.ofWord work, bodyText whenTrue, bodyText whenFalse]
  | .literal text shifted =>
    call "literal"
      [Quoted.text text ++
        if shifted = 0 then [] else Bytes.ascii " @" ++ Decimal.ofWord shifted]
  | .control instr => call "control" [instr.text]

/-- A body as text. -/
def bodyText (body : List MacroOp) : Bytes :=
  0x7B :: Bytes.join (Bytes.ascii "; ") (texts body) ++ [0x7D]

/-- Every operation as text. -/
def texts : List MacroOp → List Bytes
  | [] => []
  | op :: rest => text op :: texts rest

end

end MacroOp

end StackTape
