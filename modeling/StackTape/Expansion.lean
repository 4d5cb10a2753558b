import StackTape.MacroOp.Basic

/-!
# Expansion into tape text

Every macro-operation becomes a tree of tape text that remembers which operation wrote which part;
flattening the trees gives the program.  Operations are written through simpler ones: a copy
through a move, a test through a condition, a condition through `[`, its body rebased to the tested
cell, and `]`.

`expandAt d` expands an operation shifted by `d`.  A body stands at the cell that its operation
tests, so its offset does not depend on the one outside, and the recursion follows the operation.
-/

namespace StackTape

/-- A piece of tape text with the operation it comes from. -/
inductive Node where
  /-- Text that the operation around it wrote. -/
  | raw (text : Bytes)
  /-- An operation that is written at once. -/
  | leaf (op : MacroOp) (text : Bytes)
  /-- An operation that is written through others. -/
  | tree (op : MacroOp) (children : List Node)
deriving Repr, Inhabited

/-- Why an operation cannot be expanded. -/
inductive ExpandFault where
  | unresolvedControl
  | tooFewOperands
  | emptyList
  | bodyMoves
deriving DecidableEq, Repr

/-- What stops an expansion. -/
inductive ExpandError where
  /-- An operation cannot be written. -/
  | refused (op : MacroOp) (fault : ExpandFault)
  /-- A run of one instruction, or a text that is put together, is longer than any text can be. -/
  | overlong (count : Int64)
deriving Repr

/-- The words for a fault. -/
def ExpandFault.message : ExpandFault → Bytes
  | .unresolvedControl => Bytes.ascii "unresolved control-flow op"
  | .tooFewOperands => Bytes.ascii "too few operands"
  | .emptyList => Bytes.ascii "empty operand list"
  | .bodyMoves => Bytes.ascii "body is not pointer-neutral"

/-- The message of a failed expansion. -/
def ExpandError.message : ExpandError → Bytes
  | .refused op fault => Bytes.ascii "codegen: " ++ op.text ++ Bytes.ascii ": " ++ fault.message
  | .overlong count => Bytes.ascii "text of " ++ Decimal.ofWord count ++ Bytes.ascii " is too long"

namespace Node

mutual

/-- The tape text of a node. -/
def flatten : Node → Bytes
  | .raw text => text
  | .leaf _ text => text
  | .tree _ children => flattenAll children

/-- The tape text of nodes, left to right. -/
def flattenAll : List Node → Bytes
  | [] => []
  | n :: rest => flatten n ++ flattenAll rest

end

/-- The indentation of a depth. -/
def indent (depth : Nat) : Bytes := Bytes.repeated (4 * depth) 0x20

mutual

/-- A node as an indented tree. -/
def dump (depth : Nat) : Node → Bytes
  | .raw text => Bytes.line (indent depth ++ text)
  | .leaf op text => Bytes.line (indent depth ++ text ++ Bytes.ascii " : " ++ op.text)
  | .tree op children =>
    Bytes.line (indent depth ++ op.text ++ Bytes.ascii " =>") ++ dumpAll (depth + 1) children

/-- Nodes as indented trees. -/
def dumpAll (depth : Nat) : List Node → Bytes
  | [] => []
  | n :: rest => dump depth n ++ dumpAll depth rest

end

end Node

namespace MacroOp

/-! ### Runs of one instruction -/

/-- The length of the longest text that can be held. -/
def longestText : Int64 := 0x1000000000000

/-- A run of `count` times `b`. -/
def run (b : UInt8) (count : Int64) : Except ExpandError Bytes :=
  if count < 0 ∨ longestText < count then .error (.overlong count)
  else .ok (Bytes.repeated count.toInt.toNat b)

/-- A text that is put together from pieces.  Its length is limited, not the room that it takes up
while it grows. -/
def joined (text : Bytes) : Except ExpandError Bytes :=
  if longestText.toInt < text.length then .error (.overlong (Int64.ofNat text.length))
  else .ok text

/-- Moves by `delta`. -/
def moveText (delta : Int64) : Except ExpandError Bytes :=
  if delta < 0 then run 0x3C (-delta) else run 0x3E delta

/-- Counts by `count`. -/
def countText (count : Int64) : Except ExpandError Bytes :=
  if count < 0 then run 0x2D (-count) else run 0x2B count

/-! ### Straight-line operations -/

/-- The node of a pointer move. -/
def goNode (delta : Int64) : Except ExpandError Node := do
  return .leaf (.go delta) (← moveText delta)

/-- The node of raw text. -/
def literalNode (text : Bytes) (shifted : Int64) : Except ExpandError Node :=
  if shifted = 0 then .ok (.leaf (.literal text shifted) text)
  else do
    let there ← moveText shifted
    let back ← moveText (-shifted)
    return .leaf (.literal text shifted) (← joined (there ++ text ++ back))

/-- The node of a count added to a cell. -/
def addNode (dst count : Int64) : Except ExpandError Node := do
  let there ← goNode dst
  let text ← countText count
  let back ← goNode (-dst)
  return .tree (.add dst count) [there, .raw text, back]

/-- The node of a cleared cell. -/
def zeroNode (dst : Int64) : Except ExpandError Node := do
  let there ← goNode dst
  let back ← goNode (-dst)
  return .tree (.zero dst) [there, .raw (Bytes.ascii "[-]"), back]

/-- A cell changed once for every round of a drain. -/
structure Target where
  cell : Int64
  change : UInt8

/-- Visits the targets in order from `pos` and comes back to `src`. -/
def visits (src : Int64) : (pos : Int64) → List Target → Except ExpandError (List Node)
  | pos, [] => do return [← goNode (src - pos)]
  | pos, t :: rest => do
    let there ← goNode (t.cell - pos)
    let more ← visits src t.cell rest
    return there :: .raw [t.change] :: more

/-- Counts `src` down to zero and changes every target once a round; the pointer ends at `src`. -/
def drain (src : Int64) (targets : List Target) : Except ExpandError (List Node) := do
  let there ← goNode src
  let round ← visits src src targets
  return there :: .raw (Bytes.ascii "[-") :: (round ++ [.raw (Bytes.ascii "]")])

/-- The node of a drain into a cell. -/
def moveNode (dst src : Int64) : Except ExpandError Node := do
  let loop ← drain src [⟨dst, 0x2B⟩]
  let back ← goNode (-src)
  return .tree (.move dst src) (loop ++ [back])

/-- The node of a drain out of a cell. -/
def unmoveNode (dst src : Int64) : Except ExpandError Node := do
  let loop ← drain src [⟨dst, 0x2D⟩]
  let back ← goNode (-src)
  return .tree (.unmove dst src) (loop ++ [back])

/-- The node of a copy: `src` is spread over `work` and `dst`, and `work` drained back. -/
def copyNode (dst src work : Int64) : Except ExpandError Node := do
  let loop ← drain src [⟨work, 0x2B⟩, ⟨dst, 0x2B⟩]
  let restore ← moveNode 0 (work - src)
  let back ← goNode (-src)
  return .tree (.copy dst src work) (loop ++ [restore, back])

/-! ### Conditions -/

/-- The node of a condition on `src`, given the expansion of its body at `src`. -/
def condNode (src : Int64) (body : List MacroOp)
    (inner : Unit → Except ExpandError (List Node)) : Except ExpandError Node :=
  if displacement body ≠ 0 then .error (.refused (.cond src body) .bodyMoves)
  else do
    let there ← goNode src
    let nodes ← inner ()
    let clear ← zeroNode 0
    let back ← goNode (-src)
    return .tree (.cond src body)
      (there :: .raw (Bytes.ascii "[") :: (nodes ++ [clear, .raw (Bytes.ascii "]"), back]))

/-- The node of a loop on `src`, given the expansion of its body at `src`. -/
def loopNode (src : Int64) (body : List MacroOp)
    (inner : Unit → Except ExpandError (List Node)) : Except ExpandError Node :=
  if displacement body ≠ 0 then .error (.refused (.loop src body) .bodyMoves)
  else do
    let there ← goNode src
    let nodes ← inner ()
    let back ← goNode (-src)
    return .tree (.loop src body)
      (there :: .raw (Bytes.ascii "[") :: (nodes ++ [.raw (Bytes.ascii "]"), back]))

/-- The node of a count added to `dst` if `src` is nonzero. -/
def condAddNode (src dst count : Int64) : Except ExpandError Node :=
  condNode src [.add dst count] fun _ => do return [← addNode (dst - src) count]

/-- One such node for every source. -/
def condAddNodes (dst count : Int64) : List Int64 → Except ExpandError (List Node)
  | [] => .ok []
  | src :: rest => do
    let n ← condAddNode src dst count
    let more ← condAddNodes dst count rest
    return n :: more

/-- The children of a test that drains its cell. -/
def isZeroChildren (dst src : Int64) (negated : Bool) : Except ExpandError (List Node) :=
  if negated then do return [← condAddNode src dst 1]
  else do
    let one ← addNode dst 1
    let less ← condAddNode src dst (-1)
    return [one, less]

/-- The node of a test that drains its cell. -/
def isZeroNode (dst src : Int64) (negated : Bool) : Except ExpandError Node := do
  return .tree (.isZero dst src negated []) (← isZeroChildren dst src negated)

/-- The node of a test, draining or preserving. -/
def testNode (dst src : Int64) (negated : Bool) (preserve : List Int64) :
    Except ExpandError Node :=
  match preserve with
  | [] => isZeroNode dst src negated
  | [spare, work] => do
    let copy ← copyNode spare src work
    let test ← isZeroNode dst spare negated
    return .tree (.isZero dst src negated [spare, work]) [copy, test]
  | _ => .error (.refused (.isZero dst src negated preserve) .tooFewOperands)

/-- The node of a conjunction: `work` counts the sources that are still zero. -/
def andNode (dst : Int64) (srcs : List Int64) (work : Int64) : Except ExpandError Node :=
  if srcs.isEmpty then .error (.refused (.and dst srcs work) .emptyList)
  else do
    let count ← addNode work (Int64.ofNat srcs.length)
    let tests ← condAddNodes work (-1) srcs
    let test ← isZeroNode dst work false
    return .tree (.and dst srcs work) (count :: (tests ++ [test]))

/-- The node of a count of nonzero sources. -/
def orNode (dst : Int64) (srcs : List Int64) : Except ExpandError Node :=
  if srcs.isEmpty then .error (.refused (.or dst srcs) .emptyList)
  else do return .tree (.or dst srcs) (← condAddNodes dst 1 srcs)

/-- The operations that toggle `dst`: it is parked in `work` and set to whether that is zero. -/
def toggle (dst work : Int64) : List MacroOp := [.move work dst, .isZero dst work false []]

/-- One toggle of `dst` for every source. -/
def toggleNodes (dst work : Int64) : List Int64 → Except ExpandError (List Node)
  | [] => .ok []
  | src :: rest => do
    let n ← condNode src (toggle dst work) fun _ => do
      let park ← moveNode (work - src) (dst - src)
      let test ← isZeroNode (dst - src) (work - src) false
      return [park, test]
    let more ← toggleNodes dst work rest
    return n :: more

/-- The node of a parity. -/
def xorNode (dst : Int64) (srcs : List Int64) (work : Int64) : Except ExpandError Node :=
  if srcs.length < 2 then .error (.refused (.xor dst srcs work) .tooFewOperands)
  else do return .tree (.xor dst srcs work) (← toggleNodes dst work srcs)

/-- The node of a comparison, draining or preserving. -/
def isEqNode (dst first second : Int64) (works : List Int64) : Except ExpandError Node :=
  match works with
  | [] => do
    let less ← unmoveNode first second
    let test ← isZeroNode dst first false
    return .tree (.isEq dst first second []) [less, test]
  | [spare, work] => do
    let copy ← copyNode spare first work
    let less ← drain second [⟨spare, 0x2D⟩, ⟨work, 0x2B⟩]
    let back ← goNode (-second)
    let restore ← moveNode second work
    let test ← isZeroNode dst spare false
    return .tree (.isEq dst first second [spare, work])
      (copy :: (less ++ [back, restore, test]))
  | _ => .error (.refused (.isEq dst first second works) .tooFewOperands)

/-! ### All operations -/

mutual

/-- The tree of an operation shifted by `d`. -/
def expandAt (d : Int64) : MacroOp → Except ExpandError Node
  | .go delta => goNode delta
  | .add dst count => addNode (dst + d) count
  | .move dst src => moveNode (dst + d) (src + d)
  | .unmove dst src => unmoveNode (dst + d) (src + d)
  | .zero dst => zeroNode (dst + d)
  | .copy dst src work => copyNode (dst + d) (src + d) (work + d)
  | .isZero dst src negated preserve =>
    testNode (dst + d) (src + d) negated (shiftCells d preserve)
  | .and dst srcs work => andNode (dst + d) (shiftCells d srcs) (work + d)
  | .or dst srcs => orNode (dst + d) (shiftCells d srcs)
  | .xor dst srcs work => xorNode (dst + d) (shiftCells d srcs) (work + d)
  | .isEq dst first second works =>
    isEqNode (dst + d) (first + d) (second + d) (shiftCells d works)
  | .cond src body => condNode (src + d) (shiftAll d body) fun _ => expandAllAt (-src) body
  | .loop src body => loopNode (src + d) (shiftAll d body) fun _ => expandAllAt (-src) body
  | .branch src work whenTrue whenFalse => do
    let one ← addNode (work + d) 1
    let taken ← condNode (src + d) (shiftAll d whenTrue ++ [.add (work + d) (-1)]) fun _ => do
      let nodes ← expandAllAt (-src) whenTrue
      let less ← addNode (work - src) (-1)
      return nodes ++ [less]
    let other ← condNode (work + d) (shiftAll d whenFalse) fun _ => expandAllAt (-work) whenFalse
    return .tree (.branch (src + d) (work + d) (shiftAll d whenTrue) (shiftAll d whenFalse))
      [one, taken, other]
  | .literal text shifted => literalNode text (shifted + d)
  | .control instr => .error (.refused (.control instr) .unresolvedControl)

/-- The trees of a list of operations shifted by `d`. -/
def expandAllAt (d : Int64) : List MacroOp → Except ExpandError (List Node)
  | [] => .ok []
  | op :: rest => do
    let n ← expandAt d op
    let more ← expandAllAt d rest
    return n :: more

end

/-- The tree of an operation. -/
def expand (op : MacroOp) : Except ExpandError Node := expandAt 0 op

/-- The trees of a list of operations. -/
def expandAll (ops : List MacroOp) : Except ExpandError (List Node) := expandAllAt 0 ops

/-- The trees of a list of operations and the text of all of them. -/
def generate (ops : List MacroOp) : Except ExpandError (List Node × Bytes) := do
  let nodes ← expandAll ops
  return (nodes, ← joined (Node.flattenAll nodes))

end MacroOp

end StackTape
