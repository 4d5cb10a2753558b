import StackTape.Expansion
import StackTape.Lowering.Program

/-!
# Compilation

Lowering and expansion in one go.  Straight-line code is lowered as it stands; code with control
flow is first cut into blocks.
-/

namespace StackTape

/-- What a compilation produces. -/
structure Output where
  ops : List MacroOp
  nodes : List Node
  /-- The tape text. -/
  code : Bytes
  /-- The cells that the program may touch to the right of its start. -/
  extent : Int64
deriving Repr, Inhabited

/-- Why code is not compiled. -/
inductive CompileError where
  | partition (e : ProgramError)
  | lowering (e : LoweringError)
  | expansion (e : ExpandError)
deriving Repr

/-- The message of a failed compilation. -/
def CompileError.message : CompileError → Bytes
  | .partition e => Bytes.ascii "partition: " ++ e.message
  | .lowering e => e.message
  | .expansion e => e.message

namespace Output

/-- Expands operations into an output. -/
def generate (ops : List MacroOp) (extent : Int64) : Except CompileError Output :=
  match MacroOp.generate ops with
  | .error e => .error (.expansion e)
  | .ok (nodes, code) => .ok ⟨ops, nodes, code, extent⟩

/-- Compiles straight-line code; a control-flow instruction is refused by the expansion. -/
def build (code : List Instr) (frame : Option Frame) : Except CompileError Output :=
  match (Lowering.start frame).lower code with
  | .error e => .error (.lowering e)
  | .ok (ops, s) => generate ops s.extent

/-- Compiles a program of blocks. -/
def buildProgram (p : Program) (frame : Option Frame) : Except CompileError Output :=
  match (Lowering.start frame).lowerProgram p with
  | .error e => .error (.lowering e)
  | .ok (ops, s) => generate ops s.extent

/-- The stem of the labels that compilation makes up. -/
def labelStem : Bytes := Bytes.ascii "block"

/-- Compiles code, with or without control flow. -/
def compile (code : List Instr) (frame : Option Frame) : Except CompileError Output :=
  if Instr.hasControl code then
    match Program.build code { stem := labelStem } with
    | .error e => .error (.partition e)
    | .ok p => buildProgram p frame
  else build code frame

end Output

end StackTape
