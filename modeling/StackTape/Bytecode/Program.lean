import StackTape.Bytecode.Labeler
import StackTape.Text.Quoted

/-!
# Programs of basic blocks

A program is a list of labelled blocks with their exits.  `build` makes one from flat code in
three steps: `addLabels` starts a block at the front and after every terminator, `addJumps` writes
out the fall through into a label, and `partition` cuts at the labels.  `validate` asks that every
exit names a block.
-/

namespace StackTape

/-- A run of instructions from a label to the next one. -/
structure Block where
  label : Bytes
  instrs : List Instr := []
  /-- The successor, or the first of two; empty when the block ends the program. -/
  trueExit : Bytes := []
  /-- The second successor; empty unless the block ends in a condition. -/
  falseExit : Bytes := []
deriving DecidableEq, Repr, Inhabited

/-- The block has two successors. -/
def Block.isConditional (b : Block) : Bool := !b.falseExit.isEmpty

/-- A one-line description. -/
def Block.summary (b : Block) : Bytes :=
  Bytes.ascii "BasicBlock(label=" ++ Quoted.text b.label ++ Bytes.ascii ", instrs=" ++
    Decimal.ofNat b.instrs.length ++ Bytes.ascii ", true_exit=" ++ Quoted.text b.trueExit ++
    Bytes.ascii ", false_exit=" ++ Quoted.text b.falseExit ++ Bytes.ascii ")"

/-- A function body cut into blocks. -/
structure Program where
  entry : Bytes
  /-- The labels in the order of the source. -/
  order : List Bytes
  blocks : List Block
deriving DecidableEq, Repr, Inhabited

/-- Why code or blocks are no program. -/
inductive ProgramError where
  | emptyCode
  | noLeadingLabel (first : Instr)
  | duplicateLabel (label : Bytes)
  | unknownEntry (label : Bytes)
  | unknownExit (block exit : Bytes)
  /-- The order names a block that the program does not have. -/
  | missingBlock (label : Bytes)
deriving DecidableEq, Repr

/-- The message of a refused program. -/
def ProgramError.message : ProgramError → Bytes
  | .emptyCode => Bytes.ascii "partition: empty code"
  | .noLeadingLabel first =>
    Bytes.ascii "partition: code must start with a label, got " ++ Quoted.text first.text
  | .duplicateLabel label =>
    Bytes.ascii "partition: " ++ Quoted.text label ++ Bytes.ascii ": duplicate label"
  | .unknownEntry label =>
    Bytes.ascii "entry " ++ Quoted.text label ++ Bytes.ascii ": unknown label"
  | .unknownExit block exit =>
    Bytes.ascii "block " ++ Quoted.text block ++ Bytes.ascii " exits to " ++ Quoted.text exit ++
      Bytes.ascii ": unknown label"
  | .missingBlock label => Bytes.ascii "missing block " ++ Quoted.text label

namespace Program

/-- The block with a label. -/
def block? (p : Program) (label : Bytes) : Option Block := p.blocks.find? fun b => b.label = label

/-- Adds a block, replacing one of the same label. -/
def insert (p : Program) (b : Block) : Program :=
  { p with blocks := p.blocks.filter (fun c => c.label ≠ b.label) ++ [b] }

/-- Checks that the nonempty exits of a block name blocks. -/
def checkExits (p : Program) (b : Block) : Except ProgramError Unit :=
  match [b.trueExit, b.falseExit].find? fun e => !e.isEmpty && (p.block? e).isNone with
  | some exit => .error (.unknownExit b.label exit)
  | none => .ok ()

/-- Checks the blocks of a list of labels. -/
def checkBlocks (p : Program) : List Bytes → Except ProgramError Unit
  | [] => .ok ()
  | label :: rest =>
    match p.block? label with
    | none => .error (.missingBlock label)
    | some b =>
      match p.checkExits b with
      | .error e => .error e
      | .ok () => checkBlocks p rest

/-- Every exit, and the entry, names a block. -/
def validate (p : Program) : Except ProgramError Unit :=
  match p.block? p.entry with
  | none => .error (.unknownEntry p.entry)
  | some _ => p.checkBlocks p.order

/-! ### From flat code -/

/-- Puts a fresh label where a block starts without one; `opens` says that one starts here. -/
def insertLabels : (opens : Bool) → List Instr → Labeler → List Instr × Labeler
  | _, [], l => ([], l)
  | opens, i :: rest, l =>
    if opens && i.label?.isNone then
      let (name, l) := l.fresh
      let (code, l) := insertLabels i.isTerminator rest l
      (.label name :: i :: code, l)
    else
      let (code, l) := insertLabels i.isTerminator rest l
      (i :: code, l)

/-- Labels the start of the code and what follows a terminator. -/
def addLabels (code : List Instr) (l : Labeler) : List Instr × Labeler :=
  insertLabels true code (l.claim (code.filterMap Instr.label?))

/-- Writes a jump where an instruction falls through into a label. -/
def addJumps : List Instr → List Instr
  | [] => []
  | [i] => [i]
  | i :: next :: rest =>
    match next with
    | .label name =>
      if i.isTerminator then i :: addJumps (next :: rest)
      else i :: .jump name :: addJumps (next :: rest)
    | _ => i :: addJumps (next :: rest)

/-- Appends an instruction to a block; a terminator sets the exits. -/
def extend (b : Block) (i : Instr) : Block :=
  match i with
  | .jump target => { b with instrs := b.instrs ++ [i], trueExit := target }
  | .cond whenTrue whenFalse =>
    { b with instrs := b.instrs ++ [i], trueExit := whenTrue, falseExit := whenFalse }
  | _ => { b with instrs := b.instrs ++ [i] }

/-- Cuts code at its labels; `done` are the finished blocks, last one first, and `cur` is open. -/
def cut (done : List Block) (cur : Block) : List Instr → Except ProgramError (List Block)
  | [] => .ok (cur :: done).reverse
  | .label name :: rest =>
    if (cur :: done).any fun b => b.label = name then .error (.duplicateLabel name)
    else cut (cur :: done) ⟨name, [.label name], [], []⟩ rest
  | i :: rest => cut done (extend cur i) rest

/-- Cuts labelled code into blocks. -/
def partition : List Instr → Except ProgramError Program
  | [] => .error .emptyCode
  | .label name :: rest =>
    match cut [] ⟨name, [.label name], [], []⟩ rest with
    | .ok blocks => .ok ⟨name, blocks.map (·.label), blocks⟩
    | .error e => .error e
  | i :: _ => .error (.noLeadingLabel i)

/-- The program of flat code. -/
def build (code : List Instr) (l : Labeler) : Except ProgramError Program :=
  match partition (addJumps (addLabels code l).1) with
  | .error e => .error e
  | .ok p =>
    match p.validate with
    | .error e => .error e
    | .ok () => .ok p

/-! ### Listing -/

/-- Where a block goes. -/
def exits (b : Block) : Bytes :=
  if b.isConditional then
    Bytes.ascii " -> " ++ b.trueExit ++ Bytes.ascii " | " ++ b.falseExit
  else if b.trueExit.isEmpty then Bytes.ascii " -> halt"
  else Bytes.ascii " -> " ++ b.trueExit

/-- The listing line of the instruction at a position of its block. -/
def listInstr (position : Nat) (i : Instr) : Bytes :=
  match i with
  | .label name => Bytes.line (name ++ [0x3A])
  | _ =>
    Bytes.line (Decimal.padded 4 position ++ Bytes.ascii "  " ++ i.text.padRight 24 ++
      Bytes.ascii " ; pop " ++ Decimal.ofNat i.opcode.info.pops ++ Bytes.ascii " push " ++
      Decimal.ofNat i.opcode.info.pushes)

/-- The listing of the block with a number, counted from one. -/
def listBlock (number : Nat) (b : Block) : Bytes :=
  Bytes.line (Bytes.ascii "; block " ++ Decimal.ofNat number ++ exits b) ++
    (b.instrs.mapIdx listInstr).flatten ++ [Bytes.newline]

/-- The listing of the blocks of a list of labels from a number on. -/
def listBlocks (p : Program) : Nat → List Bytes → Except ProgramError Bytes
  | _, [] => .ok []
  | number, label :: rest =>
    match p.block? label with
    | none => .error (.missingBlock label)
    | some b =>
      match listBlocks p (number + 1) rest with
      | .ok more => .ok (listBlock number b ++ more)
      | .error e => .error e

/-- A readable listing, with a headline unless the name is empty. -/
def listing (p : Program) (name : Bytes) : Except ProgramError Bytes :=
  let head :=
    (if name.isEmpty then [] else
      Bytes.line (Bytes.ascii "; === " ++ name ++ Bytes.ascii " ===")) ++
    Bytes.line (Bytes.ascii "; Entry: " ++ p.entry) ++
    Bytes.line (Bytes.ascii "; Blocks: " ++ Decimal.ofNat p.order.length) ++ [Bytes.newline]
  match p.listBlocks 1 p.order with
  | .ok body => .ok (head ++ body)
  | .error e => .error e

end Program

end StackTape
