import StackTape.Bytecode.Instr
import StackTape.Text.Blank
import StackTape.Text.Lines
import StackTape.Text.Quoted

/-!
# Source text

One instruction a line: a mnemonic and its operands between white space; `#` starts a comment, and
`name:` alone is a label.  `parse` reads a text and `format` writes one that reads back.
-/

namespace StackTape

/-- Why a line is no instruction. -/
inductive InstrError where
  /-- There is nothing to read. -/
  | blank
  | unknownOpcode (word : Bytes)
  | operandCount (op : Opcode) (got : Nat)
  | badSize (op : Opcode) (word : Bytes) (fault : IntegerFault)
deriving DecidableEq, Repr

/-- The message of a refused line. -/
def InstrError.message : InstrError → Bytes
  | .blank => Bytes.ascii "no instruction"
  | .unknownOpcode word => Bytes.ascii "unknown opcode " ++ Quoted.text word
  | .operandCount op got =>
    op.name ++ Bytes.ascii " takes " ++ Decimal.ofNat op.info.operands ++
      Bytes.ascii " operand(s), got " ++ Decimal.ofNat got ++ Bytes.ascii ": wrong operand count"
  | .badSize op word fault =>
    op.name ++ Bytes.ascii " size " ++ Quoted.text word ++ Bytes.ascii ": strconv.Atoi: parsing " ++
      Quoted.text word ++ Bytes.ascii ": " ++ fault.message

/-- Why a source text is refused. -/
inductive SourceError where
  /-- The line with this number, counted from one, is no instruction. -/
  | line (number : Nat) (text : Bytes) (cause : InstrError)
  /-- A line is too long to be read. -/
  | overlong
deriving DecidableEq, Repr

/-- The message of a refused text. -/
def SourceError.message : SourceError → Bytes
  | .line number text cause =>
    Bytes.ascii "line " ++ Decimal.ofNat number ++ Bytes.ascii ": " ++ Quoted.text text ++
      Bytes.ascii ": " ++ cause.message
  | .overlong => Bytes.ascii "bufio.Scanner: token too long"

namespace Instr

/-- The instruction of an operation and its operand words. -/
def ofWords (op : Opcode) (words : List Bytes) : Except InstrError Instr :=
  match op, words with
  | .reserve, [name, size] =>
    match Decimal.parse size with
    | .ok n => .ok (.reserve name n)
    | .error fault => .error (.badSize op size fault)
  | .unreserve, [name, size] =>
    match Decimal.parse size with
    | .ok n => .ok (.unreserve name n)
    | .error fault => .error (.badSize op size fault)
  | .push, [operand] => .ok (.push operand)
  | .pop, [name] => .ok (.pop name)
  | .dup, [] => .ok .dup
  | .addc, [] => .ok .addc
  | .subc, [] => .ok .subc
  | .not, [] => .ok .not
  | .and, [] => .ok .and
  | .or, [] => .ok .or
  | .xor, [] => .ok .xor
  | .eq, [] => .ok .eq
  | .write, [] => .ok .write
  | .read, [] => .ok .read
  | .label, [name] => .ok (.label name)
  | .jump, [target] => .ok (.jump target)
  | .cond, [whenTrue, whenFalse] => .ok (.cond whenTrue whenFalse)
  | _, _ => .error (.operandCount op words.length)

/-- The name of a `name:` word. -/
def labelWord? (word : Bytes) : Option Bytes :=
  if word.length > 1 then word.dropLast? 0x3A else none

/-- The instruction of a list of words. -/
def ofFields : List Bytes → Except InstrError Instr
  | [] => .error .blank
  | [word] =>
    match labelWord? word with
    | some name => .ok (.label name)
    | none =>
      match Opcode.ofName? word with
      | some op => ofWords op []
      | none => .error (.unknownOpcode word)
  | word :: words =>
    match Opcode.ofName? word with
    | some op => ofWords op words
    | none => .error (.unknownOpcode word)

/-- Reads one instruction. -/
def parse (text : Bytes) : Except InstrError Instr := ofFields text.fields

end Instr

namespace Source

/-- What a line says: without its comment and the white space at either end. -/
def content (line : Bytes) : Bytes := Bytes.trim (line.takeWhile (· ≠ 0x23))

/-- Reads lines from the given number on, skipping empty ones. -/
def parseLines : Nat → List Bytes → Except SourceError (List Instr)
  | _, [] => .ok []
  | number, line :: rest =>
    let text := content line
    if text.isEmpty then parseLines (number + 1) rest
    else
      match Instr.parse text with
      | .error cause => .error (.line number text cause)
      | .ok i =>
        match parseLines (number + 1) rest with
        | .ok code => .ok (i :: code)
        | .error e => .error e

/-- Reads a source text. -/
def parse (src : Bytes) : Except SourceError (List Instr) :=
  let read := Lines.read src
  match parseLines 1 read.lines with
  | .error e => .error e
  | .ok code => if read.overlong then .error .overlong else .ok code

/-- The line of an instruction: a label stands at the margin, anything else is indented. -/
def formatInstr (i : Instr) : Bytes :=
  match i with
  | .label name => Bytes.line (name ++ [0x3A])
  | _ => Bytes.line (Bytes.repeated 4 0x20 ++ i.text)

/-- Writes a source text. -/
def format (code : List Instr) : Bytes := code.flatMap formatInstr

end Source

end StackTape
