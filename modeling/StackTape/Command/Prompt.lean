import StackTape.Machine.Run
import StackTape.Text.Blank

/-!
# The step prompt

A hook that stops after every instruction, shows where the machine is, and asks what to do.  The
prompt reads lines from the input that the machine reads from, a piece at a time: what it has
fetched is lost to the machine.
-/

namespace StackTape

/-- The state of a prompt. -/
structure Prompt where
  /-- No more questions: the machine runs on. -/
  running : Bool := false
  /-- Fetched and not yet used. -/
  buffer : Bytes := []
deriving DecidableEq, Repr, Inhabited

namespace Prompt

/-- How many bytes the prompt holds at most; a longer line comes in pieces. -/
def bufferSize : Nat := 4096

/-- A line without its line end. -/
def bare (b : Bytes) : Bytes := (b.dropLast? 0x0D).getD b

/-- Reads a line: the line, what is fetched, and what is left behind; `none` at the end of the
input.  Each fetch fills the buffer or takes all there is. -/
def readLine : (fuel : Nat) → (buffer behind : Bytes) → Option (Bytes × Bytes × Bytes)
  | 0, _, _ => none
  | fuel + 1, buffer, behind =>
    if buffer.contains Bytes.newline then
      let line := buffer.takeWhile (· ≠ Bytes.newline)
      some (bare line, buffer.drop (line.length + 1), behind)
    else if bufferSize ≤ buffer.length then
      match buffer.dropLast? 0x0D with
      | some line => some (line, [0x0D], behind)
      | none => some (buffer, [], behind)
    else if behind.isEmpty then
      if buffer.isEmpty then none else some (buffer, [], [])
    else
      let room := bufferSize - buffer.length
      readLine fuel (buffer ++ behind.take room) (behind.drop room)

/-- What the user wants. -/
inductive Choice where
  | step
  | resume
  | quit
deriving DecidableEq, Repr

/-- The choice that a line makes. -/
def choice? (line : Bytes) : Option Choice :=
  let word := Bytes.trim line
  if word.isEmpty ∨ word = Bytes.ascii "s" then some .step
  else if word = Bytes.ascii "c" then some .resume
  else if word = Bytes.ascii "q" then some .quit
  else none

/-- What stands before every answer. -/
def question : Bytes := Bytes.ascii "step> "

/-- The choices. -/
def help : Bytes := Bytes.line (Bytes.ascii "enter or s: step, c: continue, q: quit")

/-- Asks until there is a choice; the end of the input is one to quit.  The answer has the choice,
the number of questions, and what is fetched and left behind. -/
def ask : (fuel : Nat) → (buffer behind : Bytes) → (asked : Nat) → Choice × Nat × Bytes × Bytes
  | 0, buffer, behind, asked => (.quit, asked, buffer, behind)
  | fuel + 1, buffer, behind, asked =>
    match readLine 3 buffer behind with
    | none => (.quit, asked + 1, [], [])
    | some (line, buffer, behind) =>
      match choice? line with
      | some c => (c, asked + 1, buffer, behind)
      | none => ask fuel buffer behind (asked + 1)

/-- Where the machine is after the instruction at a position. -/
def place (m : Machine) (ip : Nat) : Bytes :=
  Bytes.line (Decimal.ofNat ip ++ Bytes.ascii ": " ++ Quoted.byte (m.code.getD ip 0) ++
    Bytes.ascii "  pointer " ++ Decimal.ofNat m.pointer ++
    Bytes.ascii "  steps " ++ Decimal.ofNat m.steps.toNat) ++ m.usedText

/-- The hook that asks after every instruction. -/
def hook : Hook Prompt :=
  ⟨fun p m ip =>
    if p.running then { state := p, input := m.input }
    else
      let fuel := p.buffer.length + m.input.behind.length + 1
      let (choice, asked, buffer, behind) := ask fuel p.buffer m.input.behind 0
      { state := { running := choice = .resume, buffer }
        input := { m.input with behind }
        prints := (List.replicate asked question).flatten
        notes := place m ip ++ (List.replicate (asked - 1) help).flatten
        aborts := choice = .quit }⟩

end Prompt

end StackTape
