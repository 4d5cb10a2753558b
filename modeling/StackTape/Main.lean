import StackTape.Command.Basic

/-!
# The program

The commands on the files of this computer.  Everything that is decided here is how bytes go in and
out.
-/

namespace StackTape

namespace Console

/-- The bytes of a text. -/
def bytesOf (s : String) : Bytes := s.toUTF8.toList

/-- The text of bytes; what is not UTF-8 has none. -/
def textOf (b : Bytes) : String := (String.fromUTF8? ⟨b.toArray⟩).getD ""

/-- Tries an action on a file. -/
def attempt {α : Type} (action : FileAction) (path : Bytes) (act : IO α) :
    IO (Except FileError α) := do
  try
    return .ok (← act)
  catch e =>
    let fault : PathFault := match e with
      | .noFileOrDirectory .. => .notFound
      | .alreadyExists .. => .present
      | .inappropriateType .. => .isDirectory
      | _ => .malformed
    return .error ⟨action, path, fault⟩

/-- What is at a path: nothing, or whether it is a directory. -/
def look (path : Bytes) : IO (Option Bool) := do
  let p := (← IO.currentDir) / textOf path
  if path.isEmpty then return none
  else if ← p.pathExists then return some (← p.isDir)
  else return none

/-- Reads a file. -/
def readFile (path : Bytes) : IO (Except FileError Bytes) := do
  match ← look path with
  | none => return .error ⟨.opening, path, .notFound⟩
  | some true => return .error ⟨.reading, path, .isDirectory⟩
  | some false =>
    attempt .opening path do
      let data ← IO.FS.readBinFile (textOf path)
      return data.toList

/-- Writes a file. -/
def writeFile (path data : Bytes) : IO (Except FileError Unit) := do
  match ← look path with
  | some true => return .error ⟨.opening, path, .isDirectory⟩
  | _ => attempt .opening path (IO.FS.writeBinFile (textOf path) ⟨data.toArray⟩)

/-- Makes a directory and those above it. -/
def makeDirs (path : Bytes) : IO (Except FileError Unit) := do
  match ← look path with
  | some true => return .ok ()
  | some false => return .error ⟨.making, path, .notDirectory⟩
  | none => attempt .making path (IO.FS.createDirAll (textOf path))

/-- Opens a catalogue, and makes one if nothing is there. -/
def openCatalogue (path : Bytes) : IO (Except CatalogueFault Catalogue) := do
  match ← makeDirs (Path.parent path) with
  | .error e => return .error (.unreachable e)
  | .ok () =>
    match ← look path with
    | some true => return .error .unopened
    | some false =>
      match ← readFile path with
      | .error _ => return .error .unopened
      | .ok data =>
        match Catalogue.decode data with
        | some c => return .ok c
        | none => return .error .foreign
    | none =>
      match ← writeFile path (Catalogue.encode {}) with
      | .error _ => return .error .unopened
      | .ok () => return .ok {}

instance : Files IO where
  workingDir := return bytesOf (← IO.currentDir).toString
  isPresent path := return (← look path).isSome
  readFile := readFile
  writeFile := writeFile
  touchFile path := do
    match ← look path with
    | none => writeFile path []
    | some true => return .error ⟨.opening, path, .isDirectory⟩
    | some false => return .ok ()
  makeDirs := makeDirs
  openCatalogue := openCatalogue
  saveCatalogue path c := do
    let _ ← writeFile path c.encode

/-- More pieces than any input has. -/
def pieces : Nat := 0x10000000000

/-- More instructions than any run has time for. -/
def instructions : Nat := 0x4000000000000000

/-- Reads a stream to its end, in at most `fuel` pieces. -/
def readAll (stream : IO.FS.Stream) : (fuel : Nat) → ByteArray → IO ByteArray
  | 0, acc => return acc
  | fuel + 1, acc => do
    let piece ← stream.read 65536
    if piece.isEmpty then return acc else readAll stream fuel (acc ++ piece)

end Console

end StackTape

open StackTape in
/-- Runs the program. -/
def main (args : List String) : IO UInt32 := do
  let stdin ← IO.getStdin
  let input ← if args.contains "run" then Console.readAll stdin Console.pieces .empty else pure .empty
  let setting : Setting :=
    { input := input.toList, fuel := Console.instructions, age := Bytes.ascii "some time ago" }
  let outcome : Outcome ← Command.execute setting (args.map Console.bytesOf)
  let stdout ← IO.getStdout
  let stderr ← IO.getStderr
  stdout.write ⟨outcome.out.toArray⟩
  stdout.flush
  stderr.write ⟨outcome.notes.toArray⟩
  stderr.flush
  return outcome.exitCode.toUInt32
