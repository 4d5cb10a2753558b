import StackTape.Catalogue.Format
import StackTape.Files.Path

/-!
# A tree of files

Directories, files and catalogues, each at its place below the root, and a working directory.
Reading, writing and making directories find their way part by part: a part leads on only from a
directory, two dots lead up, and a slash at the end asks for a directory.
-/

namespace StackTape

/-- Why a path leads nowhere. -/
inductive PathFault where
  | notFound
  | notDirectory
  | isDirectory
  | present
  | tooLong
  | malformed
deriving DecidableEq, Repr

/-- The words for a fault. -/
def PathFault.message : PathFault → Bytes
  | .notFound => Bytes.ascii "no such file or directory"
  | .notDirectory => Bytes.ascii "not a directory"
  | .isDirectory => Bytes.ascii "is a directory"
  | .present => Bytes.ascii "file exists"
  | .tooLong => Bytes.ascii "file name too long"
  | .malformed => Bytes.ascii "invalid argument"

/-- What was tried with a file. -/
inductive FileAction where
  | opening
  | reading
  | making
deriving DecidableEq, Repr

/-- The word for an action. -/
def FileAction.name : FileAction → Bytes
  | .opening => Bytes.ascii "open"
  | .reading => Bytes.ascii "read"
  | .making => Bytes.ascii "mkdir"

/-- A file operation that failed. -/
structure FileError where
  action : FileAction
  path : Bytes
  fault : PathFault
deriving DecidableEq, Repr

/-- The message of a failed operation. -/
def FileError.message (e : FileError) : Bytes :=
  e.action.name ++ 0x20 :: e.path ++ Bytes.ascii ": " ++ e.fault.message

/-- The names that lead from the root to a place. -/
abbrev Location := List Bytes

/-- What is at a place. -/
inductive Entry where
  | directory
  | file (data : Bytes)
  | catalogue (c : Catalogue)
deriving DecidableEq, Repr

/-- Everything below the root, and the working directory. -/
structure FileTree where
  entries : List (Location × Entry) := []
  current : Location := []
deriving DecidableEq, Repr

namespace FileTree

/-- The entry at a place; the root is a directory. -/
def entry? (t : FileTree) (l : Location) : Option Entry :=
  if l.isEmpty then some .directory else t.entries.lookup l

/-- Replaces the entry at a place among others, or adds it at the end. -/
def place (l : Location) (e : Entry) : List (Location × Entry) → List (Location × Entry)
  | [] => [(l, e)]
  | (k, f) :: rest => if k = l then (l, e) :: rest else (k, f) :: place l e rest

/-- Puts an entry at a place. -/
def insert (t : FileTree) (l : Location) (e : Entry) : FileTree :=
  { t with entries := place l e t.entries }

/-! ### Finding the way -/

/-- The longest name. -/
def maxName : Nat := 255

/-- The parts of a path; a slash at the end stands for one more step in place. -/
def steps (p : Bytes) : List Bytes :=
  let names := (p.splitOn Path.slash).filter (!·.isEmpty)
  if p.getLast? = some Path.slash then names ++ [Path.dot] else names

/-- Follows the parts of a path to something that is there. -/
def walk (t : FileTree) : Location → List Bytes → Except PathFault Location
  | l, [] => .ok l
  | l, part :: rest =>
    if t.entry? l ≠ some .directory then .error .notDirectory
    else if part = Path.dot then walk t l rest
    else if part = Path.dotDot then walk t l.dropLast rest
    else if maxName < part.length then .error .tooLong
    else if (t.entry? (l ++ [part])).isNone then .error .notFound
    else walk t (l ++ [part]) rest

/-- The place where a path starts. -/
def origin (t : FileTree) (p : Bytes) : Location := if Path.isAbsolute p then [] else t.current

/-- A path that can be followed at all. -/
def check (p : Bytes) : Except PathFault Unit :=
  if p.contains 0 then .error .malformed
  else if p.isEmpty then .error .notFound
  else .ok ()

/-- The place of something that is there. -/
def locate (t : FileTree) (p : Bytes) : Except PathFault Location := do
  check p
  t.walk (t.origin p) (steps p)

/-- The place for something new: the directory of a path, and the last part. -/
def locateNew (t : FileTree) (p : Bytes) : Except PathFault (Location × Bytes) := do
  check p
  let parts := steps p
  let l ← t.walk (t.origin p) parts.dropLast
  if t.entry? l ≠ some .directory then throw .notDirectory
  return (l, parts.getLast?.getD Path.dot)

/-! ### Operations -/

/-- What is at a path, followed to its end. -/
def stat (t : FileTree) (p : Bytes) : Except PathFault Entry := do
  match t.entry? (← t.locate p) with
  | some e => return e
  | none => throw .notFound

/-- Something is at the path. -/
def contains (t : FileTree) (p : Bytes) : Bool := (t.stat p).toBool

/-- The bytes of a file. -/
def read (t : FileTree) (p : Bytes) : Except FileError Bytes :=
  match t.stat p with
  | .error fault => .error ⟨.opening, p, fault⟩
  | .ok .directory => .error ⟨.reading, p, .isDirectory⟩
  | .ok (.file data) => .ok data
  | .ok (.catalogue c) => .ok c.encode

/-- The place where a file can be written. -/
def target (t : FileTree) (p : Bytes) : Except PathFault Location := do
  let (l, last) ← t.locateNew p
  if last = Path.dot ∨ last = Path.dotDot then throw .isDirectory
  else if maxName < last.length then throw .tooLong
  else if t.entry? (l ++ [last]) = some .directory then throw .isDirectory
  else return l ++ [last]

/-- Writes a file, in place of what was there. -/
def write (t : FileTree) (p data : Bytes) : Except FileError FileTree :=
  match t.target p with
  | .error fault => .error ⟨.opening, p, fault⟩
  | .ok l => .ok (t.insert l (.file data))

/-- Makes an empty file unless there is one. -/
def touch (t : FileTree) (p : Bytes) : Except FileError FileTree :=
  match t.target p with
  | .error fault => .error ⟨.opening, p, fault⟩
  | .ok l => .ok (if (t.entry? l).isSome then t else t.insert l (.file []))

/-- Makes one directory. -/
def makeDir (t : FileTree) (p : Bytes) : Except FileError FileTree :=
  match t.locateNew (Path.dropSlashes p) with
  | .error fault => .error ⟨.making, p, fault⟩
  | .ok (l, last) =>
    if maxName < last.length then .error ⟨.making, p, .tooLong⟩
    else
      match t.entry? (l ++ [last]) with
      | some .directory => .ok t
      | some _ => .error ⟨.making, p, .present⟩
      | none => .ok (t.insert (l ++ [last]) .directory)

/-- Makes a directory and those above it that are missing; `fuel` bounds the number of parts. -/
def makeDirsFrom : (fuel : Nat) → FileTree → Bytes → Except FileError FileTree
  | 0, t, _ => .ok t
  | fuel + 1, t, p =>
    match t.stat p with
    | .ok .directory => .ok t
    | .ok _ => .error ⟨.making, p, .notDirectory⟩
    | .error _ =>
      let above := Path.upToSlash (Path.dropSlashes p)
      if above.isEmpty then t.makeDir p
      else
        match makeDirsFrom fuel t above with
        | .error e => .error e
        | .ok t => t.makeDir p

/-- Makes a directory and those above it that are missing. -/
def makeDirs (t : FileTree) (p : Bytes) : Except FileError FileTree :=
  makeDirsFrom (p.length + 1) t p

/-- The path of a place from the root. -/
def pathOf (l : Location) : Bytes := Path.slash :: Bytes.join [Path.slash] l

/-- The working directory. -/
def workingDir (t : FileTree) : Bytes := pathOf t.current

end FileTree

end StackTape
