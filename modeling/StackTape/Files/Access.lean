import StackTape.Files.Tree

/-!
# Access to files

What a command needs of the world: `Files m` has the operations as actions of a monad `m`.  A tree
of files in a state is one such world.
-/

namespace StackTape

/-- Why the file of a catalogue cannot be used. -/
inductive CatalogueFault where
  /-- Its directory cannot be made. -/
  | unreachable (e : FileError)
  /-- A directory is in its place. -/
  | unopened
  /-- The file is something else. -/
  | foreign
deriving DecidableEq, Repr

/-- The message of a catalogue that cannot be used. -/
def CatalogueFault.message : CatalogueFault → Bytes
  | .unreachable e => Bytes.ascii "creating cache dir: " ++ e.message
  | .unopened =>
    Bytes.ascii "setting busy timeout: unable to open database file: out of memory (14)"
  | .foreign => Bytes.ascii "creating table: file is not a database (26)"

/-- File operations as actions. -/
class Files (m : Type → Type) where
  /-- The working directory. -/
  workingDir : m Bytes
  /-- Something is at a path. -/
  isPresent : Bytes → m Bool
  /-- The bytes of a file. -/
  readFile : Bytes → m (Except FileError Bytes)
  /-- Writes the bytes of a file. -/
  writeFile : (path data : Bytes) → m (Except FileError Unit)
  /-- Makes an empty file unless there is one. -/
  touchFile : Bytes → m (Except FileError Unit)
  /-- Makes a directory and those above it. -/
  makeDirs : Bytes → m (Except FileError Unit)
  /-- The catalogue at a path, made if nothing is there. -/
  openCatalogue : Bytes → m (Except CatalogueFault Catalogue)
  /-- Keeps a catalogue at the path where it was opened. -/
  saveCatalogue : Bytes → Catalogue → m Unit

namespace FileTree

/-- Takes over the tree of an operation that succeeded. -/
def commit {ε : Type} (op : FileTree → Except ε FileTree) : StateM FileTree (Except ε Unit) :=
  fun t =>
    match op t with
    | .ok t' => (.ok (), t')
    | .error e => (.error e, t)

/-- Opens a catalogue: its directory is made, and an empty catalogue if nothing is there. -/
def openCatalogue (t : FileTree) (p : Bytes) : Except CatalogueFault Catalogue × FileTree :=
  match t.makeDirs (Path.parent p) with
  | .error e => (.error (.unreachable e), t)
  | .ok t =>
    match t.target p with
    | .error _ => (.error .unopened, t)
    | .ok l =>
      match t.entry? l with
      | some (.catalogue c) => (.ok c, t)
      | some (.file data) =>
        match Catalogue.decode data with
        | some c => (.ok c, t.insert l (.catalogue c))
        | none => (.error .foreign, t)
      | some .directory => (.error .unopened, t)
      | none => (.ok {}, t.insert l (.catalogue {}))

/-- Keeps a catalogue at a path. -/
def saveCatalogue (t : FileTree) (p : Bytes) (c : Catalogue) : FileTree :=
  match t.target p with
  | .error _ => t
  | .ok l => t.insert l (.catalogue c)

instance : Files (StateM FileTree) where
  workingDir := fun t => (t.workingDir, t)
  isPresent p := fun t => (t.contains p, t)
  readFile p := fun t => (t.read p, t)
  writeFile p data := commit (·.write p data)
  touchFile p := commit (·.touch p)
  makeDirs p := commit (·.makeDirs p)
  openCatalogue p := fun t => t.openCatalogue p
  saveCatalogue p c := fun t => ((), t.saveCatalogue p c)

end FileTree

end StackTape
