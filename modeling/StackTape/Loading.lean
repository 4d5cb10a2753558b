import StackTape.Bytecode.Source
import StackTape.Compile
import StackTape.Manifest.Load

/-!
# Loading programs

A file is an image, bytecode or tape text: an image by its header, bytecode by its extension, and
anything else is tape text as it stands.  Bytecode is compiled with the frame that its own
reservations make, unless the catalogue has a build of the same bytes.  A catalogue that cannot be
used is passed over.
-/

namespace StackTape

/-- Why the content of a file is no program. -/
inductive ContentError where
  | image (e : ImageError)
  | source (e : SourceError)
  | slot (e : SlotError)
  | compile (e : CompileError)
deriving Repr

/-- The message of refused content. -/
def ContentError.message : ContentError → Bytes
  | .image e => e.message
  | .source e => e.message
  | .slot e => e.message
  | .compile e => e.message

/-- Why a program is not loaded. -/
inductive LoadError where
  | file (e : FileError)
  | content (path : Bytes) (e : ContentError)
deriving Repr

/-- The message of a program that is not loaded. -/
def LoadError.message : LoadError → Bytes
  | .file e => e.message
  | .content path e => path ++ Bytes.ascii ": " ++ e.message

/-- A program that was loaded. -/
structure Loaded where
  path : Bytes
  image : Image
  /-- The instructions of bytecode. -/
  code : List Instr := []
  /-- The frame of bytecode. -/
  frame : Option Frame := none
  /-- What compilation gave, unless there was none. -/
  output : Option Output := none
  /-- The image comes from the catalogue. -/
  cached : Bool := false
deriving Repr

namespace Loaded

/-- The extension of bytecode. -/
def bytecodeExtension : Bytes := Bytes.ascii ".tbc"

/-- The part of every key that stands for the way in which code is generated. -/
def salt : Bytes := Bytes.ascii "tapec/1"

/-- The key of the build of a source file. -/
def buildKey (data : Bytes) : Bytes := Catalogue.key [salt, data]

/-- Reads bytecode and infers its frame. -/
def read (data : Bytes) : Except ContentError (List Instr × Frame) :=
  match Source.parse data with
  | .error e => .error (.source e)
  | .ok code =>
    match Frame.ofCode code with
    | .error e => .error (.slot e)
    | .ok frame => .ok (code, frame)

/-- The image of an output. -/
def imageOf (name : Bytes) (capacity : Int64) (frame : Frame) (o : Output) : Image :=
  { Image.ofCode name o.code with
    ops := MacroOp.texts o.ops
    frame := frame.slots
    extent := o.extent
    capacity }

/-- Compiles bytecode that was read from a path. -/
def compile (manifest : Manifest) (path : Bytes) (code : List Instr) (frame : Frame) :
    Except LoadError Loaded :=
  match Output.compile code (some frame) with
  | .error e => .error (.content path (.compile e))
  | .ok o =>
    .ok { path, code, frame := some frame, output := some o
          image := imageOf (Path.stem path) manifest.capacity frame o }

/-- Takes a file that is no bytecode: an image, or tape text. -/
def direct (manifest : Manifest) (path data : Bytes) : Except LoadError Loaded :=
  if Image.isImage data then
    match Image.decode data with
    | .error e => .error (.content path (.image e))
    | .ok image => .ok { path, image }
  else .ok { path, image := { Image.ofCode (Path.stem path) data with capacity := manifest.capacity } }

/-- The file is bytecode. -/
def isBytecode (path data : Bytes) : Bool :=
  !Image.isImage data && Path.extension path = bytecodeExtension

variable {m : Type → Type} [Monad m] [Files m]

/-- Takes the build of bytecode from the catalogue at a path, or compiles it and keeps the build. -/
def build (manifest : Manifest) (cache path data : Bytes) (code : List Instr) (frame : Frame) :
    m (Except LoadError Loaded) := do
  match ← Files.openCatalogue cache with
  | .error _ => return compile manifest path code frame
  | .ok c =>
    match c.get (buildKey data) with
    | .ok image => return .ok { path, code, frame := some frame, image, cached := true }
    | .error _ =>
      match compile manifest path code frame with
      | .error e => return .error e
      | .ok p =>
        Files.saveCatalogue cache (c.put (buildKey data) p.image)
        return .ok p

/-- Loads the program at a path; an empty path stands for the entry of the project. -/
def load (manifest : Manifest) (path : Bytes) (useCache : Bool) : m (Except LoadError Loaded) := do
  let path := if path.isEmpty then manifest.entryPath else path
  match ← Files.readFile path with
  | .error e => return .error (.file e)
  | .ok data =>
    if isBytecode path data then
      match read data with
      | .error e => return .error (.content path e)
      | .ok (code, frame) =>
        match if useCache then manifest.cachePath? else none with
        | none => return compile manifest path code frame
        | some cache => build manifest cache path data code frame
    else return direct manifest path data

end Loaded

end StackTape
