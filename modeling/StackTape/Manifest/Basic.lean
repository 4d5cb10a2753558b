import StackTape.Files.Path
import StackTape.Machine.Basic
import StackTape.Text.Utf8

/-!
# Manifests

What a project sets: its name and entry file, the machine that runs it, where builds go, and what
is logged.  `Manifest.standard` has the values for a project without a file; `Manifest.fault?` finds
what is out of bounds.
-/

namespace StackTape

/-- The settings of a project. -/
structure Manifest where
  name : Bytes
  /-- The source file to start from. -/
  entry : Bytes
  /-- The number of cells of the tape. -/
  capacity : Int64
  /-- The name of the end-of-input mode. -/
  eof : Bytes
  /-- The step budget; zero is no limit. -/
  maxSteps : UInt64
  /-- Where the image goes. -/
  output : Bytes
  /-- Where the catalogue is; empty for none. -/
  cache : Bytes
  /-- Builds show the expansion. -/
  dump : Bool
  verbosity : Int64
  /-- Where the log goes; empty for standard error. -/
  logFile : Bytes
  /-- The directory of the project. -/
  dir : Bytes
deriving DecidableEq, Repr, Inhabited

/-- What a manifest may not hold. -/
inductive ManifestFault where
  | emptyName
  | emptyEntry
  | capacity
  | eof
  | emptyOutput
  | verbosity
  | encoding
deriving DecidableEq, Repr

/-- The words for a fault. -/
def ManifestFault.message (f : ManifestFault) : Bytes :=
  Bytes.ascii "invalid manifest: " ++ match f with
    | .emptyName => Bytes.ascii "project.name is empty"
    | .emptyEntry => Bytes.ascii "project.entry is empty"
    | .capacity => Bytes.ascii "machine.capacity is out of bounds"
    | .eof => Bytes.ascii "machine.eof is unknown"
    | .emptyOutput => Bytes.ascii "build.output is empty"
    | .verbosity => Bytes.ascii "log.verbosity is out of bounds"
    | .encoding => Bytes.ascii "text is not UTF-8"

namespace Manifest

/-- The name of a project file. -/
def fileName : Bytes := Bytes.ascii "tapec.toml"

/-- The entry file of a project that names none. -/
def standardEntry : Bytes := Bytes.ascii "main.tbc"

/-- The number of cells if none is set. -/
def standardCapacity : Int64 := 30000

/-- The end-of-input mode if none is set. -/
def standardEof : Bytes := Bytes.ascii "unchanged"

/-- The place of the image if none is set. -/
def standardOutput : Bytes := Bytes.ascii "build/out.tape"

/-- The place of the catalogue if none is set. -/
def standardCache : Bytes := Bytes.ascii ".tapec/cache.db"

/-- The name of a project that has none: the last part of its directory. -/
def standardName (dir : Bytes) : Bytes := if dir.isEmpty then [] else Path.base dir

/-- The settings of a project without a file. -/
def standard (dir : Bytes) : Manifest where
  name := standardName dir
  entry := standardEntry
  capacity := standardCapacity
  eof := standardEof
  maxSteps := 0
  output := standardOutput
  cache := standardCache
  dump := false
  verbosity := 0
  logFile := []
  dir := dir

/-- The largest tape. -/
def maxCapacity : Int64 := 16777216

/-- The texts of a manifest that are checked. -/
def texts (m : Manifest) : List Bytes := [m.name, m.entry, m.eof, m.output, m.cache, m.logFile]

/-- The first thing that is out of bounds. -/
def fault? (m : Manifest) : Option ManifestFault :=
  if !m.texts.all Utf8.isValid then some .encoding
  else if m.name.isEmpty then some .emptyName
  else if m.entry.isEmpty then some .emptyEntry
  else if m.capacity < 1 ∨ maxCapacity < m.capacity then some .capacity
  else if m.eof.isEmpty ∨ (EofMode.ofName? m.eof).isNone then some .eof
  else if m.output.isEmpty then some .emptyOutput
  else if m.verbosity < -5 ∨ 2 < m.verbosity then some .verbosity
  else none

/-- The path of the entry file. -/
def entryPath (m : Manifest) : Bytes := Path.resolve m.dir m.entry

/-- The path of the image. -/
def outputPath (m : Manifest) : Bytes := Path.resolve m.dir m.output

/-- The path of the catalogue, unless there is none. -/
def cachePath? (m : Manifest) : Option Bytes :=
  if m.cache.isEmpty then none else some (Path.resolve m.dir m.cache)

/-- The path of the log, unless it goes to standard error. -/
def logPath? (m : Manifest) : Option Bytes :=
  if m.logFile.isEmpty then none else some (Path.resolve m.dir m.logFile)

end Manifest

end StackTape
