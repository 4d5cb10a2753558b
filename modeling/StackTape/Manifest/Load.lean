import StackTape.Files.Access
import StackTape.Manifest.Basic
import StackTape.Toml.Table

/-!
# Loading manifests

A manifest is read from the project file of a directory.  Names in the file match without regard
to case, and a name with the right case counts more; capacity and catalogue have their standard
values unless the file sets them under their exact names.  `Manifest.find` looks for a project file
in a directory and those above it.
-/

namespace StackTape

/-- Why a manifest is not loaded. -/
inductive ManifestError where
  | unreadable (path : Bytes) (e : FileError)
  /-- The file is no TOML, or a value has the wrong type. -/
  | malformed (path : Bytes)
  | invalid (path : Bytes) (f : ManifestFault)
deriving DecidableEq, Repr

/-- The message of a manifest that is not loaded. -/
def ManifestError.message : ManifestError → Bytes
  | .unreadable path e => Bytes.ascii "cannot read " ++ path ++ Bytes.ascii ": " ++ e.message
  | .malformed path =>
    Bytes.ascii "parse error in " ++ path ++ Bytes.ascii ": no document with these settings"
  | .invalid path f => path ++ Bytes.ascii ": " ++ f.message

namespace Manifest

/-! ### Settings in a document -/

/-- A name without regard to case: ASCII capitals, the long s and the Kelvin sign become small
letters. -/
def fold : Bytes → Bytes
  | 0xC5 :: 0xBF :: rest => 0x73 :: fold rest
  | 0xE2 :: 0x84 :: 0xAA :: rest => 0x6B :: fold rest
  | b :: rest => Literal.lower b :: fold rest
  | [] => []

/-- The values of a setting; one under the exact name comes last. -/
def valuesOf (name : Bytes) (t : Toml.Table) : List Toml.Value :=
  let hits := t.filter fun (k, _) => fold k = name
  let (exact, loose) := hits.partition fun (k, _) => k = name
  (loose ++ exact).map (·.2)

/-- The tables of a section; `none` if the section is something else. -/
def sectionOf (name : String) (t : Toml.Table) : Option (List Toml.Table) :=
  (valuesOf (Bytes.ascii name) t).mapM fun v =>
    match v with
    | .table s => some s
    | _ => none

/-- The last value of a setting in a section; `none` if a value is of another kind. -/
def setting {α : Type} (read : Toml.Scalar → Option α) (zero : α) (name : String)
    (tables : List Toml.Table) : Option α :=
  (tables.flatMap (valuesOf (Bytes.ascii name))).foldlM (fun _ v =>
    match v with
    | .scalar s => read s
    | _ => none) zero

/-- A text. -/
def asText : Toml.Scalar → Option Bytes
  | .text b => some b
  | _ => none

/-- An integer. -/
def asInteger : Toml.Scalar → Option Int64
  | .integer n => some n
  | _ => none

/-- A truth value. -/
def asFlag : Toml.Scalar → Option Bool
  | .boolean b => some b
  | _ => none

/-- The first text that is not empty. -/
def orElse (b standard : Bytes) : Bytes := if b.isEmpty then standard else b

/-- The file sets a value under this exact name. -/
def isSet (doc : Toml.Table) (group name : String) : Bool :=
  (Toml.Table.get? [Bytes.ascii group, Bytes.ascii name] doc).isSome

/-- The manifest of a document for a project in `dir`. -/
def ofDocument (dir : Bytes) (doc : Toml.Table) : Option Manifest := do
  let project ← sectionOf "project" doc
  let machine ← sectionOf "machine" doc
  let build ← sectionOf "build" doc
  let log ← sectionOf "log" doc
  let name ← setting asText [] "name" project
  let entry ← setting asText [] "entry" project
  let capacity ← setting asInteger 0 "capacity" machine
  let eof ← setting asText [] "eof" machine
  let maxSteps ← setting asInteger 0 "max-steps" machine
  let output ← setting asText [] "output" build
  let cache ← setting asText [] "cache" build
  let dump ← setting asFlag false "dump" build
  let verbosity ← setting asInteger 0 "verbosity" log
  let logFile ← setting asText [] "file" log
  return {
    name := orElse name (standardName dir)
    entry := orElse entry standardEntry
    capacity := if isSet doc "machine" "capacity" then capacity else standardCapacity
    eof := orElse eof standardEof
    maxSteps := maxSteps.toUInt64
    output := orElse output standardOutput
    cache := if isSet doc "build" "cache" then cache else standardCache
    dump, verbosity, logFile, dir }

/-- The manifest of a file's bytes; `dir` is the project's directory from the root. -/
def parse (path dir data : Bytes) : Except ManifestError Manifest :=
  match (Toml.parse data).bind (ofDocument dir) with
  | none => .error (.malformed path)
  | some m =>
    match m.fault? with
    | some f => .error (.invalid path f)
    | none => .ok m

/-! ### Files -/

variable {m : Type → Type} [Monad m] [Files m]

/-- Loads the manifest of a directory. -/
def load (dir : Bytes) : m (Except ManifestError Manifest) := do
  let path := Path.join dir fileName
  match ← Files.readFile path with
  | .error e => return .error (.unreadable path e)
  | .ok data => return parse path (Path.absolute (← Files.workingDir) dir) data

/-- Looks for a project file in a directory and upwards; `fuel` bounds the number of directories. -/
def findFrom : (fuel : Nat) → (dir : Bytes) → m (Except ManifestError (Option Manifest))
  | 0, _ => return .ok none
  | fuel + 1, dir => do
    if ← Files.isPresent (Path.join dir fileName) then
      match ← load dir with
      | .error e => return .error e
      | .ok manifest => return .ok (some manifest)
    else
      let above := Path.parent dir
      if above = dir then return .ok none else findFrom fuel above

/-- The manifest of the project that a directory is in, if there is one. -/
def find (dir : Bytes) : m (Except ManifestError (Option Manifest)) := do
  let dir := Path.absolute (← Files.workingDir) dir
  findFrom (dir.length + 1) dir

end Manifest

end StackTape
