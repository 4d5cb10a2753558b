import StackTape.Image.Basic

/-!
# The build catalogue

Encoded images under keys that are digests of everything that went into a build, so that an
unchanged source is never compiled twice.  `Catalogue.key` hashes a list of parts, each with its
length in front, so that different splits of the same bytes have different keys.  A catalogue holds
at most one build for a key and lists its builds in the order of the keys.
-/

namespace StackTape

/-- A build in the catalogue. -/
structure Build where
  key : Bytes
  name : Bytes
  /-- The encoded image. -/
  data : Bytes
deriving DecidableEq, Repr, Inhabited

/-- Builds in the order of their keys. -/
structure Catalogue where
  builds : List Build := []
deriving DecidableEq, Repr, Inhabited

/-- Why a catalogue does not answer. -/
inductive CatalogueError where
  | notFound
  /-- The build under the key is no image. -/
  | damaged (key : Bytes) (cause : ImageError)
  /-- The catalogue was closed; the words say what was tried. -/
  | closed (attempt : Bytes)
deriving DecidableEq, Repr

/-- The first bytes of a key, enough to tell builds apart. -/
def Catalogue.shortKey (key : Bytes) : Bytes := key.take 12

/-- The message of a catalogue that does not answer. -/
def CatalogueError.message : CatalogueError → Bytes
  | .notFound => Bytes.ascii "not in cache"
  | .damaged key cause =>
    Bytes.ascii "cached build " ++ Catalogue.shortKey key ++ Bytes.ascii ": " ++ cause.message
  | .closed attempt => attempt ++ Bytes.ascii ": sql: database is closed"

namespace Catalogue

/-! ### Keys -/

/-- A part of a key: its length, a colon and its bytes. -/
def measured (part : Bytes) : Bytes := Decimal.ofNat part.length ++ 0x3A :: part

/-- What is hashed for a list of parts. -/
def keyStream (parts : List Bytes) : Bytes := parts.flatMap measured

/-- The key of a list of parts. -/
def key (parts : List Bytes) : Bytes := Hex.ofBytes (Sha256.digest (keyStream parts))

/-! ### Builds -/

/-- The order of keys: byte by byte, a shorter key before its extensions. -/
def before : Bytes → Bytes → Bool
  | _, [] => false
  | [], _ :: _ => true
  | a :: as, b :: bs => a < b || (a = b && before as bs)

/-- Inserts a build at its place; one of the same key is replaced. -/
def insert (b : Build) : List Build → List Build
  | [] => [b]
  | c :: rest =>
    if b.key = c.key then b :: rest
    else if before b.key c.key then b :: c :: rest
    else c :: insert b rest

/-- Keeps bytes under a key, in place of what was there. -/
def putData (c : Catalogue) (key name data : Bytes) : Catalogue := ⟨insert ⟨key, name, data⟩ c.builds⟩

/-- Keeps an image under a key. -/
def put (c : Catalogue) (key : Bytes) (img : Image) : Catalogue :=
  c.putData key img.name img.encode

/-- The build under a key. -/
def find? (c : Catalogue) (key : Bytes) : Option Build := c.builds.find? (·.key = key)

/-- The image under a key. -/
def get (c : Catalogue) (key : Bytes) : Except CatalogueError Image :=
  match c.find? key with
  | none => .error .notFound
  | some b =>
    match Image.decode b.data with
    | .ok img => .ok img
    | .error cause => .error (.damaged key cause)

/-- Without the build under a key. -/
def erase (c : Catalogue) (key : Bytes) : Catalogue := ⟨c.builds.filter (·.key ≠ key)⟩

/-- The number of bytes of all images. -/
def totalSize (c : Catalogue) : Nat := c.builds.foldl (fun n b => n + b.data.length) 0

/-! ### Sessions -/

/-- The use of a catalogue until it is closed. -/
structure Session where
  catalogue : Catalogue := {}
  isOpen : Bool := true
deriving DecidableEq, Repr, Inhabited

namespace Session

/-- The catalogue for an attempt, while the session is open. -/
def access (s : Session) (attempt : String) : Except CatalogueError Catalogue :=
  if s.isOpen then .ok s.catalogue else .error (.closed (Bytes.ascii attempt))

/-- Looks up the image under a key. -/
def get (s : Session) (key : Bytes) : Except CatalogueError Image := do
  (← s.access "querying build").get key

/-- Keeps an image under a key. -/
def put (s : Session) (key : Bytes) (img : Image) : Except CatalogueError Session := do
  return { s with catalogue := (← s.access "saving build").put key img }

/-- Removes the build under a key. -/
def erase (s : Session) (key : Bytes) : Except CatalogueError Session := do
  return { s with catalogue := (← s.access "deleting build").erase key }

/-- Lists the builds. -/
def builds (s : Session) : Except CatalogueError (List Build) := do
  return (← s.access "listing builds").builds

/-- Ends the session. -/
def close (s : Session) : Session := { s with isOpen := false }

/-- Takes up the catalogue again. -/
def reopen (s : Session) : Session := { s with isOpen := true }

end Session

end Catalogue

end StackTape
