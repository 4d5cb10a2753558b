import StackTape.Cbor.Field
import StackTape.Digest.Sha256
import StackTape.Frame

/-!
# Images

A compiled program with what is needed to run and inspect it, sealed by the digest of its code.
An encoded image is four bytes of magic, a version of four bytes, the lowest first, and a CBOR
record; empty lists and zero numbers of the optional fields are left out.
-/

namespace StackTape

/-- A compiled program. -/
structure Image where
  name : Bytes
  /-- The tape text. -/
  code : Bytes
  /-- The digest of the code, thirty-two bytes. -/
  hash : Bytes
  /-- The macro-operations as text. -/
  ops : List Bytes := []
  frame : List Slot := []
  /-- The cells touched to the right of the start. -/
  extent : Int64 := 0
  /-- The tape size asked for; zero is the default. -/
  capacity : Int64 := 0
deriving DecidableEq, Repr, Inhabited

/-- Why bytes are no image. -/
inductive ImageError where
  | badMagic
  | version (n : Nat)
  /-- The record cannot be read. -/
  | malformed
  /-- The code of the image of this name is not what was sealed. -/
  | broken (name : Bytes)
deriving DecidableEq, Repr

/-- The words for code that is not what was sealed. -/
def sealBroken : Bytes := Bytes.ascii "code does not match image hash"

/-- The message of refused bytes. -/
def ImageError.message : ImageError → Bytes
  | .badMagic => Bytes.ascii "not a tape image"
  | .version n => Bytes.ascii "unsupported image version: " ++ Decimal.ofNat n
  | .malformed => Bytes.ascii "image: unmarshal: malformed record"
  | .broken name => Bytes.ascii "image " ++ Quoted.text name ++ Bytes.ascii ": " ++ sealBroken

namespace Image

/-- An image of some code, sealed. -/
def ofCode (name code : Bytes) : Image := { name, code, hash := Sha256.digest code }

/-- The digest as text. -/
def id (img : Image) : Bytes := Hex.ofBytes img.hash

/-- The code is what was sealed. -/
def verifies (img : Image) : Bool := Sha256.digest img.code = img.hash

/-! ### Encoding -/

/-- The number of bytes in a seal. -/
def hashSize : Nat := 32

/-- A word as an item. -/
def wordItem (n : Int64) : Cbor.Item :=
  if n < 0 then .nint (-1 - n.toInt).toNat else .uint n.toInt.toNat

/-- A slot as a record. -/
def slotItem (s : Slot) : Cbor.Item :=
  .map [.uint 1, .text [s.name], .uint 2, wordItem s.size]

/-- The record of an image. -/
def toItem (img : Image) : Cbor.Item :=
  .map ([.uint 1, .text [img.name], .uint 2, .text [img.code], .uint 3, .bytes [img.hash]] ++
    (if img.ops.isEmpty then [] else [.uint 4, .array (img.ops.map fun op => .text [op])]) ++
    (if img.frame.isEmpty then [] else [.uint 5, .array (img.frame.map slotItem)]) ++
    (if img.extent = 0 then [] else [.uint 6, wordItem img.extent]) ++
    (if img.capacity = 0 then [] else [.uint 7, wordItem img.capacity]))

/-- The first bytes of an image. -/
def magic : Bytes := Bytes.ascii "TAPE"

/-- The version that is written and read. -/
def version : Nat := 1

/-- The bytes of a version, the lowest first. -/
def versionBytes (n : Nat) : Bytes := (Cbor.bigEndian 4 n).reverse

/-- The size of the header. -/
def headerSize : Nat := 8

/-- The encoding of an image. -/
def encode (img : Image) : Bytes := magic ++ versionBytes version ++ Cbor.encode img.toItem

/-! ### Decoding -/

/-- The slot of a record's fields. -/
def readSlot (fs : Cbor.Fields) : Option Slot := do
  let name ← Cbor.field fs 1 [] Cbor.toText
  let size ← Cbor.field fs 2 0 Cbor.toWord
  return ⟨name, size⟩

/-- The image of a record's fields. -/
def readImage (fs : Cbor.Fields) : Option Image := do
  let name ← Cbor.field fs 1 [] Cbor.toText
  let code ← Cbor.field fs 2 [] Cbor.toText
  let hash ← Cbor.field fs 3 (Cbor.fit hashSize []) (Cbor.toFixed hashSize)
  let ops ← Cbor.field fs 4 [] (Cbor.toList Cbor.toText)
  let frame ← Cbor.field fs 5 [] (Cbor.toList (Cbor.toRecord readSlot))
  let extent ← Cbor.field fs 6 0 Cbor.toWord
  let capacity ← Cbor.field fs 7 0 Cbor.toWord
  return { name, code, hash, ops, frame, extent, capacity }

/-- The bytes start with the header of an image. -/
def isImage (data : Bytes) : Bool := headerSize ≤ data.length && data.take 4 = magic

/-- Reads and verifies an image. -/
def decode (data : Bytes) : Except ImageError Image :=
  if !isImage data then .error .badMagic
  else
    let v := Cbor.value ((data.drop 4).take 4).reverse
    if v ≠ version then .error (.version v)
    else
      match (Cbor.decode (data.drop headerSize)).bind (Cbor.toRecord readImage) with
      | none => .error .malformed
      | some img => if img.verifies then .ok img else .error (.broken img.name)

end Image

end StackTape
