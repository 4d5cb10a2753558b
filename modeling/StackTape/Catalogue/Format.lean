import StackTape.Catalogue.Basic

/-!
# Catalogue files

A catalogue as the bytes of a file: a mark and a CBOR array with key, name and image of every
build.  An empty file is an empty catalogue; any other file without the mark is none.
-/

namespace StackTape

namespace Catalogue

/-- The first bytes of a catalogue file. -/
def mark : Bytes := Bytes.ascii "TAPE BUILDS\n"

/-- A build as an item. -/
def buildItem (b : Build) : Cbor.Item := .array [.bytes [b.key], .bytes [b.name], .bytes [b.data]]

/-- The bytes of a catalogue. -/
def encode (c : Catalogue) : Bytes := mark ++ Cbor.encode (.array (c.builds.map buildItem))

/-- The build of an item. -/
def readBuild : Cbor.Item → Option Build
  | .array [.bytes [key], .bytes [name], .bytes [data]] => some ⟨key, name, data⟩
  | _ => none

/-- The catalogue of a file's bytes. -/
def decode (data : Bytes) : Option Catalogue :=
  if data.isEmpty then some {}
  else if mark.isPrefixOf data then
    match Cbor.decode (data.drop mark.length) with
    | some (.array items) => (items.mapM readBuild).map fun builds => ⟨builds⟩
    | _ => none
  else none

end Catalogue

end StackTape
