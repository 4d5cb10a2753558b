import StackTape.Text.Utf8

/-!
# White space

White space is Unicode's, read through UTF-8; a stray byte is never white space.  `trim` and
`fields` cut a text at it.
-/

namespace StackTape

/-- The white-space code points. -/
def isBlankCode (c : Nat) : Bool :=
  (0x09 ≤ c && c ≤ 0x0D) || c = 0x20 || c = 0x85 || c = 0xA0 || c = 0x1680 ||
  (0x2000 ≤ c && c ≤ 0x200A) || c = 0x2028 || c = 0x2029 || c = 0x202F || c = 0x205F || c = 0x3000

/-- A rune that is white space. -/
def Rune.isBlank (r : Rune) : Bool :=
  match r.code with
  | some c => isBlankCode c
  | none => false

namespace Bytes

/-- The text of a list of runes. -/
def ofRunes (rs : List Rune) : Bytes := (rs.map (·.bytes)).flatten

/-- Without the white space at either end. -/
def trim (b : Bytes) : Bytes :=
  let inner := (Utf8.runes b).dropWhile (·.isBlank)
  ofRunes (inner.reverse.dropWhile (·.isBlank)).reverse

/-- Gathers runs of other runes between white space; `cur` is the open run, last rune first. -/
def gather (cur : List Rune) : List Rune → List Bytes
  | [] => if cur.isEmpty then [] else [ofRunes cur.reverse]
  | r :: rest =>
    if r.isBlank then
      if cur.isEmpty then gather [] rest else ofRunes cur.reverse :: gather [] rest
    else gather (r :: cur) rest

/-- The maximal pieces without white space, in order. -/
def fields (b : Bytes) : List Bytes := gather [] (Utf8.runes b)

end Bytes

end StackTape
