import StackTape.Text.Bytes

/-!
# UTF-8 read from arbitrary bytes

`runes` cuts any byte string into runes: a well-formed character takes all its bytes, any other
byte stands alone and has no code point.  Nothing is lost: the runes' bytes concatenate to the
text.
-/

namespace StackTape

/-- A unit of text: the bytes of one character, or one byte that is part of none. -/
structure Rune where
  bytes : Bytes
  /-- The code point; `none` for a stray byte. -/
  code : Option Nat
deriving DecidableEq, Repr, Inhabited

namespace Utf8

/-- A byte that continues a character. -/
def isTail (b : UInt8) : Bool := 0x80 ≤ b && b ≤ 0xBF

/-- What a first byte promises: how many bytes follow and the range of the next one. -/
structure Lead where
  tails : Nat
  low : UInt8
  high : UInt8
deriving DecidableEq, Repr

/-- The promise of a first byte, if it can start a character. -/
def lead (a : UInt8) : Option Lead :=
  if a ≤ 0x7F then some ⟨0, 0x80, 0xBF⟩
  else if a < 0xC2 then none
  else if a ≤ 0xDF then some ⟨1, 0x80, 0xBF⟩
  else if a = 0xE0 then some ⟨2, 0xA0, 0xBF⟩
  else if a = 0xED then some ⟨2, 0x80, 0x9F⟩
  else if a ≤ 0xEF then some ⟨2, 0x80, 0xBF⟩
  else if a = 0xF0 then some ⟨3, 0x90, 0xBF⟩
  else if a ≤ 0xF3 then some ⟨3, 0x80, 0xBF⟩
  else if a = 0xF4 then some ⟨3, 0x80, 0x8F⟩
  else none

/-- The bytes after `a` that complete its character; `none` if `a` starts none here. -/
def tailsOf (a : UInt8) (rest : Bytes) : Option Bytes :=
  match lead a with
  | none => none
  | some l =>
    match rest.take l.tails with
    | [] => if l.tails = 0 then some [] else none
    | b :: more =>
      if more.length + 1 = l.tails && l.low ≤ b && b ≤ l.high && more.all isTail then
        some (b :: more)
      else none

/-- The payload bits of a first byte that promises `n` more. -/
def leadBits (a : UInt8) : Nat → Nat
  | 0 => a.toNat
  | 1 => (a &&& 0x1F).toNat
  | 2 => (a &&& 0x0F).toNat
  | _ => (a &&& 0x07).toNat

/-- The code point of a complete character. -/
def codeOf (a : UInt8) (tails : Bytes) : Nat :=
  tails.foldl (fun acc b => acc * 64 + (b &&& 0x3F).toNat) (leadBits a tails.length)

/-- The rune that starts with `a` when `rest` follows. -/
def runeAt (a : UInt8) (rest : Bytes) : Rune :=
  match tailsOf a rest with
  | some tails => ⟨a :: tails, some (codeOf a tails)⟩
  | none => ⟨[a], none⟩

/-- The runes of a text, left to right. -/
def runes : Bytes → List Rune
  | [] => []
  | a :: rest =>
    let r := runeAt a rest
    r :: runes (rest.drop (r.bytes.length - 1))
termination_by b => b.length
decreasing_by simp only [List.length_drop, List.length_cons]; omega

/-- Every byte belongs to a character. -/
def isValid (b : Bytes) : Bool := (runes b).all (·.code.isSome)

/-- How many runes a text has. -/
def count (b : Bytes) : Nat := (runes b).length

/-- The bytes of a code point below `0x110000`. -/
def encode (c : Nat) : Bytes :=
  if c < 0x80 then [c.toUInt8]
  else if c < 0x800 then [(0xC0 + c / 64).toUInt8, (0x80 + c % 64).toUInt8]
  else if c < 0x10000 then
    [(0xE0 + c / 4096).toUInt8, (0x80 + c / 64 % 64).toUInt8, (0x80 + c % 64).toUInt8]
  else
    [(0xF0 + c / 262144).toUInt8, (0x80 + c / 4096 % 64).toUInt8, (0x80 + c / 64 % 64).toUInt8,
      (0x80 + c % 64).toUInt8]

end Utf8

/-- `b` with spaces behind up to `width` runes. -/
def Bytes.padRight (width : Nat) (b : Bytes) : Bytes :=
  b ++ Bytes.repeated (width - Utf8.count b) 0x20

end StackTape
