import StackTape.Text.Bytes

/-!
# CBOR items

The data items of RFC 8949 as a tree, the encoder with shortest heads, and the decoder, which takes
any well-formed encoding: longer heads, strings in pieces and containers of indefinite length.
Nesting and container sizes are limited.
-/

namespace StackTape

namespace Cbor

/-- A data item. -/
inductive Item where
  | uint (n : Nat)
  /-- The number `-1 - n`. -/
  | nint (n : Nat)
  /-- A byte string in pieces; one of definite length is a single piece. -/
  | bytes (pieces : List Bytes)
  /-- A text string in pieces. -/
  | text (pieces : List Bytes)
  | array (items : List Item)
  /-- Keys and values in turn. -/
  | map (flat : List Item)
  | tag (number : Nat) (content : Item)
  | simple (n : Nat)
  /-- A float by its bytes. -/
  | float (raw : Bytes)
deriving Repr, Inhabited

/-! ### Encoding -/

/-- The last `width` bytes of `n`, the highest first. -/
def bigEndian : Nat → Nat → Bytes
  | 0, _ => []
  | width + 1, n => bigEndian width (n / 256) ++ [n.toUInt8]

/-- The number of bytes, the highest first. -/
def value (b : Bytes) : Nat := b.foldl (fun acc c => acc * 256 + c.toNat) 0

/-- The shortest head of a major type and an argument. -/
def head (major : Nat) (n : Nat) : Bytes :=
  let lead (info : Nat) : UInt8 := (major * 32 + info).toUInt8
  if n < 24 then [lead n]
  else if n < 0x100 then lead 24 :: bigEndian 1 n
  else if n < 0x10000 then lead 25 :: bigEndian 2 n
  else if n < 0x100000000 then lead 26 :: bigEndian 4 n
  else lead 27 :: bigEndian 8 n

/-- The head of something of indefinite length. -/
def openHead (major : Nat) : UInt8 := (major * 32 + 31).toUInt8

/-- The end of something of indefinite length. -/
def breakByte : UInt8 := 0xFF

/-- A string of definite length. -/
def piece (major : Nat) (b : Bytes) : Bytes := head major b.length ++ b

/-- A string: one piece as it is, any other number of them between an open head and a break. -/
def pieces (major : Nat) : List Bytes → Bytes
  | [b] => piece major b
  | bs => openHead major :: (bs.flatMap (piece major) ++ [breakByte])

mutual

/-- The encoding of an item. -/
def encode : Item → Bytes
  | .uint n => head 0 n
  | .nint n => head 1 n
  | .bytes bs => pieces 2 bs
  | .text bs => pieces 3 bs
  | .array items => head 4 items.length ++ encodeAll items
  | .map flat => head 5 (flat.length / 2) ++ encodeAll flat
  | .tag number content => head 6 number ++ encode content
  | .simple n => head 7 n
  | .float raw =>
    let info := if raw.length = 2 then 25 else if raw.length = 4 then 26 else 27
    (7 * 32 + info).toUInt8 :: raw

/-- The encodings of items in order. -/
def encodeAll : List Item → Bytes
  | [] => []
  | item :: rest => encode item ++ encodeAll rest

end

/-! ### Decoding -/

/-- How deep items may be nested. -/
def maxDepth : Nat := 32

/-- How many elements an array, or pairs a map, may have. -/
def maxCount : Nat := 131072

/-- The argument of a head. -/
inductive Argument where
  | given (n : Nat)
  | indefinite
deriving DecidableEq, Repr

/-- A head that was read. -/
structure Head where
  major : Nat
  info : Nat
  argument : Argument
deriving DecidableEq, Repr

/-- Splits off `n` bytes. -/
def splitAt? (n : Nat) (b : Bytes) : Option (Bytes × Bytes) :=
  let front := b.take n
  if front.length = n then some (front, b.drop n) else none

/-- Reads a head. -/
def readHead : Bytes → Option (Head × Bytes)
  | [] => none
  | b :: rest =>
    let major := b.toNat / 32
    let info := b.toNat % 32
    let long (width : Nat) : Option (Head × Bytes) :=
      (splitAt? width rest).map fun (raw, rest) => (⟨major, info, .given (value raw)⟩, rest)
    if info < 24 then some (⟨major, info, .given info⟩, rest)
    else if info = 24 then
      match long 1 with
      | some (⟨7, _, .given n⟩, _) => if n < 32 then none else long 1
      | r => r
    else if info = 25 then long 2
    else if info = 26 then long 4
    else if info = 27 then long 8
    else if info = 31 then
      if 2 ≤ major ∧ major ≤ 5 then some (⟨major, info, .indefinite⟩, rest) else none
    else none

/-- Reads the pieces of a string of a major type up to the break. -/
def readPieces (major : Nat) : (fuel : Nat) → Bytes → Option (List Bytes × Bytes)
  | 0, _ => none
  | fuel + 1, b =>
    match b with
    | [] => none
    | c :: rest =>
      if c = breakByte then some ([], rest)
      else
        match readHead b with
        | some (⟨m, _, .given n⟩, rest) =>
          if m = major then
            match splitAt? n rest with
            | some (raw, rest) =>
              (readPieces major fuel rest).map fun (more, rest) => (raw :: more, rest)
            | none => none
          else none
        | _ => none

mutual

/-- Reads an item at a nesting depth; `tagged` says that a tag stands right before it. -/
def readItem : (fuel depth : Nat) → (tagged : Bool) → Bytes → Option (Item × Bytes)
  | 0, _, _, _ => none
  | fuel + 1, depth, tagged, b =>
    match readHead b with
    | none => none
    | some (⟨major, info, .given n⟩, rest) =>
      match major with
      | 0 => some (.uint n, rest)
      | 1 => some (.nint n, rest)
      | 2 => (splitAt? n rest).map fun (raw, rest) => (.bytes [raw], rest)
      | 3 => (splitAt? n rest).map fun (raw, rest) => (.text [raw], rest)
      | 4 =>
        if maxDepth < depth + 1 ∨ maxCount < n then none
        else (readItems fuel (depth + 1) n rest).map fun (items, rest) => (.array items, rest)
      | 5 =>
        if maxDepth < depth + 1 ∨ maxCount < n then none
        else (readItems fuel (depth + 1) (2 * n) rest).map fun (flat, rest) => (.map flat, rest)
      | 6 =>
        let depth := if tagged then depth + 1 else depth
        if maxDepth < depth then none
        else (readItem fuel depth true rest).map fun (content, rest) => (.tag n content, rest)
      | _ =>
        if info < 25 then some (.simple n, rest)
        else
          let width := if info = 25 then 2 else if info = 26 then 4 else 8
          some (.float (bigEndian width n), rest)
    | some (⟨major, _, .indefinite⟩, rest) =>
      match major with
      | 2 => (readPieces 2 (rest.length + 1) rest).map fun (bs, rest) => (.bytes bs, rest)
      | 3 => (readPieces 3 (rest.length + 1) rest).map fun (bs, rest) => (.text bs, rest)
      | 4 =>
        if maxDepth < depth + 1 then none
        else
          match readOpen fuel (depth + 1) rest with
          | some (items, rest) =>
            if maxCount < items.length then none else some (.array items, rest)
          | none => none
      | _ =>
        if maxDepth < depth + 1 then none
        else
          match readOpen fuel (depth + 1) rest with
          | some (flat, rest) =>
            if flat.length % 2 = 1 ∨ maxCount < flat.length / 2 then none
            else some (.map flat, rest)
          | none => none

/-- Reads a number of items. -/
def readItems : (fuel depth count : Nat) → Bytes → Option (List Item × Bytes)
  | _, _, 0, b => some ([], b)
  | 0, _, _ + 1, _ => none
  | fuel + 1, depth, count + 1, b =>
    match readItem fuel depth false b with
    | none => none
    | some (item, rest) =>
      (readItems fuel depth count rest).map fun (more, rest) => (item :: more, rest)

/-- Reads items up to the break. -/
def readOpen : (fuel depth : Nat) → Bytes → Option (List Item × Bytes)
  | 0, _, _ => none
  | fuel + 1, depth, b =>
    match b with
    | [] => none
    | c :: rest =>
      if c = breakByte then some ([], rest)
      else
        match readItem fuel depth false b with
        | none => none
        | some (item, rest) =>
          (readOpen fuel depth rest).map fun (more, rest) => (item :: more, rest)

end

/-- Reads the one item that a text encodes.  Every call of the reader follows a byte that was read,
or one element that was, so twice the length is fuel enough. -/
def decode (b : Bytes) : Option Item :=
  match readItem (2 * b.length + 2) 0 false b with
  | some (item, []) => some item
  | _ => none

end Cbor

end StackTape
