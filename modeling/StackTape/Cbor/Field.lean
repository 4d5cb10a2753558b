import StackTape.Cbor.Item
import StackTape.Text.Utf8

/-!
# Typed fields

What a record makes of the items under its keys: texts, words, lists and records.  A null leaves a
field at zero; tags are passed over where their content allows it; a tagged big number stands for
its value, or for its bytes where bytes are wanted.  A record is a map whose keys are the fields'
numbers, as numbers or as texts; other keys of those kinds are ignored, and the first of several
equal keys counts.
-/

namespace StackTape

namespace Cbor

/-- A tag with a rule for its content has content that keeps it. -/
def tagAllows (number : Nat) (content : Item) : Bool :=
  match number, content with
  | 0, .text _ => true
  | 0, _ => false
  | 1, .uint _ => true
  | 1, .nint _ => true
  | 1, .float _ => true
  | 1, _ => false
  | 2, .bytes _ => true
  | 2, _ => false
  | 3, .bytes _ => true
  | 3, _ => false
  | _, _ => true

/-- A value behind its tags. -/
inductive Plain where
  | uint (n : Nat)
  | nint (n : Nat)
  /-- A big number by its bytes. -/
  | big (negative : Bool) (raw : Bytes)
  | bytes (raw : Bytes)
  | text (pieces : List Bytes)
  | array (items : List Item)
  | map (flat : List Item)
  | null
  | bool
  | float
deriving Repr, Inhabited

/-- Passes over tags; `none` if a tag does not allow its content. -/
def plain : Item → Option Plain
  | .uint n => some (.uint n)
  | .nint n => some (.nint n)
  | .bytes pieces => some (.bytes pieces.flatten)
  | .text pieces => some (.text pieces)
  | .array items => some (.array items)
  | .map flat => some (.map flat)
  | .float _ => some .float
  | .simple 20 => some .bool
  | .simple 21 => some .bool
  | .simple 22 => some .null
  | .simple 23 => some .null
  | .simple n => some (.uint n)
  | .tag number content =>
    if tagAllows number content then
      match number, content with
      | 2, .bytes pieces => some (.big false pieces.flatten)
      | 3, .bytes pieces => some (.big true pieces.flatten)
      | _, _ => plain content
    else none

/-- A value that depends on the kind of the item; `none` is a mismatch. -/
def toText (item : Item) : Option Bytes :=
  match plain item with
  | some (.text pieces) => if pieces.all Utf8.isValid then some pieces.flatten else none
  | some .null => some []
  | _ => none

/-- The number of an item. -/
def toInteger (item : Item) : Option Int :=
  match plain item with
  | some (.uint n) => some n
  | some (.nint n) => some (-1 - (n : Int))
  | some (.big false raw) => some (value raw)
  | some (.big true raw) => some (-1 - (value raw : Int))
  | some .null => some 0
  | _ => none

/-- A signed word. -/
def toWord (item : Item) : Option Int64 :=
  match toInteger item with
  | some n => if -0x8000000000000000 ≤ n ∧ n < 0x8000000000000000 then some (Int64.ofInt n) else none
  | none => none

/-- A byte. -/
def toByte (item : Item) : Option UInt8 :=
  match toInteger item with
  | some n => if 0 ≤ n ∧ n < 256 then some n.toNat.toUInt8 else none
  | none => none

/-- Exactly `n` bytes: cut, or filled with zeros behind. -/
def fit (n : Nat) (b : Bytes) : Bytes := b.take n ++ Bytes.repeated (n - b.length) 0

/-- A field of `n` bytes, from a byte string or from an array of numbers; what is beyond `n` is
not looked at. -/
def toFixed (n : Nat) (item : Item) : Option Bytes :=
  match plain item with
  | some (.bytes raw) => some (fit n raw)
  | some (.big _ raw) => some (fit n raw)
  | some (.array items) => ((items.take n).mapM toByte).map (fit n)
  | some .null => some (fit n [])
  | _ => none

/-- A list of values. -/
def toList {α : Type} (element : Item → Option α) (item : Item) : Option (List α) :=
  match plain item with
  | some (.array items) => items.mapM element
  | some .null => some []
  | _ => none

/-- A decoded map: the value under each number that a key names. -/
abbrev Fields := List (Int × Item)

/-- The number that a key names; any other key of the same kinds has none.  A number beyond the
signed words is taken modulo `2 ^ 64`. -/
def keyNumber (key : Item) : Option (Option Int) :=
  match key with
  | .uint n => some (some (Int64.ofNat n).toInt)
  | .nint n => some (some (Int64.ofInt (-1 - (n : Int))).toInt)
  | .text pieces =>
    if pieces.all Utf8.isValid then
      match pieces.flatten with
      | [d] => some (if 0x30 ≤ d ∧ d ≤ 0x39 then some (d.toNat - 0x30 : Nat) else none)
      | _ => some none
    else none
  | _ => none

/-- The fields of a map's keys and values. -/
def fields : List Item → Option Fields
  | key :: value :: rest =>
    match keyNumber key with
    | none => none
    | some number =>
      (fields rest).map fun more =>
        match number with
        | some n => (n, value) :: more
        | none => more
  | _ => some []

/-- The field of a number, read by `read`; a missing one is zero. -/
def field {α : Type} (fs : Fields) (number : Int) (zero : α) (read : Item → Option α) : Option α :=
  match fs.lookup number with
  | some item => read item
  | none => some zero

/-- A record, whose fields are all zero for a null. -/
def toRecord {α : Type} (read : Fields → Option α) (item : Item) : Option α :=
  match plain item with
  | some (.map flat) => (fields flat).bind read
  | some .null => read []
  | _ => none

end Cbor

end StackTape
