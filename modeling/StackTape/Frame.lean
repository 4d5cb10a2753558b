import StackTape.Bytecode.Instr
import StackTape.Text.Quoted

/-!
# Frames

The named slots of a function in the order they are laid out.  A slot's offset is the sum of the
sizes before it; sums are taken on signed words.
-/

namespace StackTape

/-- A named region of a frame. -/
structure Slot where
  name : Bytes
  size : Int64
deriving DecidableEq, Repr, Inhabited

/-- The slots of a function, in order. -/
structure Frame where
  slots : List Slot := []
deriving DecidableEq, Repr, Inhabited

/-- Why a slot is refused. -/
inductive SlotFault where
  | duplicate
  | invalidSize
deriving DecidableEq, Repr

/-- A refused slot. -/
structure SlotError where
  slot : Slot
  fault : SlotFault
deriving DecidableEq, Repr

/-- The message of a refused slot. -/
def SlotError.message (e : SlotError) : Bytes :=
  Bytes.ascii "slot " ++ Quoted.text e.slot.name ++ Bytes.ascii " (size " ++
    Decimal.ofWord e.slot.size ++ Bytes.ascii "): " ++
    match e.fault with
    | .duplicate => Bytes.ascii "duplicate slot"
    | .invalidSize => Bytes.ascii "invalid slot size"

namespace Frame

/-- The slot names in order. -/
def names (f : Frame) : List Bytes := f.slots.map (·.name)

/-- The slot with a name. -/
def find? (f : Frame) (name : Bytes) : Option Slot := f.slots.find? fun s => s.name = name

/-- The frame has a slot of this name. -/
def has (f : Frame) (name : Bytes) : Bool := (f.find? name).isSome

/-- The size of a slot. -/
def size? (f : Frame) (name : Bytes) : Option Int64 := (f.find? name).map (·.size)

/-- The sizes of a list of slots, summed. -/
def extent (slots : List Slot) : Int64 := slots.foldl (fun sum s => sum + s.size) 0

/-- The sum of all sizes. -/
def totalSize (f : Frame) : Int64 := extent f.slots

/-- The distance of a slot from the frame's base. -/
def offset? (f : Frame) (name : Bytes) : Option Int64 :=
  if f.has name then some (extent (f.slots.takeWhile fun s => s.name ≠ name)) else none

/-- The slots with their offsets, from a base on. -/
def placeFrom : Int64 → List Slot → List (Slot × Int64)
  | _, [] => []
  | base, s :: rest => (s, base) :: placeFrom (base + s.size) rest

/-- Every slot with its offset. -/
def placed (f : Frame) : List (Slot × Int64) := placeFrom 0 f.slots

/-- Adds a slot at the end. -/
def add (f : Frame) (name : Bytes) (size : Int64) : Except SlotError Frame :=
  if size ≤ 0 then .error ⟨⟨name, size⟩, .invalidSize⟩
  else if f.has name then .error ⟨⟨name, size⟩, .duplicate⟩
  else .ok ⟨f.slots ++ [⟨name, size⟩]⟩

/-- Adds slots one after another. -/
def addAll (f : Frame) : List Slot → Except SlotError Frame
  | [] => .ok f
  | s :: rest =>
    match f.add s.name s.size with
    | .ok g => addAll g rest
    | .error e => .error e

/-- The frame of a list of slots. -/
def ofSlots (slots : List Slot) : Except SlotError Frame := addAll {} slots

/-- Appends the slots of another frame; a shared name is refused. -/
def merge (f other : Frame) : Except SlotError Frame :=
  match other.slots.find? fun s => f.has s.name with
  | some s => .error ⟨s, .duplicate⟩
  | none => .ok ⟨f.slots ++ other.slots⟩

/-- Sets a slot's size where it stands, or adds the slot at the end. -/
def set (f : Frame) (s : Slot) : Frame :=
  if f.has s.name then ⟨f.slots.map fun t => if t.name = s.name then s else t⟩
  else ⟨f.slots ++ [s]⟩

/-- Appends the slots of another frame; for a shared name the other's size wins and the place
stays. -/
def mergeOverwrite (f other : Frame) : Frame := other.slots.foldl set f

/-- The instructions that lay the frame out. -/
def reserves (f : Frame) : List Instr := f.slots.map fun s => .reserve s.name s.size

/-- The instructions that release it, the last slot first. -/
def unreserves (f : Frame) : List Instr := f.slots.reverse.map fun s => .unreserve s.name s.size

/-- The slot an instruction lays out. -/
def slotOf? : Instr → Option Slot
  | .reserve name size => some ⟨name, size⟩
  | _ => none

/-- The frame that the reserve instructions of some code lay out. -/
def ofCode (code : List Instr) : Except SlotError Frame := ofSlots (code.filterMap slotOf?)

/-- One slot as text. -/
def slotText (s : Slot) : Bytes := s.name ++ Bytes.ascii ": " ++ Decimal.ofWord s.size

/-- The frame as text. -/
def text (f : Frame) : Bytes :=
  0x7B :: Bytes.join (Bytes.ascii ", ") (f.slots.map slotText) ++ [0x7D]

end Frame

end StackTape
