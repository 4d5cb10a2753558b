import Mathlib
import StackTape.Machine.Basic

/-!
# The view of a macro-operation

`View` is what a macro-operation sees of a machine: cells addressed by words, the pointer, the
input to come and the output written.  Every operation on a view names its cells by offsets from
the pointer, so moving the pointer is a change of coordinates: `get_go`, `put_go` and `go_go` bring
the move to the outside.

`Ending` is how a description of an operation ends: it is done, its fuel ran out, or a
precondition does not hold.
-/

namespace StackTape

/-- Cells, pointer, input and output, as a macro-operation sees them. -/
@[ext]
structure View where
  cells : Int64 → UInt8
  pointer : Int64
  input : Bytes
  output : Bytes

/-- How a meaning ends. -/
inductive Ending where
  | done (v : View)
  /-- The fuel ran out. -/
  | more (v : View)
  /-- A precondition does not hold. -/
  | stuck

namespace Ending

/-- Goes on where the first part is done. -/
def bind : Ending → (View → Ending) → Ending
  | .done v, k => k v
  | .more v, _ => .more v
  | .stuck, _ => .stuck

/-- The same outcome seen through a change of view. -/
def map (f : View → View) : Ending → Ending
  | .done v => .done (f v)
  | .more v => .more (f v)
  | .stuck => .stuck

@[simp] theorem bind_done (v : View) (k : View → Ending) : (done v).bind k = k v := rfl

/-- What is out of fuel does not go on. -/
@[simp] theorem bind_more (v : View) (k : View → Ending) : (more v).bind k = more v := rfl

/-- What is stuck does not go on. -/
@[simp] theorem bind_stuck (k : View → Ending) : stuck.bind k = stuck := rfl

@[simp] theorem map_done (f : View → View) (v : View) : (done v).map f = done (f v) := rfl

@[simp] theorem map_more (f : View → View) (v : View) : (more v).map f = more (f v) := rfl

/-- Stuck is stuck in every view. -/
@[simp] theorem map_stuck (f : View → View) : stuck.map f = stuck := rfl

/-- Parts in sequence may be grouped either way. -/
theorem bind_assoc (x : Ending) (f g : View → Ending) :
    (x.bind f).bind g = x.bind fun v => (f v).bind g := by
  cases x <;> rfl

/-- To go on with nothing changes nothing. -/
theorem bind_pure (x : Ending) : x.bind done = x := by
  cases x <;> rfl

/-- Parts that go on alike end alike. -/
theorem bind_congr {x : Ending} {f g : View → Ending} (h : ∀ v, f v = g v) :
    x.bind f = x.bind g := by
  cases x with
  | done v => exact h v
  | more v => rfl
  | stuck => rfl

/-- A change of view is carried through what comes after, if that commutes with it. -/
theorem bind_map {x : Ending} {f : View → View} {k k' : View → Ending}
    (h : ∀ v, k' (f v) = (k v).map f) : (x.map f).bind k' = (x.bind k).map f := by
  cases x with
  | done v => exact h v
  | more v => rfl
  | stuck => rfl

/-- Two changes of view are one. -/
theorem map_map (x : Ending) (f g : View → View) : (x.map f).map g = x.map fun v => g (f v) := by
  cases x <;> rfl

end Ending

namespace View

/-- The cell at an offset. -/
def get (v : View) (d : Int64) : UInt8 := v.cells (v.pointer + d)

/-- Sets the cell at an offset. -/
def put (v : View) (d : Int64) (x : UInt8) : View :=
  { v with cells := Function.update v.cells (v.pointer + d) x }

/-- Sets the cell at an address. -/
def poke (v : View) (a : Int64) (x : UInt8) : View :=
  { v with cells := Function.update v.cells a x }

/-- Moves the pointer. -/
def go (v : View) (d : Int64) : View := { v with pointer := v.pointer + d }

/-- Adds to the cell at an offset. -/
def plus (v : View) (d : Int64) (x : UInt8) : View := v.put d (v.get d + x)

/-- Writes the cell under the pointer. -/
def emit (v : View) : View := { v with output := v.output ++ [v.get 0] }

/-- Reads into the cell under the pointer. -/
def read (eof : EofMode) (v : View) : View :=
  match v.input with
  | [] => v.put 0 (eof.store (v.get 0))
  | b :: rest => { v with input := rest }.put 0 b

/-- Clears the cells at some offsets. -/
def clear (v : View) : List Int64 → View
  | [] => v
  | d :: rest => (v.put d 0).clear rest

/-- How many cells of a list are not zero. -/
def nonzero (v : View) (cells : List Int64) : Nat := cells.countP fun d => v.get d ≠ 0

/-- 1 or 0. -/
def bit (b : Bool) : UInt8 := if b then 1 else 0

/-! ### Coordinates -/

/-- A cell that is written has what was written. -/
@[simp] theorem get_put_self (v : View) (d : Int64) (x : UInt8) : (v.put d x).get d = x := by
  simp [get, put]

/-- A cell that is written leaves the others as they are. -/
theorem get_put_of_ne (v : View) {d e : Int64} (h : e ≠ d) (x : UInt8) :
    (v.put d x).get e = v.get e := by
  have : v.pointer + e ≠ v.pointer + d := by grind
  simp [get, put, Function.update_of_ne this]

/-- A cell that gets its own value stays as it is. -/
@[simp] theorem put_get (v : View) (d : Int64) : v.put d (v.get d) = v := by
  simp [get, put]

/-- The last write to a cell counts. -/
@[simp] theorem put_put (v : View) (d : Int64) (x y : UInt8) : (v.put d x).put d y = v.put d y := by
  simp [put]

/-- Writes to different cells may change places. -/
theorem put_comm (v : View) {d e : Int64} (h : d ≠ e) (x y : UInt8) :
    (v.put d x).put e y = (v.put e y).put d x := by
  have : v.pointer + d ≠ v.pointer + e := by grind
  simp [put, Function.update_comm this]

@[simp] theorem pointer_put (v : View) (d : Int64) (x : UInt8) : (v.put d x).pointer = v.pointer :=
  rfl

@[simp] theorem pointer_go (v : View) (d : Int64) : (v.go d).pointer = v.pointer + d := rfl

/-- After a move, cells count from where the pointer is now. -/
theorem get_go (v : View) (k d : Int64) : (v.go k).get d = v.get (k + d) := by
  simp [get, go, Int64.add_assoc]

/-- A write after a move is one farther away, before it. -/
theorem put_go (v : View) (k d : Int64) (x : UInt8) :
    (v.go k).put d x = (v.put (k + d) x).go k := by
  simp [put, go, Int64.add_assoc]

/-- Two moves are one move by the sum, which may wrap around. -/
theorem go_go (v : View) (a b : Int64) : (v.go a).go b = v.go (a + b) := by
  simp [go, Int64.add_assoc]

@[simp] theorem go_zero (v : View) : v.go 0 = v := by
  simp [go]

/-- There and back again. -/
@[simp] theorem go_go_neg (v : View) (d : Int64) : (v.go d).go (-d) = v := by
  have : d + -d = 0 := by grind
  rw [go_go, this, go_zero]

@[simp] theorem go_neg_go (v : View) (d : Int64) : (v.go (-d)).go d = v := by
  have : -d + d = 0 := by grind
  rw [go_go, this, go_zero]

/-- A count after a move is one farther away, before it. -/
theorem plus_go (v : View) (k d : Int64) (x : UInt8) :
    (v.go k).plus d x = (v.plus (k + d) x).go k := by
  rw [plus, put_go, get_go, plus]

/-- A count of zero changes nothing. -/
@[simp] theorem plus_zero (v : View) (d : Int64) : v.plus d 0 = v := by
  simp [plus]

/-- Counts on one cell add up as bytes. -/
@[simp] theorem plus_plus (v : View) (d : Int64) (x y : UInt8) :
    (v.plus d x).plus d y = v.plus d (x + y) := by
  simp [plus, UInt8.add_assoc]

/-- A cell that is counted has its value and the count. -/
@[simp] theorem get_plus_self (v : View) (d : Int64) (x : UInt8) :
    (v.plus d x).get d = v.get d + x := by
  simp [plus]

/-- A cell that is counted leaves the others as they are. -/
theorem get_plus_of_ne (v : View) {d e : Int64} (h : e ≠ d) (x : UInt8) :
    (v.plus d x).get e = v.get e :=
  v.get_put_of_ne h _

/-! ### Equal views -/

/-- Views are equal if they have the same pointer and devices and show the same cells from it. -/
theorem ext_get {v w : View} (hp : v.pointer = w.pointer) (hi : v.input = w.input)
    (ho : v.output = w.output) (h : ∀ d, v.get d = w.get d) : v = w := by
  refine View.ext (funext fun a => ?_) hp hi ho
  have := h (a - v.pointer)
  simp only [get, ← hp] at this
  rwa [show v.pointer + (a - v.pointer) = a by grind] at this

/-- Any cell after a write, for offsets that may be equal. -/
theorem get_put (v : View) (d e : Int64) (x : UInt8) :
    (v.put d x).get e = if e = d then x else v.get e := by
  split_ifs with h
  · rw [h, get_put_self]
  · exact v.get_put_of_ne h x

/-- Any cell after a count, for offsets that may be equal. -/
theorem get_plus (v : View) (d e : Int64) (x : UInt8) :
    (v.plus d x).get e = if e = d then v.get e + x else v.get e := by
  rw [plus, get_put]
  split_ifs with h
  · rw [h]
  · rfl

/-- Any cell after a clearing. -/
theorem get_clear (v : View) (ds : List Int64) (e : Int64) :
    (v.clear ds).get e = if e ∈ ds then 0 else v.get e := by
  induction ds generalizing v with
  | nil => simp [clear]
  | cons d rest ih =>
      rw [clear, ih, get_put]
      by_cases hr : e ∈ rest <;> by_cases hd : e = d <;> simp [hr, hd]

@[simp] theorem pointer_plus (v : View) (d : Int64) (x : UInt8) :
    (v.plus d x).pointer = v.pointer := rfl

@[simp] theorem input_put (v : View) (d : Int64) (x : UInt8) : (v.put d x).input = v.input := rfl

@[simp] theorem output_put (v : View) (d : Int64) (x : UInt8) : (v.put d x).output = v.output :=
  rfl

@[simp] theorem input_plus (v : View) (d : Int64) (x : UInt8) : (v.plus d x).input = v.input := rfl

@[simp] theorem output_plus (v : View) (d : Int64) (x : UInt8) :
    (v.plus d x).output = v.output := rfl

/-- Clearing moves nothing. -/
@[simp] theorem pointer_clear (v : View) (ds : List Int64) :
    (v.clear ds).pointer = v.pointer := by
  induction ds generalizing v with
  | nil => rfl
  | cons d rest ih => rw [clear, ih, pointer_put]

/-- Clearing reads nothing. -/
@[simp] theorem input_clear (v : View) (ds : List Int64) : (v.clear ds).input = v.input := by
  induction ds generalizing v with
  | nil => rfl
  | cons d rest ih => rw [clear, ih, input_put]

/-- Clearing writes nothing. -/
@[simp] theorem output_clear (v : View) (ds : List Int64) : (v.clear ds).output = v.output := by
  induction ds generalizing v with
  | nil => rfl
  | cons d rest ih => rw [clear, ih, output_put]

/-! ### Raw text -/

/-- One byte of text without brackets. -/
def byte (eof : EofMode) (c : UInt8) (v : View) : View :=
  if c = 0x3E then v.go 1
  else if c = 0x3C then v.go (-1)
  else if c = 0x2B then v.plus 0 1
  else if c = 0x2D then v.plus 0 (-1)
  else if c = 0x2E then v.emit
  else if c = 0x2C then v.read eof
  else v

/-- Text without brackets. -/
def bytes (eof : EofMode) : Bytes → View → View
  | [], v => v
  | c :: rest, v => bytes eof rest (byte eof c v)

section

variable (eof : EofMode) (v : View)

/-- The instructions, each by what it does; whatever is no instruction does nothing. -/
@[simp] theorem byte_right : v.byte eof 0x3E = v.go 1 := by simp [byte]

@[simp] theorem byte_left : v.byte eof 0x3C = v.go (-1) := by simp [byte]

@[simp] theorem byte_up : v.byte eof 0x2B = v.plus 0 1 := by simp [byte]

@[simp] theorem byte_down : v.byte eof 0x2D = v.plus 0 (-1) := by simp [byte]

@[simp] theorem byte_write : v.byte eof 0x2E = v.emit := by simp [byte]

@[simp] theorem byte_read : v.byte eof 0x2C = v.read eof := by simp [byte]

/-- White space, brackets and anything else apart from the six instructions. -/
theorem byte_other {c : UInt8} (h : c ∉ [0x3E, 0x3C, 0x2B, 0x2D, 0x2E, 0x2C]) :
    v.byte eof c = v := by
  simp only [List.mem_cons, List.not_mem_nil, or_false, not_or] at h
  obtain ⟨h₁, h₂, h₃, h₄, h₅, h₆⟩ := h
  simp [byte, h₁, h₂, h₃, h₄, h₅, h₆]

end

/-! ### Tests -/

/-- Adds 1 to `dst` if `src` is zero, or nonzero if `negated`; `src` is drained unless two zero
cells preserve it. -/
def test (dst src : Int64) (negated : Bool) (preserve : List Int64) (v : View) : Ending :=
  let hit := bit ((v.get src = 0) != negated)
  match preserve with
  | [] => .done ((v.put src 0).plus dst hit)
  | [spare, work] => if v.get spare = 0 ∧ v.get work = 0 then .done (v.plus dst hit) else .stuck
  | _ => .stuck

/-- Adds 1 to `dst` if every source is nonzero, and drains the sources.  The sources are counted in
`work`, a byte, which is zero before and after. -/
def conjunction (dst : Int64) (srcs : List Int64) (work : Int64) (v : View) : Ending :=
  if v.get work = 0 ∧ srcs.length ≤ 255 then
    .done ((v.clear srcs).plus dst (bit (srcs.all fun d => v.get d ≠ 0)))
  else .stuck

/-- Adds 1 to `dst` for every nonzero source, and drains the sources. -/
def disjunction (dst : Int64) (srcs : List Int64) (v : View) : Ending :=
  .done ((v.clear srcs).plus dst (UInt8.ofNat (v.nonzero srcs)))

/-- Toggles `dst`, which is 0 or 1, for every nonzero source, and drains the sources. -/
def parity (dst : Int64) (srcs : List Int64) (work : Int64) (v : View) : Ending :=
  if v.get work = 0 ∧ (v.get dst = 0 ∨ v.get dst = 1) then
    .done ((v.clear srcs).put dst
      (if v.nonzero srcs % 2 = 0 then v.get dst else 1 - v.get dst))
  else .stuck

/-- Adds 1 to `dst` if two cells are equal; they are drained unless two zero cells preserve
them. -/
def compare (dst first second : Int64) (works : List Int64) (v : View) : Ending :=
  let hit := bit (v.get first = v.get second)
  match works with
  | [] => .done (((v.put first 0).put second 0).plus dst hit)
  | [spare, work] => if v.get spare = 0 ∧ v.get work = 0 then .done (v.plus dst hit) else .stuck
  | _ => .stuck

/-- Repeats a body while the cell `src` is nonzero, for fewer than `n` rounds. -/
def repeats (src : Int64) (body : View → Ending) : Nat → View → Ending
  | 0, v => .more v
  | n + 1, v => if v.get src = 0 then .done v else (body v).bind (repeats src body n)

end View

end StackTape
