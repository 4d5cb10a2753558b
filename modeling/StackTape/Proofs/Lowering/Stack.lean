import StackTape.Proofs.Bytecode.Stack
import StackTape.Proofs.Lowering.Step
import StackTape.Proofs.MacroOp.Rebase

/-!
# Stacks on the tape

A stack of bytes stands above the slots, and the pointer one cell above its top: `View.stacked`.
Every lowered instruction, run on such a view, gives the view of the stack that the instruction
itself leaves (`Lowered.meaning`), and so do instructions in sequence (`LoweredAll.meaning`).  The
work cells above the pointer are zero before and after.
-/

namespace StackTape

namespace View

/-- A byte put under the pointer, which moves up. -/
def push (v : View) (x : UInt8) : View := (v.put 0 x).go 1

/-- A stack, top first, pushed onto a view. -/
def stacked (b : View) : List UInt8 → View
  | [] => b
  | x :: st => (b.stacked st).push x

@[simp] theorem pointer_push (v : View) (x : UInt8) : (v.push x).pointer = v.pointer + 1 := rfl

@[simp] theorem input_push (v : View) (x : UInt8) : (v.push x).input = v.input := rfl

@[simp] theorem output_push (v : View) (x : UInt8) : (v.push x).output = v.output := rfl

/-- A value pushed is written under the cursor before the cursor moves. -/
theorem push_eq (v : View) (x : UInt8) : v.push x = (v.go 1).put (-1) x := by
  rw [push, put_go, show (1 : Int64) + -1 = 0 by grind]

/-- Two values pushed, seen from the cursor above both. -/
theorem push_push_eq (v : View) (x y : UInt8) :
    (v.push x).push y = ((v.go 2).put (-2) x).put (-1) y := by
  rw [push, push, put_go, go_go, put_go, put_go, show (1 : Int64) + 0 = 1 by grind,
    show (1 : Int64) + 1 = 2 by grind, show (2 : Int64) + -2 = 0 by grind,
    show (2 : Int64) + -1 = 1 by grind]

/-- Back from a push, the value is left above the stack. -/
@[simp] theorem push_go_neg (v : View) (x : UInt8) : (v.push x).go (-1) = v.put 0 x := by
  rw [push, go_go_neg]

/-- Back from the second of two values, the first is pushed. -/
theorem push_of_go (v : View) (x : UInt8) : ((v.go 2).put (-2) x).go (-1) = v.push x := by
  rw [put_go, go_go, push, show (2 : Int64) + -2 = 0 by grind, show (2 : Int64) + -1 = 1 by grind]

/-- The cursor is as many cells above the base as there are values. -/
theorem pointer_stacked (b : View) (st : List UInt8) :
    (b.stacked st).pointer = b.pointer + Int64.ofNat st.length := by
  induction st with
  | nil => simp [stacked]
  | cons x st ih =>
      rw [stacked, pointer_push, ih, List.length_cons, Int64.ofNat_add, Int64.add_assoc]
      rfl

@[simp] theorem input_stacked (b : View) (st : List UInt8) : (b.stacked st).input = b.input := by
  induction st with
  | nil => rfl
  | cons x st ih => exact ih

@[simp] theorem output_stacked (b : View) (st : List UInt8) :
    (b.stacked st).output = b.output := by
  induction st with
  | nil => rfl
  | cons x st ih => exact ih

/-- What is read does not depend on the stack. -/
theorem with_input_stacked (b : View) (st : List UInt8) (input : Bytes) :
    { b.stacked st with input } = { b with input }.stacked st := by
  induction st with
  | nil => rfl
  | cons x st ih =>
      rw [stacked, stacked, ← ih]
      rfl

/-- What is written does not depend on the stack. -/
theorem with_output_stacked (b : View) (st : List UInt8) (output : Bytes) :
    { b.stacked st with output } = { b with output }.stacked st := by
  induction st with
  | nil => rfl
  | cons x st ih =>
      rw [stacked, stacked, ← ih]
      rfl

/-- The cells below and above a stack. -/
theorem cells_stacked_of_ne {b : View} {st : List UInt8} {a : Int64}
    (h : ∀ k < st.length, a ≠ b.pointer + Int64.ofNat k) : (b.stacked st).cells a = b.cells a := by
  induction st with
  | nil => rfl
  | cons x st ih =>
      have hx : a ≠ (b.stacked st).pointer + 0 := by
        rw [pointer_stacked, Int64.add_zero]
        exact h st.length (by simp)
      rw [← ih fun k hk => h k (by simp; omega)]
      exact Function.update_of_ne hx ..

/-- Setting a cell that the stack does not cover. -/
theorem poke_stacked {b : View} {st : List UInt8} {a : Int64}
    (h : ∀ k < st.length, a ≠ b.pointer + Int64.ofNat k) (y : UInt8) :
    (b.stacked st).poke a y = (b.poke a y).stacked st := by
  induction st with
  | nil => rfl
  | cons x st ih =>
      have hx : a ≠ (b.stacked st).pointer + 0 := by
        rw [pointer_stacked, Int64.add_zero]
        exact h st.length (by simp)
      rw [stacked, stacked, ← ih fun k hk => h k (by simp; omega), push, push,
        MacroOp.put_poke _ hx, MacroOp.go_poke]

/-- The cells of a stack, from the bottom up. -/
theorem cells_stacked {b : View} {st : List UInt8} (hl : st.length < 2 ^ 63) {k : Nat}
    (hk : k < st.length) :
    st.reverse[k]? = some ((b.stacked st).cells (b.pointer + Int64.ofNat k)) := by
  induction st with
  | nil => cases hk
  | cons x st ih =>
      rw [List.length_cons] at hl hk
      rcases Nat.lt_or_ge k st.length with h | h
      · have hne : b.pointer + Int64.ofNat k ≠ (b.stacked st).pointer + 0 := by
          rw [pointer_stacked, Int64.add_zero]
          intro he
          have := congrArg Int64.toInt (show Int64.ofNat k = Int64.ofNat st.length by grind)
          rw [Int64.toInt_ofNat_of_lt (by omega), Int64.toInt_ofNat_of_lt (by omega)] at this
          omega
        rw [List.reverse_cons, List.getElem?_append_left (by simpa using h), ih (by omega) h]
        exact congrArg some (Function.update_of_ne hne ..).symm
      · obtain rfl : k = st.length := by omega
        have ha : b.pointer + Int64.ofNat st.length = (b.stacked st).pointer + 0 := by
          rw [pointer_stacked, Int64.add_zero]
        rw [List.reverse_cons, List.getElem?_append_right (by simp), ha]
        simp [stacked, push, put, go]

end View

namespace MacroOp

/-- Operations in sequence mean what the front means, and then the back. -/
theorem meaningAll_append (eof : EofMode) (fuel : Nat) (ops more : List MacroOp) (v : View) :
    meaningAll eof fuel (ops ++ more) v =
      (meaningAll eof fuel ops v).bind (meaningAll eof fuel more) := by
  induction ops generalizing v with
  | nil => rfl
  | cons op rest ih =>
      rw [List.cons_append, meaningAll, meaningAll, Ending.bind_assoc]
      exact Ending.bind_congr ih

/-! ### Operations on the top of a stack -/

section

variable (eof : EofMode) (fuel : Nat) {w : View} {lo hi a b c : Int64} (x y : UInt8)

/-- The upper value is drained into the lower one. -/
theorem meaningAll_sum (hn : lo ≠ hi) (hh : w.get hi = 0) :
    meaningAll eof fuel [.move lo hi] ((w.put lo x).put hi y) = .done (w.put lo (x + y)) := by
  simp only [meaningAll, meaning, Ending.bind_done, Ending.done.injEq]
  refine View.ext_get rfl rfl rfl fun d => ?_
  simp only [View.get_put, View.get_plus]
  grind

/-- The upper value is drained out of the lower one. -/
theorem meaningAll_difference (hn : lo ≠ hi) (hh : w.get hi = 0) :
    meaningAll eof fuel [.unmove lo hi] ((w.put lo x).put hi y) = .done (w.put lo (x - y)) := by
  simp only [meaningAll, meaning, Ending.bind_done, Ending.done.injEq]
  refine View.ext_get rfl rfl rfl fun d => ?_
  simp only [View.get_put, View.get_plus]
  grind

/-- The value is parked in a work cell and tested back. -/
theorem meaningAll_negation (hn : lo ≠ hi) (hh : w.get hi = 0) :
    meaningAll eof fuel [.move hi lo, .isZero lo hi false []] (w.put lo x) =
      .done (w.put lo (View.bit (x = 0))) := by
  simp only [meaningAll, meaning, View.test, Ending.bind_done, Ending.done.injEq]
  refine View.ext_get rfl rfl rfl fun d => ?_
  simp only [View.get_put, View.get_plus]
  grind

/-- The lower value is parked, the upper one drained out of it, and what is left is tested. -/
theorem meaningAll_equality (hn : [lo, hi, a].Nodup) (hh : w.get hi = 0) (ha : w.get a = 0) :
    meaningAll eof fuel [.move a lo, .isEq lo a hi []] ((w.put lo x).put hi y) =
      .done (w.put lo (View.bit (x = y))) := by
  simp only [List.nodup_cons, List.mem_cons, not_or] at hn
  simp only [meaningAll, meaning, View.compare, Ending.bind_done, Ending.done.injEq]
  refine View.ext_get rfl rfl rfl fun d => ?_
  simp only [View.get_put, View.get_plus]
  grind

section

variable (hn : [lo, hi, a, b, c].Nodup) (hh : w.get hi = 0) (ha : w.get a = 0) (hb : w.get b = 0)

include hn hh ha hb

/-- Two values are parked in two work cells, so that the lower of them can be set. -/
theorem meaningAll_lift (more : List MacroOp) :
    meaningAll eof fuel (.move a lo :: .move b hi :: more) ((w.put lo x).put hi y) =
      meaningAll eof fuel more (((w.put lo 0).put a x).put b y) := by
  simp only [List.nodup_cons, List.mem_cons, not_or] at hn
  simp only [meaningAll, meaning, Ending.bind_done]
  congr 1
  refine View.ext_get rfl rfl rfl fun d => ?_
  simp only [View.get_put, View.get_plus]
  grind

variable (hc : w.get c = 0)

include hc

/-- The conjunction of two values parked in work cells. -/
theorem meaningAll_both :
    meaningAll eof fuel [.move a lo, .move b hi, .and lo [a, b] c] ((w.put lo x).put hi y) =
      .done (w.put lo (View.bit (x ≠ 0 && y ≠ 0))) := by
  rw [meaningAll_lift eof fuel x y hn hh ha hb]
  simp only [List.nodup_cons, List.mem_cons, not_or] at hn
  simp only [meaningAll, meaning, View.conjunction]
  rw [if_pos]
  · simp only [View.clear, Ending.bind_done, Ending.done.injEq]
    refine View.ext_get rfl rfl rfl fun d => ?_
    simp only [View.get_put, View.get_plus, List.all_cons, List.all_nil]
    grind
  · simp only [View.get_put]
    grind

/-- The disjunction of two values: their nonzero ones are counted and the count is tested. -/
theorem meaningAll_either :
    meaningAll eof fuel [.move a lo, .move b hi, .or c [a, b], .isZero lo c true []]
        ((w.put lo x).put hi y) =
      .done (w.put lo (View.bit (x ≠ 0 || y ≠ 0))) := by
  rw [meaningAll_lift eof fuel x y hn hh ha hb]
  simp only [List.nodup_cons, List.mem_cons, not_or] at hn
  -- the number of nonzero bytes is below 256, so its byte is zero only if it is
  have hcount : ∀ p q : Bool, UInt8.ofNat (p.toNat + q.toNat) = 0 ↔ ¬ (p || q) := by decide
  have hor : meaning eof fuel (.or c [a, b]) (((w.put lo 0).put a x).put b y) =
      .done ((w.put lo 0).put c
        (UInt8.ofNat ((decide (x ≠ 0)).toNat + (decide (y ≠ 0)).toNat))) := by
    simp only [meaning, View.disjunction, View.clear, View.nonzero, Ending.done.injEq]
    refine View.ext_get rfl rfl rfl fun d => ?_
    simp only [View.get_put, View.get_plus, List.countP_cons, List.countP_nil]
    grind
  rw [meaningAll, hor]
  simp only [meaningAll, meaning, View.test, Ending.bind_done, Ending.done.injEq]
  refine View.ext_get rfl rfl rfl fun d => ?_
  simp only [View.get_put, View.get_plus]
  grind

/-- The parity of two values parked in work cells. -/
theorem meaningAll_oneOf :
    meaningAll eof fuel [.move a lo, .move b hi, .xor lo [a, b] c] ((w.put lo x).put hi y) =
      .done (w.put lo (View.bit ((x ≠ 0) != (y ≠ 0)))) := by
  rw [meaningAll_lift eof fuel x y hn hh ha hb]
  simp only [List.nodup_cons, List.mem_cons, not_or] at hn
  simp only [meaningAll, meaning, View.parity]
  rw [if_pos]
  · simp only [View.clear, View.nonzero, Ending.bind_done, Ending.done.injEq]
    refine View.ext_get rfl rfl rfl fun d => ?_
    simp only [View.get_put, List.countP_cons, List.countP_nil]
    by_cases hx : x = 0 <;> by_cases hy : y = 0 <;> grind [View.bit]
  · simp only [View.get_put]
    grind

end

end

section

variable (eof : EofMode) (fuel : Nat) {v : View}

/-- A literal is added to a cell that is still zero. -/
theorem meaningAll_push (h : v.get 0 = 0) (x : Int64) :
    meaningAll eof fuel [.add 0 x, .go 1] v = .done (v.push (UInt8.ofInt x.toInt)) := by
  simp only [meaningAll, meaning, Ending.bind_done, View.plus, h, UInt8.zero_add, View.push]

/-- The value on top is copied by way of a work cell that is zero. -/
theorem meaningAll_dup (h₁ : v.get 1 = 0) (h₂ : v.get 2 = 0) (x : UInt8) :
    meaningAll eof fuel [.copy 0 (-1) 1, .go 1] (v.push x) = .done ((v.push x).push x) := by
  have hz : (v.push x).get 0 = 0 := by
    rw [View.push, View.get_go, View.get_put_of_ne _ (by grind)]
    rwa [show (1 : Int64) + 0 = 1 by grind]
  have hw : (v.push x).get 1 = 0 := by
    rw [View.push, View.get_go, View.get_put_of_ne _ (by grind)]
    rwa [show (1 : Int64) + 1 = 2 by grind]
  have hx : (v.push x).get (-1) = x := by rw [View.push_eq, View.get_put_self]
  rw [meaningAll, meaning, if_pos hw, hx, Ending.bind_done, View.plus, hz, UInt8.zero_add,
    meaningAll, meaning, Ending.bind_done, meaningAll, ← View.push]

/-- The value on top is replaced by whether it is zero. -/
theorem meaningAll_not (h₁ : v.get 1 = 0) (x : UInt8) :
    meaningAll eof fuel [.move 0 (-1), .isZero (-1) 0 false []] (v.push x) =
      .done (v.push (View.bit (x = 0))) := by
  have hz : (v.go 1).get 0 = 0 := by
    rwa [View.get_go, show (1 : Int64) + 0 = 1 by grind]
  rw [View.push_eq, View.push_eq]
  exact meaningAll_negation eof fuel x (by grind) hz

/-- One byte of raw text, under the cursor. -/
theorem meaning_char {c : UInt8} (hc : isBracket c = false) :
    meaning eof fuel (.literal [c] 0) v = .done (v.byte eof c) := by
  rw [meaning, if_neg (by simp [hc]), View.bytes, View.bytes, View.go_zero, Int64.neg_zero,
    View.go_zero]

/-- The value on top is written and cleared. -/
theorem meaningAll_write (h : v.get 0 = 0) (x : UInt8) :
    meaningAll eof fuel [.go (-1), .literal (Bytes.ascii ".") 0, .zero 0] (v.push x) =
      .done { v with output := v.output ++ [x] } := by
  rw [meaningAll, meaning, Ending.bind_done, View.push_go_neg, meaningAll,
    show Bytes.ascii "." = [0x2E] from rfl,
    meaning_char eof fuel (show isBracket 0x2E = false from rfl), Ending.bind_done,
    View.byte_write, meaningAll, meaning, Ending.bind_done, meaningAll, Ending.done.injEq]
  have hx : (v.put 0 x).emit = { v with output := v.output ++ [x] }.put 0 x := by
    rw [View.emit, View.get_put_self]
    rfl
  rw [hx, View.put_put]
  have hv : { v with output := v.output ++ [x] }.get 0 = 0 := h
  rw [← hv, View.put_get]

/-- The next byte of the input is pushed. -/
theorem meaningAll_read (h : v.get 0 = 0) :
    meaningAll eof fuel [.literal (Bytes.ascii ",") 0, .go 1] v =
      .done ({ v with input := (Store.next eof v.input).2 }.push (Store.next eof v.input).1) := by
  rw [meaningAll, show Bytes.ascii "," = [0x2C] from rfl,
    meaning_char eof fuel (show isBracket 0x2C = false from rfl), Ending.bind_done, View.byte_read,
    meaningAll, meaning, Ending.bind_done, meaningAll, Ending.done.injEq, View.push, View.read]
  cases hi : v.input with
  | nil =>
      have hv : { v with input := [] } = v := by rw [← hi]
      show (v.put 0 (eof.store (v.get 0))).go 1 = ({ v with input := [] }.put 0 (eof.store 0)).go 1
      rw [hv, h]
  | cons b rest => rfl

/-- The value on top is moved into a slot, whatever the slot held. -/
theorem meaningAll_pop (h : v.get 0 = 0) {off : Int64} (hn : off ≠ 0) (x : UInt8) :
    meaningAll eof fuel [.go (-1), .zero off, .move off 0] (v.push x) = .done (v.put off x) := by
  simp only [meaningAll, meaning, View.push_go_neg, Ending.bind_done, Ending.done.injEq]
  refine View.ext_get rfl rfl rfl fun d => ?_
  simp only [View.get_put, View.get_plus]
  grind

/-- An instruction on two bytes whose operations leave their result in the lower one. -/
theorem meaningAll_two (ops : List MacroOp) {v : View}
    (hz : ∀ k ≤ 4, v.get (Int64.ofNat k) = 0) {x y z : UInt8}
    (h : ∀ w : View, w.get (-1) = 0 → w.get 0 = 0 → w.get 1 = 0 → w.get 2 = 0 →
      meaningAll eof fuel ops ((w.put (-2) x).put (-1) y) = .done (w.put (-2) z)) :
    meaningAll eof fuel (ops ++ [.go (-1)]) ((v.push x).push y) = .done (v.push z) := by
  have hw : ∀ (d : Int64) (k : Nat), k ≤ 4 → 2 + d = Int64.ofNat k → (v.go 2).get d = 0 := by
    intro d k hk hd
    rw [View.get_go, hd, hz k hk]
  rw [meaningAll_append, View.push_push_eq,
    h _ (hw _ 1 (by decide) (by grind)) (hw _ 2 (by decide) (by grind))
      (hw _ 3 (by decide) (by grind)) (hw _ 4 (by decide) (by grind)),
    Ending.bind_done, meaningAll, meaning, Ending.bind_done, View.push_of_go, meaningAll]

end

end MacroOp

end StackTape
