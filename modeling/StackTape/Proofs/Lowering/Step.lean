import Mathlib
import StackTape.Lowering.Program

/-!
# One step of the lowering

`Lowered` lists what lowering an instruction of the expression stack can give: the operations, and
the state after them.  `Lowered.of_step` is the inversion; whatever is said of lowered code is said
case by case of `Lowered`.

The cursor and the watermark are words.  `Tame` says that they count cells, and `Lowered.counts`
what a step makes of the counts.
-/

namespace StackTape

/-- A sum of words that does not overflow is the sum of the integers. -/
theorem toInt_add_of_bounds {a b : Int64} (hl : -2 ^ 63 ≤ a.toInt + b.toInt)
    (hu : a.toInt + b.toInt < 2 ^ 63) : (a + b).toInt = a.toInt + b.toInt := by
  rw [Int64.toInt_add, Int.bmod_eq_of_le] <;> omega

/-- So it is with a difference. -/
theorem toInt_sub_of_bounds {a b : Int64} (hl : -2 ^ 63 ≤ a.toInt - b.toInt)
    (hu : a.toInt - b.toInt < 2 ^ 63) : (a - b).toInt = a.toInt - b.toInt := by
  rw [Int64.toInt_sub, Int.bmod_eq_of_le] <;> omega

/-- Only the least word has no opposite. -/
theorem toInt_neg_of_nonneg {a : Int64} (h : 0 ≤ a.toInt) : (-a).toInt = -a.toInt := by
  have := a.toInt_lt
  rw [Int64.toInt_neg, Int.bmod_eq_of_le] <;> omega

/-- An instruction on the expression stack: it neither lays out slots nor jumps. -/
def Instr.isEvaluation : Instr → Bool
  | .reserve .. | .unreserve .. | .label _ | .jump _ | .cond .. => false
  | _ => true

/-- An instruction that is there for the compiler only. -/
def Instr.isMark : Instr → Bool
  | .reserve .. | .unreserve .. | .label _ => true
  | _ => false

/-- How many cells from the cursor on an instruction writes to. -/
def Instr.cells : Instr → Nat
  | .push _ | .read | .not | .eq => 1
  | .dup => 2
  | .and | .or | .xor => 3
  | _ => 0

namespace Lowering

/-- The expression stack holds `n` cells. -/
def Has (s : Lowering) (n : Nat) : Prop := ¬ s.depth - s.reserved < Int64.ofNat n

/-- The cursor moved by `d`, with the cells up to `r` above it used before. -/
def work (s : Lowering) (r d : Int64) : Lowering := (s.reach (s.depth + r)).moveBy d

/-- What lowering an instruction gives. -/
inductive Lowered (s : Lowering) : Instr → List MacroOp → Lowering → Prop where
  | push {operand : Bytes} {v : Int64} (hv : literal operand = .ok v) :
      Lowered s (.push operand) [.add 0 v, .go 1] (s.work 1 1)
  | pop {name : Bytes} {p : Placed} (hp : s.slot? name = some p) (hn : s.Has 1) :
      Lowered s (.pop name)
        [.go (-1), .zero (p.depth - (s.depth + -1)), .move (p.depth - (s.depth + -1)) 0]
        (s.moveBy (-1))
  | dup (hn : s.Has 1) : Lowered s .dup [.copy 0 (-1) 1, .go 1] (s.work 2 1)
  | addc (hn : s.Has 2) : Lowered s .addc [.move (-2) (-1), .go (-1)] (s.moveBy (-1))
  | subc (hn : s.Has 2) : Lowered s .subc [.unmove (-2) (-1), .go (-1)] (s.moveBy (-1))
  | not (hn : s.Has 1) :
      Lowered s .not [.move 0 (-1), .isZero (-1) 0 false []] (s.reach (s.depth + 1))
  | and (hn : s.Has 2) :
      Lowered s .and [.move 0 (-2), .move 1 (-1), .and (-2) [0, 1] 2, .go (-1)] (s.work 3 (-1))
  | or (hn : s.Has 2) :
      Lowered s .or
        [.move 0 (-2), .move 1 (-1), .or 2 [0, 1], .isZero (-2) 2 true [], .go (-1)]
        (s.work 3 (-1))
  | xor (hn : s.Has 2) :
      Lowered s .xor [.move 0 (-2), .move 1 (-1), .xor (-2) [0, 1] 2, .go (-1)] (s.work 3 (-1))
  | eq (hn : s.Has 2) :
      Lowered s .eq [.move 0 (-2), .isEq (-2) 0 (-1) [], .go (-1)] (s.work 1 (-1))
  | write (hn : s.Has 1) :
      Lowered s .write [.go (-1), .literal (Bytes.ascii ".") 0, .zero 0] (s.moveBy (-1))
  | read : Lowered s .read [.literal (Bytes.ascii ",") 0, .go 1] (s.work 1 1)
  | mark {i : Instr} (hi : i.isMark) : Lowered s i [] s

variable {s s' : Lowering} {i : Instr} {ops : List MacroOp}

@[simp] theorem high_moveBy (s : Lowering) (d : Int64) : (s.moveBy d).high = s.high := rfl

@[simp] theorem reserved_moveBy (s : Lowering) (d : Int64) :
    (s.moveBy d).reserved = s.reserved := rfl

/-- The highest cell is noted before or after the cursor moves. -/
theorem reach_moveBy (s : Lowering) (r d : Int64) :
    (s.moveBy d).reach r = (s.reach r).moveBy d := by
  unfold reach moveBy
  split_ifs <;> rfl

/-- What is emitted keeps its contract. -/
theorem emit_eq_ok (h : emit ops s = .ok (ops', s')) :
    MacroOp.validateAll ops = .ok () ∧ ops' = ops ∧ s' = s := by
  unfold emit at h
  split at h
  · next hv =>
      cases h
      exact ⟨hv, rfl, rfl⟩
  · cases h

/-- A computation that gives a result has given one in both of its parts. -/
theorem bind_eq_ok {α β ε : Type} {x : Except ε α} {k : α → Except ε β} {r : β}
    (h : (x >>= k) = .ok r) : ∃ a, x = .ok a ∧ k a = .ok r := by
  cases x with
  | error e => cases h
  | ok a => exact ⟨a, rfl, h⟩

/-- What needs values on the stack has them. -/
theorem need_bind {α : Type} {n : Nat} {k : Unit → Except LoweringFault α} {r : α}
    (h : (s.need n >>= k) = .ok r) : s.Has n ∧ k () = .ok r := by
  unfold need at h
  split_ifs at h with hn
  · cases h
  · exact ⟨hn, h⟩

/-- Whatever is lowered keeps its contract, and is one of the cases. -/
theorem Lowered.of_step (hi : i.isEvaluation) (h : s.step i = .ok (ops, s')) :
    Lowered s i ops s' ∧ MacroOp.validateAll ops = .ok () := by
  cases i with
  | reserve | unreserve | label | jump | cond => cases hi
  | push operand =>
      obtain ⟨v, hv, h⟩ := bind_eq_ok h
      obtain ⟨ho, rfl, rfl⟩ := emit_eq_ok h
      rw [reach_moveBy]
      exact ⟨.push hv, ho⟩
  | pop name =>
      change s.pop name = _ at h
      unfold Lowering.pop at h
      split at h
      · cases h
      · next p hp =>
          obtain ⟨hn, h⟩ := need_bind h
          obtain ⟨ho, rfl, rfl⟩ := emit_eq_ok h
          exact ⟨.pop hp hn, ho⟩
  | read =>
      rw [step] at h
      obtain ⟨ho, rfl, rfl⟩ := emit_eq_ok h
      rw [reach_moveBy]
      exact ⟨.read, ho⟩
  | dup | addc | subc | not | and | or | xor | eq | write =>
      obtain ⟨hn, h⟩ := need_bind h
      obtain ⟨ho, rfl, rfl⟩ := emit_eq_ok h
      exact ⟨by constructor; exact hn, ho⟩

/-! ### Counting cells -/

/-- The words of a state count cells: slots below the cursor, the cursor below the watermark. -/
structure Tame (s : Lowering) : Prop where
  reserved : 0 ≤ s.reserved.toInt
  depth : s.reserved.toInt ≤ s.depth.toInt
  high : s.depth.toInt ≤ s.high.toInt

/-- A step that takes `pops` cells, leaves `pushes`, and writes to `cells` cells from the cursor
on. -/
structure Counts (s s' : Lowering) (pops pushes cells : Nat) : Prop where
  held : (pops : Int) ≤ s.depth.toInt - s.reserved.toInt
  depth : s'.depth.toInt = s.depth.toInt - pops + pushes
  high : s'.high.toInt = max s.high.toInt (s.depth.toInt + cells)

/-- The highest cell only rises. -/
theorem toInt_reach (s : Lowering) (d : Int64) :
    (s.reach d).high.toInt = max s.high.toInt d.toInt := by
  unfold reach
  split_ifs with h
  · exact (max_eq_right (Int64.lt_iff_toInt_lt.mp h).le).symm
  · exact (max_eq_left (not_lt.mp fun hl => h (Int64.lt_iff_toInt_lt.mpr hl))).symm

theorem high_work (s : Lowering) (r d : Int64) :
    (s.work r d).high.toInt = max s.high.toInt (s.depth + r).toInt := toInt_reach s _

/-- A move changes the cursor and the highest cell, and nothing else. -/
theorem moveBy_same (s : Lowering) (d : Int64) :
    s.moveBy d = { s with depth := (s.moveBy d).depth, high := (s.moveBy d).high } := rfl

/-- Noting a cell changes the highest cell, and nothing else. -/
theorem reach_same (s : Lowering) (d : Int64) :
    s.reach d = { s with high := (s.reach d).high } := by
  unfold reach
  split_ifs <;> rfl

/-- An instruction on the stack changes the cursor and the highest cell, and nothing else. -/
theorem work_same (s : Lowering) (r d : Int64) :
    s.work r d = { s with depth := s.depth + d, high := (s.work r d).high } := by
  unfold work
  rw [reach_same]
  rfl

theorem depth_work (s : Lowering) (r d : Int64) : (s.work r d).depth = s.depth + d := by
  rw [work_same]

/-- A step changes the cursor and the watermark only. -/
theorem Lowered.same (h : Lowered s i ops s') :
    s' = { s with depth := s'.depth, high := s'.high } := by
  cases h with
  | pop | addc | subc | write => exact moveBy_same s _
  | mark => rfl
  | not => rw [reach_same]
  | _ => rw [work_same]

section

variable (ht : s.Tame) (hh : s.high.toInt + 4 < 2 ^ 63)

include ht hh

/-- Near the cursor, depths are integers. -/
theorem Tame.toInt_add {d : Int64} (hl : -4 ≤ d.toInt) (hu : d.toInt ≤ 4) :
    (s.depth + d).toInt = s.depth.toInt + d.toInt := by
  have := ht.reserved
  have := ht.depth
  have := ht.high
  exact toInt_add_of_bounds (by omega) (by omega)

/-- The values on the stack are above the slots. -/
theorem Has.le {n : Nat} (hn : s.Has n) (hs : n < 2 ^ 62) :
    (n : Int) ≤ s.depth.toInt - s.reserved.toInt := by
  have := ht.reserved
  have := ht.depth
  have := ht.high
  unfold Has at hn
  rwa [Int64.lt_iff_toInt_lt, toInt_sub_of_bounds (by omega) (by omega),
    Int64.toInt_ofNat_of_lt (by omega), not_lt] at hn

/-- An instruction with work cells keeps the counts that its catalogue entry has. -/
theorem Counts.work {pops pushes cells : Nat}
    (hn : (pops : Int) ≤ s.depth.toInt - s.reserved.toInt) {r d : Int64} (hr : r.toInt = cells)
    (hd : d.toInt = pushes - pops) (hc : cells ≤ 3) (hp : pops ≤ 3) (hu : pushes ≤ 3) :
    Counts s (s.work r d) pops pushes cells where
  held := hn
  depth := by
    rw [depth_work, ht.toInt_add hh (by omega) (by omega), hd]
    omega
  high := by
    rw [high_work, ht.toInt_add hh (by omega) (by omega), hr]

/-- So does one without work cells. -/
theorem Counts.moveBy {pops pushes : Nat}
    (hn : (pops : Int) ≤ s.depth.toInt - s.reserved.toInt) {d : Int64}
    (hd : d.toInt = pushes - pops) (hp : pops ≤ 3) (hu : pushes ≤ 3) :
    Counts s (s.moveBy d) pops pushes 0 where
  held := hn
  depth := by
    show (s.depth + d).toInt = _
    rw [ht.toInt_add hh (by omega) (by omega), hd]
    omega
  high := by
    have := ht.high
    show s.high.toInt = _
    omega

end

/-- **What a step makes of the counts.** -/
theorem Lowered.counts (h : Lowered s i ops s') (ht : s.Tame) (hh : s.high.toInt + 4 < 2 ^ 63) :
    Counts s s' i.opcode.info.pops i.opcode.info.pushes i.cells := by
  have h₀ : (0 : Int) ≤ s.depth.toInt - s.reserved.toInt := by
    have := ht.depth
    omega
  have h₁ : s.Has 1 → (1 : Int) ≤ s.depth.toInt - s.reserved.toInt :=
    fun hn => hn.le ht hh (by decide)
  have h₂ : s.Has 2 → (2 : Int) ≤ s.depth.toInt - s.reserved.toInt :=
    fun hn => hn.le ht hh (by decide)
  cases h with
  | push | read =>
      exact show Counts s (s.work 1 1) 0 1 1 from
        .work ht hh h₀ (by decide) (by decide) (by decide) (by decide) (by decide)
  | pop _ hn | write hn =>
      exact show Counts s (s.moveBy (-1)) 1 0 0 from
        .moveBy ht hh (h₁ hn) (by decide) (by decide) (by decide)
  | addc hn | subc hn =>
      exact show Counts s (s.moveBy (-1)) 2 1 0 from
        .moveBy ht hh (h₂ hn) (by decide) (by decide) (by decide)
  | dup hn =>
      exact show Counts s (s.work 2 1) 1 2 2 from
        .work ht hh (h₁ hn) (by decide) (by decide) (by decide) (by decide) (by decide)
  | not hn =>
      have hw : s.work 1 0 = s.reach (s.depth + 1) := by
        unfold work moveBy
        rw [Int64.add_zero]
      rw [← hw]
      exact show Counts s (s.work 1 0) 1 1 1 from
        .work ht hh (h₁ hn) (by decide) (by decide) (by decide) (by decide) (by decide)
  | and hn | or hn | xor hn =>
      exact show Counts s (s.work 3 (-1)) 2 1 3 from
        .work ht hh (h₂ hn) (by decide) (by decide) (by decide) (by decide) (by decide)
  | eq hn =>
      exact show Counts s (s.work 1 (-1)) 2 1 1 from
        .work ht hh (h₂ hn) (by decide) (by decide) (by decide) (by decide) (by decide)
  | mark hi =>
      have hz : Counts s s 0 0 0 := by
        have := ht.high
        exact ⟨h₀, by simp, by omega⟩
      cases i with
      | reserve | unreserve | label => exact hz
      | _ => cases hi

/-- A step keeps the counts in order. -/
theorem Lowered.tame (h : Lowered s i ops s') (ht : s.Tame) (hh : s.high.toInt + 4 < 2 ^ 63) :
    s'.Tame := by
  obtain ⟨hn, hd, hg⟩ := h.counts ht hh
  have hr : s'.reserved = s.reserved := by rw [h.same]
  have hc : i.opcode.info.pushes ≤ i.opcode.info.pops + i.cells := by
    cases i <;> exact Nat.le_of_ble_eq_true rfl
  have := ht.reserved
  have := ht.depth
  have := ht.high
  exact ⟨by rwa [hr], by rw [hr]; omega, by omega⟩

/-- The watermark never sinks. -/
theorem Lowered.high_le (h : Lowered s i ops s') : s.high.toInt ≤ s'.high.toInt := by
  cases h with
  | pop | addc | subc | write => rw [high_moveBy]
  | mark => exact le_rfl
  | not => exact (le_max_left ..).trans (toInt_reach s _).ge
  | _ =>
      rw [high_work]
      exact le_max_left ..

/-! ### Instructions in sequence -/

/-- What lowering instructions in sequence gives; every operation keeps its contract. -/
inductive LoweredAll : Lowering → List Instr → List MacroOp → Lowering → Prop where
  | nil (s : Lowering) : LoweredAll s [] [] s
  | cons {s s₁ s' : Lowering} {i : Instr} {rest : List Instr} {ops more : List MacroOp}
      (h : Lowered s i ops s₁) (hv : MacroOp.validateAll ops = .ok ())
      (t : LoweredAll s₁ rest more s') : LoweredAll s (i :: rest) (ops ++ more) s'

/-- Instructions on the stack that are accepted one after another are lowered one after another. -/
theorem LoweredAll.of_lowerFrom {index : Nat} {body : List Instr}
    (hb : ∀ i ∈ body, i.isEvaluation) (h : s.lowerFrom index body = .ok (ops, s')) :
    LoweredAll s body ops s' := by
  induction body generalizing s index ops with
  | nil =>
      cases h
      exact .nil _
  | cons i rest ih =>
      rw [lowerFrom] at h
      split at h
      · cases h
      · next ops₁ s₁ hs =>
          split at h
          · cases h
          · next more s₂ hr =>
              cases h
              obtain ⟨hl, hv⟩ := Lowered.of_step (hb i (by simp)) hs
              exact .cons hl hv (ih (fun j hj => hb j (by simp [hj])) hr)

variable {body : List Instr}

/-- The highest cell only rises. -/
theorem LoweredAll.high_le (h : LoweredAll s body ops s') : s.high.toInt ≤ s'.high.toInt := by
  induction h with
  | nil => exact le_rfl
  | cons h _ _ ih => exact h.high_le.trans ih

/-- Depths stay far from where words wrap around. -/
theorem LoweredAll.tame (h : LoweredAll s body ops s') (ht : s.Tame)
    (hh : s'.high.toInt + 4 < 2 ^ 63) : s'.Tame := by
  induction h with
  | nil => exact ht
  | cons h _ t ih =>
      have := h.high_le
      have := t.high_le
      exact ih (h.tame ht (by omega)) hh

/-- Instructions on the stack change the cursor and the highest cell, and nothing else. -/
theorem LoweredAll.same (h : LoweredAll s body ops s') :
    s' = { s with depth := s'.depth, high := s'.high } := by
  induction h with
  | nil => rfl
  | cons h _ _ ih => rw [ih, h.same]

end Lowering

end StackTape
