import StackTape.Expansion
import StackTape.Proofs.MacroOp.Rebase

/-!
# Shifted operations

`shift` is an action of the offsets (`shift_shift`, `shift_zero`).  An operation that is shifted
keeps or breaks its contract as before; only the operation that is reported and the cell that it
uses twice move along (`fault?_shift`).  Shifting before the expansion and expanding at an offset
are the same (`expandAt_shift`).
-/

namespace StackTape

/-- The same fault of operands that were moved. -/
def OperandFault.shift (d : Int64) : OperandFault → OperandFault
  | .aliased cell => .aliased (cell + d)
  | fault => fault

/-- The same error of an operation that was moved. -/
def OperandError.shift (d : Int64) (e : OperandError) : OperandError :=
  ⟨e.op.shift d, e.fault.shift d⟩

namespace MacroOp

/-! ### The action -/

/-- Two shifts of some cells are one. -/
theorem shiftCells_shiftCells (a b : Int64) (cells : List Int64) :
    shiftCells b (shiftCells a cells) = shiftCells (a + b) cells := by
  simp [shiftCells, Int64.add_assoc]

theorem shiftCells_zero (cells : List Int64) : shiftCells 0 cells = cells := by
  simp [shiftCells]

mutual

/-- **Shifting twice** is shifting by the sum. -/
theorem shift_shift (a b : Int64) : ∀ op : MacroOp, (op.shift a).shift b = op.shift (a + b)
  | .go _ | .control _ => rfl
  | .add .. | .move .. | .unmove .. | .zero _ | .copy .. | .literal .. => by
      simp only [shift, Int64.add_assoc]
  | .isZero .. | .and .. | .or .. | .xor .. | .isEq .. => by
      simp only [shift, Int64.add_assoc, shiftCells_shiftCells]
  | .cond _ body | .loop _ body => by
      simp only [shift, Int64.add_assoc, shiftAll_shiftAll a b body]
  | .branch _ _ whenTrue whenFalse => by
      simp only [shift, Int64.add_assoc, shiftAll_shiftAll a b whenTrue,
        shiftAll_shiftAll a b whenFalse]

/-- So it is with operations in sequence. -/
theorem shiftAll_shiftAll (a b : Int64) : ∀ ops : List MacroOp,
    shiftAll b (shiftAll a ops) = shiftAll (a + b) ops
  | [] => rfl
  | op :: rest => by simp only [shiftAll, shift_shift a b op, shiftAll_shiftAll a b rest]

end

mutual

/-- **Shifting by nothing** changes nothing. -/
theorem shift_zero : ∀ op : MacroOp, op.shift 0 = op
  | .go _ | .control _ => rfl
  | .add .. | .move .. | .unmove .. | .zero _ | .copy .. | .literal .. => by
      simp only [shift, Int64.add_zero]
  | .isZero .. | .and .. | .or .. | .xor .. | .isEq .. => by
      simp only [shift, Int64.add_zero, shiftCells_zero]
  | .cond _ body | .loop _ body => by simp only [shift, Int64.add_zero, shiftAll_zero body]
  | .branch _ _ whenTrue whenFalse => by
      simp only [shift, Int64.add_zero, shiftAll_zero whenTrue, shiftAll_zero whenFalse]

/-- Nothing is shifted by nothing. -/
theorem shiftAll_zero : ∀ ops : List MacroOp, shiftAll 0 ops = ops
  | [] => rfl
  | op :: rest => by simp only [shiftAll, shift_zero op, shiftAll_zero rest]

end

/-! ### Contracts -/

section

variable (d : Int64)

/-- The first cell that is repeated stays the first. -/
theorem firstRepeat_shiftCells (seen cells : List Int64) :
    firstRepeat (shiftCells d seen) (shiftCells d cells) =
      (firstRepeat seen cells).map (· + d) := by
  induction cells generalizing seen with
  | nil => rfl
  | cons c rest ih =>
      have hmem : c + d ∈ shiftCells d seen ↔ c ∈ seen :=
        List.mem_map_of_injective fun a b h => by grind
      have hcons : shiftCells d (c :: rest) = (c + d) :: shiftCells d rest := rfl
      rw [hcons, firstRepeat, firstRepeat]
      simp only [hmem]
      split_ifs
      · rfl
      · exact ih (c :: seen)

/-- Cells that are not different are named where they are now. -/
theorem distinct_shiftCells (cells : List Int64) :
    distinct (shiftCells d cells) = (distinct cells).map (OperandFault.shift d) := by
  have h := firstRepeat_shiftCells d [] cells
  rw [distinct, distinct, show shiftCells d [] = [] from rfl] at *
  rw [h]
  cases firstRepeat [] cells <;> rfl

/-- **A shifted operation breaks its contract in the same way.** -/
theorem ownFault_shift (op : MacroOp) :
    (op.shift d).ownFault = op.ownFault.map (OperandFault.shift d) := by
  have hlen : ∀ cells, (shiftCells d cells).length = cells.length := fun _ => List.length_map _
  have hempty : ∀ cells, (shiftCells d cells).isEmpty = cells.isEmpty := by
    intro cells
    cases cells <;> rfl
  cases op with
  | go | add | zero | control | cond | loop => rfl
  | move dst src => exact distinct_shiftCells d [dst, src]
  | unmove dst src => exact distinct_shiftCells d [dst, src]
  | branch src work => exact distinct_shiftCells d [src, work]
  | copy dst src work => exact distinct_shiftCells d [dst, src, work]
  | literal text =>
      simp only [shift, ownFault]
      split_ifs <;> rfl
  | isZero dst src negated preserve =>
      simp only [shift, ownFault, hlen]
      split_ifs
      · rfl
      · exact distinct_shiftCells d (dst :: src :: preserve)
  | and dst srcs work =>
      simp only [shift, ownFault, hempty]
      split_ifs
      · rfl
      · exact distinct_shiftCells d (dst :: work :: srcs)
  | or dst srcs =>
      simp only [shift, ownFault, hempty]
      split_ifs
      · rfl
      · exact distinct_shiftCells d (dst :: srcs)
  | xor dst srcs work =>
      simp only [shift, ownFault, hlen]
      split_ifs
      · rfl
      · exact distinct_shiftCells d (dst :: work :: srcs)
  | isEq dst first second works =>
      simp only [shift, ownFault, hlen]
      split_ifs
      · rfl
      · exact distinct_shiftCells d (dst :: first :: second :: works)

/-- The error names the shifted operation. -/
theorem map_ownFault_shift (op : MacroOp) :
    (op.shift d).ownFault.map (fun fault => (⟨op.shift d, fault⟩ : OperandError)) =
      (op.ownFault.map fun fault => ⟨op, fault⟩).map (OperandError.shift d) := by
  rw [ownFault_shift]
  cases op.ownFault <;> rfl

/-- So does one about a body, or one inside it. -/
theorem bodyFault?_shift (owner : MacroOp) (body : List MacroOp) (inside : Option OperandError) :
    bodyFault? (owner.shift d) (shiftAll d body) (inside.map (OperandError.shift d)) =
      (bodyFault? owner body inside).map (OperandError.shift d) := by
  unfold bodyFault?
  rw [displacement_shiftAll]
  split_ifs <;> rfl

mutual

/-- **A shifted operation breaks its contract as before**, with the operation and the cell that
are reported moved along. -/
theorem fault?_shift : ∀ op : MacroOp, (op.shift d).fault? = op.fault?.map (OperandError.shift d)
  | .cond src body | .loop src body => by
      rw [shift, fault?, firstFault?_shiftAll body, ← shift, bodyFault?_shift, fault?]
  | .branch src work whenTrue whenFalse => by
      have hown := ownFault_shift d (.branch src work whenTrue whenFalse)
      have htrue := bodyFault?_shift d (.branch src work whenTrue whenFalse) whenTrue
        (firstFault? whenTrue)
      have hfalse := bodyFault?_shift d (.branch src work whenTrue whenFalse) whenFalse
        (firstFault? whenFalse)
      rw [shift] at *
      rw [fault?, fault?, firstFault?_shiftAll whenTrue, firstFault?_shiftAll whenFalse, hown,
        htrue, hfalse]
      cases ownFault (.branch src work whenTrue whenFalse) with
      | some fault => rfl
      | none =>
          dsimp only [Option.map_none]
          generalize bodyFault? (.branch src work whenTrue whenFalse) whenTrue _ = inner
          cases inner with
          | some e => rfl
          | none => rfl
  | .go _ | .add .. | .zero _ | .control _ => rfl
  | .move .. | .unmove .. | .copy .. | .isZero .. | .and .. | .or .. | .xor .. | .isEq ..
  | .literal .. => map_ownFault_shift d _

/-- The first fault of operations in sequence stays the first. -/
theorem firstFault?_shiftAll : ∀ ops : List MacroOp,
    firstFault? (shiftAll d ops) = (firstFault? ops).map (OperandError.shift d)
  | [] => rfl
  | op :: rest => by
      rw [shiftAll, firstFault?, fault?_shift op, firstFault?]
      cases op.fault? with
      | some e => rfl
      | none => exact firstFault?_shiftAll rest

end

end

/-! ### Expansion -/

mutual

/-- **Expanding a shifted operation** is expanding it further on. -/
theorem expandAt_shift (d e : Int64) : ∀ op : MacroOp,
    expandAt d (op.shift e) = expandAt (e + d) op
  | .go _ | .control _ => rfl
  | .add .. | .move .. | .unmove .. | .zero _ | .copy .. | .literal .. => by
      simp only [shift, expandAt, Int64.add_assoc]
  | .isZero .. | .and .. | .or .. | .xor .. | .isEq .. => by
      simp only [shift, expandAt, Int64.add_assoc, shiftCells_shiftCells]
  | .cond src body | .loop src body => by
      have hback : e + -(src + e) = -src := by grind
      simp only [shift, expandAt, Int64.add_assoc, shiftAll_shiftAll,
        expandAllAt_shiftAll _ e body, hback]
  | .branch src work whenTrue whenFalse => by
      have h₁ : e + -(src + e) = -src := by grind
      have h₂ : e + -(work + e) = -work := by grind
      have h₃ : work + e - (src + e) = work - src := by grind
      simp only [shift, expandAt, Int64.add_assoc, shiftAll_shiftAll,
        expandAllAt_shiftAll _ e whenTrue, expandAllAt_shiftAll _ e whenFalse, h₁, h₂, h₃]

/-- So it is with operations in sequence. -/
theorem expandAllAt_shiftAll (d e : Int64) : ∀ ops : List MacroOp,
    expandAllAt d (shiftAll e ops) = expandAllAt (e + d) ops
  | [] => rfl
  | op :: rest => by
      simp only [shiftAll, expandAllAt, expandAt_shift d e op, expandAllAt_shiftAll d e rest]

end

end MacroOp

end StackTape
