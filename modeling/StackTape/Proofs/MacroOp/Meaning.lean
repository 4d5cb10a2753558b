import StackTape.MacroOp.Contract
import StackTape.Proofs.MacroOp.View

/-!
# What macro-operations mean

`meaning` says what each operation does to a view, with its operands as offsets from the pointer.
It is `stuck` where an operation is reached on cells that break its precondition (a work cell that
is not zero, a toggled cell that is neither 0 nor 1).  A loop takes fuel, one unit a round; without
enough the meaning is `more`, with the view at which the fuel ran out.

`Proper` gathers what the operand contract promises, for operations that hold no control flow and
whose raw text holds no bracket.
-/

namespace StackTape

namespace MacroOp

/-! ### The cells an operation uses -/

/-- The offsets that text without brackets reads or writes. -/
def textCells : Bytes → List Int64
  | [] => []
  | c :: rest =>
    if c = 0x3E then (textCells rest).map (1 + ·)
    else if c = 0x3C then (textCells rest).map (-1 + ·)
    else if c ∈ [0x2B, 0x2D, 0x2E, 0x2C] then 0 :: textCells rest
    else textCells rest

mutual

/-- The offsets that an operation reads or writes. -/
def used : MacroOp → List Int64
  | .go _ | .control _ => []
  | .add dst _ | .zero dst => [dst]
  | .move dst src | .unmove dst src => [dst, src]
  | .copy dst src work => [dst, src, work]
  | .isZero dst src _ preserve => dst :: src :: preserve
  | .and dst srcs work | .xor dst srcs work => dst :: work :: srcs
  | .or dst srcs => dst :: srcs
  | .isEq dst first second works => dst :: first :: second :: works
  | .cond src body | .loop src body => src :: usedAll body
  | .branch src work whenTrue whenFalse => src :: work :: (usedAll whenTrue ++ usedAll whenFalse)
  | .literal text shifted => (textCells text).map (shifted + ·)

/-- The offsets that operations in sequence read or write, seen from where the first starts. -/
def usedAll : List MacroOp → List Int64
  | [] => []
  | op :: rest => op.used ++ (usedAll rest).map (op.moved + ·)

end

/-! ### Meaning -/

/-- A bracket of tape text. -/
def isBracket (c : UInt8) : Bool := c = 0x5B || c = 0x5D

mutual

/-- What an operation does to a view. -/
def meaning (eof : EofMode) (fuel : Nat) : MacroOp → View → Ending
  | .go delta, v => .done (v.go delta)
  | .add dst count, v => .done (v.plus dst (UInt8.ofInt count.toInt))
  | .move dst src, v => .done ((v.plus dst (v.get src)).put src 0)
  | .unmove dst src, v => .done ((v.plus dst (-v.get src)).put src 0)
  | .zero dst, v => .done (v.put dst 0)
  | .copy dst src work, v => if v.get work = 0 then .done (v.plus dst (v.get src)) else .stuck
  | .isZero dst src negated preserve, v => v.test dst src negated preserve
  | .and dst srcs work, v => v.conjunction dst srcs work
  | .or dst srcs, v => v.disjunction dst srcs
  | .xor dst srcs work, v => v.parity dst srcs work
  | .isEq dst first second works, v => v.compare dst first second works
  | .cond src body, v =>
    if v.get src = 0 then .done v
    else (meaningAll eof fuel body v).bind fun v => .done (v.put src 0)
  | .loop src body, v => View.repeats src (meaningAll eof fuel body) fuel v
  | .branch src work whenTrue whenFalse, v =>
    -- neither body may use the tested cell or the work cell
    if v.get work = 0 ∧ src ∉ usedAll whenTrue ++ usedAll whenFalse ∧
        work ∉ usedAll whenTrue ++ usedAll whenFalse then
      if v.get src = 0 then meaningAll eof fuel whenFalse v
      else (meaningAll eof fuel whenTrue v).bind fun v => .done (v.put src 0)
    else .stuck
  | .literal text shifted, v =>
    if text.any isBracket then .stuck
    else .done (((v.go shifted).bytes eof text).go (-shifted))
  | .control _, _ => .stuck

/-- What operations in sequence do to a view. -/
def meaningAll (eof : EofMode) (fuel : Nat) : List MacroOp → View → Ending
  | [], v => .done v
  | op :: rest, v => (meaning eof fuel op v).bind (meaningAll eof fuel rest)

end

/-! ### Proper operations -/

mutual

/-- Neither control flow nor raw text with brackets, at any depth. -/
def plain : MacroOp → Bool
  | .control _ => false
  | .literal text _ => !text.any isBracket
  | .cond _ body | .loop _ body => plainAll body
  | .branch _ _ whenTrue whenFalse => plainAll whenTrue && plainAll whenFalse
  | _ => true

/-- Every operation of a list is plain. -/
def plainAll : List MacroOp → Bool
  | [] => true
  | op :: rest => op.plain && plainAll rest

end

mutual

/-- The operands are as the contract asks, and the operation is plain, at any depth. -/
def Proper : MacroOp → Prop
  | .go _ | .add .. | .zero _ => True
  | .move dst src | .unmove dst src => dst ≠ src
  | .copy dst src work => [dst, src, work].Nodup
  | .isZero dst src _ preserve =>
    (preserve.length = 0 ∨ preserve.length = 2) ∧ (dst :: src :: preserve).Nodup
  | .and dst srcs work => srcs ≠ [] ∧ (dst :: work :: srcs).Nodup
  | .or dst srcs => srcs ≠ [] ∧ (dst :: srcs).Nodup
  | .xor dst srcs work => 2 ≤ srcs.length ∧ (dst :: work :: srcs).Nodup
  | .isEq dst first second works =>
    (works.length = 0 ∨ works.length = 2) ∧ (dst :: first :: second :: works).Nodup
  | .cond _ body | .loop _ body => displacement body = 0 ∧ ProperAll body
  | .branch src work whenTrue whenFalse =>
    src ≠ work ∧ (displacement whenTrue = 0 ∧ ProperAll whenTrue) ∧
      displacement whenFalse = 0 ∧ ProperAll whenFalse
  | .literal text _ => text.all isTapeByte ∧ text.any isBracket = false
  | .control _ => False

/-- Every operation of a list is proper. -/
def ProperAll : List MacroOp → Prop
  | [] => True
  | op :: rest => op.Proper ∧ ProperAll rest

end

/-- Where nothing is repeated, all cells are different, and none was seen before. -/
theorem firstRepeat_eq_none {seen cells : List Int64} (h : firstRepeat seen cells = none) :
    cells.Nodup ∧ ∀ c ∈ cells, c ∉ seen := by
  induction cells generalizing seen with
  | nil => simp
  | cons c rest ih =>
      rw [firstRepeat] at h
      split_ifs at h with hc
      obtain ⟨hn, hs⟩ := ih h
      have hcr : c ∉ rest := fun hm => hs c hm (by simp)
      refine ⟨List.nodup_cons.mpr ⟨hcr, hn⟩, fun d hd => ?_⟩
      rcases List.mem_cons.mp hd with rfl | hd
      · exact hc
      · exact fun hm => hs d hd (List.mem_cons_of_mem _ hm)

theorem nodup_of_distinct {cells : List Int64} (h : distinct cells = none) : cells.Nodup :=
  (firstRepeat_eq_none (Option.map_eq_none_iff.mp h)).1

/-- An operation that keeps its contract keeps it apart from its bodies. -/
theorem ownFault_eq_none {op : MacroOp} (h : op.fault? = none) : op.ownFault = none := by
  cases op with
  | branch src work whenTrue whenFalse =>
      rw [fault?] at h
      split at h
      · cases h
      · next ho => exact ho
  | cond | loop => rfl
  | _ =>
      simp only [fault?] at h
      exact Option.map_eq_none_iff.mp h

/-- A body that keeps its contract moves nothing, and so does all that is in it. -/
theorem bodyFault?_eq_none {owner : MacroOp} {body : List MacroOp} {inside : Option OperandError}
    (h : bodyFault? owner body inside = none) : displacement body = 0 ∧ inside = none := by
  unfold bodyFault? at h
  split_ifs at h with hd
  exact ⟨not_not.mp hd, h⟩

mutual

/-- A plain operation that keeps its contract is proper. -/
theorem proper_of_fault? : ∀ op : MacroOp, op.fault? = none → op.plain → op.Proper
  | .go _, _, _ | .add .., _, _ | .zero _, _, _ => trivial
  | .move dst src, h, _ | .unmove dst src, h, _ => by
      have := nodup_of_distinct (ownFault_eq_none h)
      simpa [Proper] using this
  | .copy dst src work, h, _ => nodup_of_distinct (ownFault_eq_none h)
  | .isZero dst src negated preserve, h, _ => by
      have h := ownFault_eq_none h
      rw [ownFault] at h
      split_ifs at h with hl
      exact ⟨by omega, nodup_of_distinct h⟩
  | .and dst srcs work, h, _ => by
      have h := ownFault_eq_none h
      rw [ownFault] at h
      split_ifs at h with hl
      exact ⟨by simpa using hl, nodup_of_distinct h⟩
  | .or dst srcs, h, _ => by
      have h := ownFault_eq_none h
      rw [ownFault] at h
      split_ifs at h with hl
      exact ⟨by simpa using hl, nodup_of_distinct h⟩
  | .xor dst srcs work, h, _ => by
      have h := ownFault_eq_none h
      rw [ownFault] at h
      split_ifs at h with hl
      exact ⟨by omega, nodup_of_distinct h⟩
  | .isEq dst first second works, h, _ => by
      have h := ownFault_eq_none h
      rw [ownFault] at h
      split_ifs at h with hl
      exact ⟨by omega, nodup_of_distinct h⟩
  | .cond src body, h, hp | .loop src body, h, hp => by
      rw [fault?] at h
      obtain ⟨hd, hb⟩ := bodyFault?_eq_none h
      exact ⟨hd, properAll_of_firstFault? body hb hp⟩
  | .branch src work whenTrue whenFalse, h, hp => by
      obtain ⟨hp₁, hp₂⟩ := Bool.and_eq_true_iff.mp hp
      rw [fault?] at h
      split at h
      · cases h
      · next ho =>
          split at h
          · cases h
          · next ht =>
              have hd := nodup_of_distinct ho
              obtain ⟨hd₁, hb₁⟩ := bodyFault?_eq_none ht
              obtain ⟨hd₂, hb₂⟩ := bodyFault?_eq_none h
              refine ⟨by simpa using hd, ⟨hd₁, ?_⟩, hd₂, ?_⟩
              · exact properAll_of_firstFault? whenTrue hb₁ hp₁
              · exact properAll_of_firstFault? whenFalse hb₂ hp₂
  | .literal text _, h, hp => by
      have h := ownFault_eq_none h
      rw [ownFault] at h
      split_ifs at h with ht
      exact ⟨ht, by simpa [plain] using hp⟩
  | .control _, _, hp => by simp [plain] at hp

/-- So it is with operations in sequence. -/
theorem properAll_of_firstFault? : ∀ ops : List MacroOp,
    firstFault? ops = none → plainAll ops → ProperAll ops
  | [], _, _ => trivial
  | op :: rest, h, hp => by
      obtain ⟨hp₁, hp₂⟩ := Bool.and_eq_true_iff.mp hp
      rw [firstFault?] at h
      split at h
      · cases h
      · next ho => exact ⟨proper_of_fault? op ho hp₁, properAll_of_firstFault? rest h hp₂⟩

end

/-- **Plain operations that keep their contract are proper.** -/
theorem properAll_of_validateAll {ops : List MacroOp} (h : validateAll ops = .ok ())
    (hp : plainAll ops) : ProperAll ops := by
  rw [validateAll] at h
  split at h
  · cases h
  · next hf => exact properAll_of_firstFault? ops hf hp

end MacroOp

end StackTape
