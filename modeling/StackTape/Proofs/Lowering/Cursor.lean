import StackTape.Proofs.Lowering.Offsets

/-!
# The cursor

The cursor of straight-line code is counted in four ways: by lowering itself, by the moves of the
operations, by the sizes of the slots that are laid out, and by the table of opcodes.

`Standing` says that the counts agree after some code, and every instruction keeps it
(`Laid.standing`).  `Refused` lists the faults that the cursor decides on; a stack underflow is met
just where the height that the table gives is too small.  `lower_cursor` puts this together for
every prefix of the code.
-/

namespace StackTape

namespace Instr

/-- The height of the expression stack after code: the cells that its instructions push, less those
that they pop. -/
def height (code : List Instr) : Int :=
  (code.map fun i => (i.opcode.info.pushes : Int) - i.opcode.info.pops).sum

/-- The slots that are laid out after an instruction. -/
def holds (slots : List Slot) : Instr → List Slot
  | .reserve name size => slots ++ [⟨name, size⟩]
  | .unreserve name _ => slots.filter fun t => t.name ≠ name
  | _ => slots

/-- The slots that are laid out after code, in the order they came. -/
def held (code : List Instr) : List Slot := code.foldl holds []

/-- One more instruction changes the height by what it pushes and pops. -/
theorem height_concat (front : List Instr) (i : Instr) :
    height (front ++ [i]) = height front + (i.opcode.info.pushes - i.opcode.info.pops) := by
  simp [height]

/-- It changes the slots that are held if it lays one out or releases it. -/
theorem held_concat (front : List Instr) (i : Instr) :
    held (front ++ [i]) = holds (held front) i := by
  rw [held, List.foldl_append]
  rfl

theorem pops_le (i : Instr) : i.opcode.info.pops ≤ 2 := by
  cases i <;> exact Nat.le_of_ble_eq_true rfl

end Instr

/-- A fault that the cursor decides on. -/
def LoweringFault.ofCursor : LoweringFault → Bool
  | .underflow .. | .negativeDepth => true
  | _ => false

namespace Lowering

open MacroOp

variable {s s' : Lowering} {i : Instr} {ops : List MacroOp} {all all' : List Slot}
  {front code : List Instr} {frame : Option Frame} {index : Nat}

/-! ### One instruction -/

/-- The slots of the lowering are the ones that the code holds. -/
theorem Laid.held (h : Laid s i ops s') :
    s'.slots.map Placed.slot = Instr.holds (s.slots.map Placed.slot) i := by
  cases h with
  | eval hi h =>
      rw [h.same]
      cases i with
      | reserve | unreserve => cases hi
      | _ => rfl
  | reserve =>
      rw [slots_withSlot, List.map_append]
      rfl
  | unreserve =>
      rw [Instr.holds, List.filter_map]
      rfl
  | control hi =>
      cases i with
      | reserve | unreserve => cases hi
      | _ => rfl

@[simp] theorem depth_moveBy (s : Lowering) (d : Int64) : (s.moveBy d).depth = s.depth + d := rfl

/-- The operations of an instruction move the pointer as far as the cursor. -/
theorem Lowered.displacement (h : Lowered s i ops s') :
    s'.depth = s.depth + MacroOp.displacement ops := by
  cases h with
  | push | dup | and | or | xor | eq => simp [depth_work, MacroOp.displacement, moved]
  | read => rw [depth_work]; rfl
  | write => rfl
  | pop | addc | subc => simp [MacroOp.displacement, moved]
  | not => rw [reach_same]; simp [MacroOp.displacement, moved]
  | mark => simp [MacroOp.displacement]

/-- **The cursor moves as far as the operations do.** -/
theorem Laid.displacement (h : Laid s i ops s') :
    s'.depth = s.depth + MacroOp.displacement ops := by
  cases h with
  | eval _ h => exact h.displacement
  | reserve => simp [MacroOp.displacement, moved]
  | unreserve =>
      rw [withoutSlot]
      simp [MacroOp.displacement, moved, Int64.sub_eq_add_neg]
  | control => simp [MacroOp.displacement, moved]

theorem Tidy.among (ht : Tidy all s) (h : ∀ p ∈ s.slots, p.slot ∈ all') : Tidy all' s :=
  { ht with known := h }

/-! ### The counts after code -/

/-- After some code: the slots that are laid out are those that it left, and the cursor stands above
them and the expression stack. -/
structure Standing (front : List Instr) (s : Lowering) : Prop where
  tidy : Tidy (s.slots.map Placed.slot) s
  held : s.slots.map Placed.slot = Instr.held front
  height : s.depth.toInt - s.reserved.toInt = Instr.height front
  small : Instr.height front ≤ front.length
  high : s.high.toInt ≤ 2 ^ 62 + front.length + 3

/-- At the start there is nothing. -/
theorem standing_start (frame : Option Frame) : Standing [] (start frame) :=
  ⟨tidy_start frame, rfl, rfl, le_rfl, by simp [start]⟩

/-- The cells of the slots are those that are held. -/
theorem Standing.reserved (h : Standing front s) :
    s.reserved.toInt = Frame.cells (Instr.held front) := by
  rw [h.tidy.reserved, h.held]

/-- The stack is never below the slots. -/
theorem Standing.height_nonneg (h : Standing front s) : 0 ≤ Instr.height front := by
  have := h.tidy.tame.depth
  have := h.height
  omega

/-- An instruction lays out at most one slot beside those that are laid out. -/
theorem Standing.spacious (h : Standing front s) (hl : Laid s i ops s')
    (hlen : front.length < 2 ^ 60) (hc : Frame.cells (Instr.held front) < 2 ^ 62)
    (hc' : Frame.cells (Instr.held (front ++ [i])) < 2 ^ 62) :
    Spacious (s.slots.map Placed.slot ++ (Frame.slotOf? i).toList) s := by
  have := h.height
  have := h.small
  have := h.high
  refine ⟨fun t ht => ?_, ?_, by omega, by omega⟩
  · rcases List.mem_append.mp ht with ht | ht
    · obtain ⟨p, hp, rfl⟩ := List.mem_map.mp ht
      exact h.tidy.positive p hp
    · exact (hl.available (Option.mem_toList.mp ht)).1
  · -- the slot that comes is one of those that are held then
    rw [h.held]
    cases i with
    | reserve => rwa [Instr.held_concat] at hc'
    | _ => rwa [← List.append_nil (Instr.held front)] at hc

/-- **Every instruction keeps the counts.** -/
theorem Laid.standing (hl : Laid s i ops s') (hi : ¬ i.opcode.isControl) (h : Standing front s)
    (hlen : front.length < 2 ^ 60) (hc : Frame.cells (Instr.held front) < 2 ^ 62)
    (hc' : Frame.cells (Instr.held (front ++ [i])) < 2 ^ 62) : Standing (front ++ [i]) s' := by
  -- what may be laid out changes with every instruction: the slots at hand, and the one that comes
  have hr := h.spacious hl hlen hc hc'
  have ha : ∀ t, Frame.slotOf? i = some t →
      t ∈ s.slots.map Placed.slot ++ (Frame.slotOf? i).toList := fun t ht => by simp [ht]
  have ht : Tidy (s.slots.map Placed.slot ++ (Frame.slotOf? i).toList) s :=
    h.tidy.among fun p hp => List.mem_append_left _ (List.mem_map_of_mem hp)
  have htidy : Tidy (s'.slots.map Placed.slot) s' :=
    (hl.tidy ht hr ha).among fun p hp => List.mem_map_of_mem hp
  have hheld : s'.slots.map Placed.slot = Instr.held (front ++ [i]) := by
    rw [hl.held, h.held, Instr.held_concat]
  have hheight := hl.height hi ht hr ha
  have hhigh := hl.high_le_max ht hr
  have hre := htidy.reserved
  rw [hheld] at hre
  have := h.reserved
  have := h.height
  have := h.small
  have := h.high
  have := i.pushes_le
  refine ⟨htidy, hheld, ?_, ?_, ?_⟩
  · rw [Instr.height_concat]
    omega
  · rw [Instr.height_concat, List.length_append, List.length_singleton]
    omega
  · rw [List.length_append, List.length_singleton]
    omega

/-! ### Refused instructions -/

/-- Why lowering refuses an instruction. -/
inductive Refused (s : Lowering) : Instr → LoweringFault → Prop where
  | underflow {i : Instr} (hp : ∀ name, i = .pop name → (s.slot? name).isSome)
      (hn : ¬ s.Has i.opcode.info.pops) :
      Refused s i (.underflow i.opcode.info.pops (s.depth - s.reserved))
  | negative {p : Placed} (hp : s.slot? p.name = some p) (hd : s.depth - p.size < 0) :
      Refused s (.unreserve p.name p.size) .negativeDepth
  | other {i : Instr} {fault : LoweringFault} (hf : fault.ofCursor = false) : Refused s i fault

variable {fault : LoweringFault}

/-- A computation fails in one of its parts. -/
theorem bind_eq_error {α β ε : Type} {x : Except ε α} {k : α → Except ε β} {e : ε}
    (h : (x >>= k) = .error e) : x = .error e ∨ ∃ a, x = .ok a ∧ k a = .error e := by
  cases x with
  | error e' =>
      cases h
      exact .inl rfl
  | ok a => exact .inr ⟨a, rfl, h⟩

/-- A contract that is broken is no fault of the cursor, and the same holds of the other checks. -/
theorem ofCursor_emit (h : emit ops s = .error fault) : fault.ofCursor = false := by
  unfold emit at h
  split at h
  · cases h
  · cases h
    rfl

theorem ofCursor_literal {operand : Bytes} (h : literal operand = .error fault) :
    fault.ofCursor = false := by
  unfold literal at h
  split at h
  · cases h
    rfl
  · split at h
    · cases h
      rfl
    · split_ifs at h
      cases h
      rfl

theorem ofCursor_checkFrame {name : Bytes} {size : Int64}
    (h : s.checkFrame name size = .error fault) : fault.ofCursor = false := by
  unfold checkFrame at h
  split at h
  · cases h
  · split at h
    · cases h
      rfl
    · split_ifs at h
      cases h
      rfl

/-- What needs more values than there are says how many there are. -/
theorem need_eq_error {n : Nat} (h : s.need n = .error fault) :
    ¬ s.Has n ∧ fault = .underflow n (s.depth - s.reserved) := by
  unfold need at h
  split_ifs at h with hn
  cases h
  exact ⟨not_not.mpr hn, rfl⟩

theorem need_bind_of_not_has {α : Type} {n : Nat} {k : Unit → Except LoweringFault α}
    (h : ¬ s.Has n) : (s.need n >>= k) = .error (.underflow n (s.depth - s.reserved)) := by
  rw [need, if_pos (not_not.mp h)]
  rfl

theorem ofCursor_reserve {name : Bytes} {size : Int64} (h : s.reserve name size = .error fault) :
    fault.ofCursor = false := by
  unfold Lowering.reserve at h
  rcases bind_eq_error h with h | ⟨_, _, h⟩
  · exact ofCursor_checkFrame h
  · split at h
    · cases h
    dsimp only at h
    split at h
    · cases h
      rfl
    · split at h
      · cases h
        rfl
      · exact ofCursor_emit h

/-- Releasing is refused on the cursor's account only where the cursor would go below zero. -/
theorem Refused.of_unreserve {name : Bytes} {size : Int64}
    (h : s.unreserve name size = .error fault) : Refused s (.unreserve name size) fault := by
  unfold Lowering.unreserve at h
  rcases bind_eq_error h with h | ⟨_, _, h⟩
  · exact .other (ofCursor_checkFrame h)
  · split at h
    · cases h
    split at h
    · cases h
      exact .other rfl
    · next p hp =>
        dsimp only at h
        split at h
        · cases h
          exact .other rfl
        · next hn =>
            split at h
            · next hd =>
                cases h
                obtain rfl : p.size = size := not_not.mp hn
                obtain ⟨-, rfl⟩ := mem_of_slot? hp
                exact .negative hp hd
            · exact .other (ofCursor_emit h)

/-- Whatever is refused is one of the cases. -/
theorem Refused.of_step (h : s.step i = .error fault) : Refused s i fault := by
  cases i with
  | reserve => exact .other (ofCursor_reserve h)
  | unreserve => exact .of_unreserve h
  | push operand =>
      rcases bind_eq_error h with h | ⟨_, _, h⟩
      · exact .other (ofCursor_literal h)
      · exact .other (ofCursor_emit h)
  | pop name =>
      change s.pop name = _ at h
      unfold Lowering.pop at h
      split at h
      · cases h
        exact .other rfl
      · next p hp =>
          rcases bind_eq_error h with h | ⟨_, _, h⟩
          · obtain ⟨hn, rfl⟩ := need_eq_error h
            refine .underflow (i := .pop name) ?_ hn
            rintro _ ⟨⟩
            exact Option.isSome_iff_exists.mpr ⟨p, hp⟩
          · exact .other (ofCursor_emit h)
  | read | label | jump | cond =>
      rw [step] at h
      exact .other (ofCursor_emit h)
  | dup | addc | subc | not | and | or | xor | eq | write =>
      rcases bind_eq_error h with h | ⟨_, _, h⟩
      · obtain ⟨hn, rfl⟩ := need_eq_error h
        refine .underflow ?_ hn
        rintro _ ⟨⟩
      · exact .other (ofCursor_emit h)

/-- An instruction that pops more than there is underflows; `pop` looks for its slot first. -/
theorem step_of_not_has (h₀ : s.Has 0) (hi : ¬ i.opcode.isControl)
    (hp : ∀ name, i = .pop name → (s.slot? name).isSome) (hn : ¬ s.Has i.opcode.info.pops) :
    s.step i = .error (.underflow i.opcode.info.pops (s.depth - s.reserved)) := by
  cases i with
  | reserve | unreserve | push | read => exact absurd h₀ hn
  | label | jump | cond => exact absurd rfl hi
  | pop name =>
      obtain ⟨p, hslot⟩ := Option.isSome_iff_exists.mp (hp name rfl)
      show s.pop name = _
      unfold Lowering.pop
      rw [hslot]
      exact need_bind_of_not_has hn
  | dup | addc | subc | not | and | or | xor | eq | write =>
      exact need_bind_of_not_has hn

section

variable (h : Standing front s) (hlen : front.length < 2 ^ 60)

include h hlen

/-- The number of values on the stack is the height of the code. -/
theorem Standing.toInt_height : (s.depth - s.reserved).toInt = Instr.height front := by
  have := h.height
  have := h.height_nonneg
  have := h.small
  rw [toInt_sub_of_bounds (by omega) (by omega), h.height]

/-- An instruction has its operands just if the height allows for them. -/
theorem Standing.has_iff {n : Nat} (hn : n < 2 ^ 62) :
    s.Has n ↔ (n : Int) ≤ Instr.height front := by
  rw [Has, Int64.lt_iff_toInt_lt, h.toInt_height hlen, Int64.toInt_ofNat_of_lt (by omega), not_lt]

/-- **An instruction underflows** just if it pops more than there is, and `pop` only if its slot is
laid out. -/
theorem Standing.underflow_iff (hi : ¬ i.opcode.isControl) {n : Nat} {x : Int64} :
    s.step i = .error (.underflow n x) ↔
      (n = i.opcode.info.pops ∧ x.toInt = Instr.height front) ∧
        Instr.height front < i.opcode.info.pops ∧
        ∀ name, i = .pop name → name ∈ (Instr.held front).map (·.name) := by
  have hslot : ∀ name, (s.slot? name).isSome ↔ name ∈ (Instr.held front).map (·.name) := by
    intro name
    rw [← h.held]
    simp [slot?, Placed.slot]
  have hhas : ¬ s.Has i.opcode.info.pops ↔ Instr.height front < i.opcode.info.pops := by
    have := i.pops_le
    rw [h.has_iff hlen (by omega), not_le]
  rw [← hhas]
  simp only [← hslot]
  constructor
  · intro hs
    cases Refused.of_step hs with
    | underflow hp hn => exact ⟨⟨rfl, h.toInt_height hlen⟩, hn, hp⟩
    | other hf => cases hf
  · rintro ⟨⟨rfl, hx⟩, hn, hp⟩
    have h₀ : s.Has 0 := (h.has_iff hlen (by decide)).mpr h.height_nonneg
    obtain rfl : x = s.depth - s.reserved :=
      Int64.toInt_inj.mp (hx.trans (h.toInt_height hlen).symm)
    exact step_of_not_has h₀ hi hp hn

end

/-- A slot that is released lies on the tape, so the cursor is not put below its start. -/
theorem Standing.ne_negativeDepth (h : Standing front s) : s.step i ≠ .error .negativeDepth := by
  intro hs
  cases Refused.of_step hs with
  | negative hp hd =>
      obtain ⟨hle, hsub, -⟩ := h.tidy.toInt_sub (mem_of_slot? hp).1
      have := h.tidy.tame.depth
      rw [Int64.lt_iff_toInt_lt, Int64.toInt_zero] at hd
      omega
  | other hf => cases hf

/-! ### Along code -/

/-- So it is after all of the code. -/
theorem LaidAll.held (h : LaidAll s code ops s') :
    s'.slots.map Placed.slot = code.foldl Instr.holds (s.slots.map Placed.slot) := by
  induction h with
  | nil => rfl
  | cons h _ ih => rw [ih, h.held, List.foldl_cons]

/-- Code that is lowered, with one instruction more. -/
theorem lowerFrom_concat (h : s.lowerFrom index front = .ok (ops, s')) (i : Instr) :
    s.lowerFrom index (front ++ [i]) =
      match s'.step i with
      | .error fault => .error { index := index + front.length, instr := some i, fault }
      | .ok (more, s₁) => .ok (ops ++ more, s₁) := by
  induction front generalizing s index ops with
  | nil =>
      cases h
      rw [List.nil_append, lowerFrom]
      cases s'.step i with
      | error fault => rfl
      | ok r => simp [lowerFrom]
  | cons j rest ih =>
      obtain ⟨ops₁, s₁, more, hs, hr, rfl⟩ := lowerFrom_cons h
      rw [List.cons_append, lowerFrom, hs]
      simp only [ih hr, List.length_cons, Nat.add_assoc, Nat.add_comm 1]
      cases s'.step i with
      | error fault => rfl
      | ok r => simp

/-- Code fails at its last instruction, behind a front that is accepted, with its position. -/
theorem lowerFrom_concat_eq_error_iff (h : s.lowerFrom index front = .ok (ops, s')) {i : Instr}
    {e : LoweringError} : s.lowerFrom index (front ++ [i]) = .error e ↔
      ∃ fault, s'.step i = .error fault ∧
        e = { index := index + front.length, instr := some i, fault } := by
  rw [lowerFrom_concat h]
  cases s'.step i with
  | ok r => simp
  | error fault => simp [eq_comm]

/-- Code that is refused is refused at one of its instructions. -/
theorem lowerFrom_eq_error {e : LoweringError} (h : s.lowerFrom index code = .error e) :
    ∃ front i ops s₁, front ++ [i] <+: code ∧ s.lowerFrom index front = .ok (ops, s₁) ∧
      s₁.step i = .error e.fault := by
  induction code generalizing s index with
  | nil => cases h
  | cons i rest ih =>
      rw [lowerFrom] at h
      split at h
      · next fault hs =>
          cases h
          exact ⟨[], i, [], s, List.prefix_append [i] rest, rfl, hs⟩
      · next ops₁ s₁ hs =>
          split at h
          · next e' hr =>
              cases h
              obtain ⟨front, j, ops, s₂, hpre, hf, hj⟩ := ih hr
              refine ⟨i :: front, j, ops₁ ++ ops, s₂, List.cons_prefix_cons.mpr ⟨rfl, hpre⟩, ?_, hj⟩
              rw [lowerFrom, hs]
              simp only [hf]
          · cases h

/-- The slots that are laid out at one time take less than `2 ^ 62` cells. -/
def Roomy (frame : Option Frame) (code : List Instr) : Prop :=
  ∀ front ops s, front <+: code → (start frame).lower front = .ok (ops, s) →
    Frame.cells (Instr.held front) < 2 ^ 62

/-- **Every front of the code stands as its instructions say.** -/
theorem standing_of_lower (hi : ∀ i ∈ code, ¬ i.opcode.isControl) (hl : code.length < 2 ^ 60)
    (hc : Roomy frame code) (hp : front <+: code) (h : (start frame).lower front = .ok (ops, s)) :
    Standing front s ∧ s.framed = false ∧ s.depth = displacement ops := by
  -- on the prefix from its end, since the room is given after every prefix
  induction front using List.reverseRecOn generalizing ops s with
  | nil =>
      cases h
      exact ⟨standing_start frame, rfl, rfl⟩
  | append_singleton front i ih =>
      obtain ⟨ops₁, s₁, more, hf, hrest, rfl⟩ := lowerFrom_append h
      obtain ⟨more, s₂, last, hs, hnil, rfl⟩ := lowerFrom_cons hrest
      cases hnil
      have hp₁ : front <+: code := (List.prefix_append _ _).trans hp
      have hlen := hp.length_le
      rw [List.length_append, List.length_singleton] at hlen
      obtain ⟨hstand, hfr, hd⟩ := ih hp₁ hf
      have hlaid := Laid.of_step hfr hs
      refine ⟨hlaid.standing (hi i (hp.subset (by simp))) hstand (by omega) (hc front _ _ hp₁ hf)
        (hc _ _ _ hp h), hlaid.same.2.2.trans hfr, ?_⟩
      rw [hlaid.displacement, hd, List.append_nil, displacement_append]

/-- Slots that are not too large, whether declared or not, leave room for each other. -/
theorem roomy_of_sizes (hl : code.length < 2 ^ 60)
    (hc : Frame.cells ((Frame.available frame code).filter fun t => 0 < t.size) < 2 ^ 62) :
    Roomy frame code := by
  intro front ops s hp h
  have hlaid := LaidAll.of_lowerFrom rfl h
  have hm : Modest ((Frame.available frame code).filter fun t => 0 < t.size) front := by
    refine ⟨fun i hi t ht => ?_, fun t ht => ?_, hc⟩
    · obtain ⟨hpos, hmem⟩ := hlaid.available hp.subset i hi t ht
      exact List.mem_filter.mpr ⟨hmem, decide_eq_true (Int64.lt_iff_toInt_lt.mpr hpos)⟩
    · exact Int64.lt_iff_toInt_lt.mp (of_decide_eq_true (List.mem_filter.mp ht).2)
  have hstart : Counted ((Frame.available frame code).filter fun t => 0 < t.size) 0
      (start frame) := by
    have hn := Frame.cells_nonneg hm.positive
    exact ⟨tidy_start frame, le_rfl, by show (0 : Int) ≤ _ + 3; omega⟩
  have hlen := hp.length_le
  have ht := (hlaid.counted hm (by omega) hstart).tidy
  have hle := ht.reserved_le hm.positive
  rw [ht.reserved, hlaid.held] at hle
  exact hle.trans_lt hc

/-- **A program leaves the pointer where it was**: its frame is laid out behind the dispatcher's
cells, and the way back is as long. -/
theorem displacement_of_lowerProgram {p : Program}
    (h : (start frame).lowerProgram p = .ok (ops, s)) : displacement ops = 0 := by
  obtain ⟨-, f, s₀, moves, body, -, hl, -, -, rfl⟩ := lowerProgram_eq_ok h
  have hres := reserved_of_lowerFrom hl rfl List.nodup_nil
  have hmoves : displacement moves = s₀.depth := by
    rw [hres.ops, displacement_reserves, hres.depth]
    exact (Int64.zero_add _).symm
  have hclose : displacement (close s₀.depth body) = -s₀.depth + -controlSize := by
    simp [close, displacement, moved]
  rw [displacement, displacement_append, hmoves, hclose, moved]
  grind

/-- **The cursor counts right.**  After every prefix of straight-line code that is lowered, the
cursor stands where the operations move the pointer to, at the sum of the sizes of the slots that
are laid out and of the height that the table gives, and the height is not negative.  The next
instruction underflows just if the height is less than it pops, and `pop` only if its slot is laid
out; the fault names the instruction, what it needs and what there is.  The cursor is never found
below the start, and the operations of a program move the pointer nowhere. -/
theorem lower_cursor (hi : ∀ i ∈ code, ¬ i.opcode.isControl) (hl : code.length < 2 ^ 60)
    (hc : Roomy frame code) :
    (∀ front ops s, front <+: code → (start frame).lower front = .ok (ops, s) →
      s.depth = displacement ops ∧
      s.depth.toInt = Frame.cells (Instr.held front) + Instr.height front ∧
      s.slots.map Placed.slot = Instr.held front ∧
      0 ≤ Instr.height front ∧
      ∀ i, front ++ [i] <+: code →
        ((∃ e n x, (start frame).lower (front ++ [i]) = .error e ∧ e.fault = .underflow n x) ↔
          Instr.height front < i.opcode.info.pops ∧
            ∀ name, i = .pop name → name ∈ (Instr.held front).map (·.name)) ∧
        ∀ e n x, (start frame).lower (front ++ [i]) = .error e → e.fault = .underflow n x →
          e.index = front.length ∧ e.instr = some i ∧ n = i.opcode.info.pops ∧
            x.toInt = Instr.height front) ∧
    (∀ front e, front <+: code → (start frame).lower front = .error e →
      e.fault ≠ .negativeDepth) ∧
    ∀ p ops s, (start frame).lowerProgram p = .ok (ops, s) → displacement ops = 0 := by
  refine ⟨fun front ops s hp h => ?_, fun front e hp h hneg => ?_,
    fun p ops s h => displacement_of_lowerProgram h⟩
  · obtain ⟨hs, -, hd⟩ := standing_of_lower hi hl hc hp h
    have hlen : front.length < 2 ^ 60 := hp.length_le.trans_lt hl
    have hdepth : s.depth.toInt = Frame.cells (Instr.held front) + Instr.height front := by
      have := hs.reserved
      have := hs.height
      omega
    refine ⟨hd, hdepth, hs.held, hs.height_nonneg, fun i hpi => ?_⟩
    have hunder : ∀ {n x}, s.step i = .error (.underflow n x) ↔ _ :=
      hs.underflow_iff hlen (hi i (hpi.subset (by simp)))
    simp only [lower, lowerFrom_concat_eq_error_iff h]
    refine ⟨⟨?_, fun hlt => ?_⟩, ?_⟩
    · rintro ⟨_, n, x, ⟨_, hstep, rfl⟩, rfl⟩
      exact (hunder.mp hstep).2
    · exact ⟨_, _, _, ⟨_, hunder.mpr ⟨⟨rfl, hs.toInt_height hlen⟩, hlt⟩, rfl⟩, rfl⟩
    · rintro _ n x ⟨_, hstep, rfl⟩ rfl
      exact ⟨Nat.zero_add _, rfl, (hunder.mp hstep).1⟩
  · obtain ⟨front', i, ops, s, hpre, hf, hs⟩ := lowerFrom_eq_error h
    rw [hneg] at hs
    have hp' : front' <+: code := ((List.prefix_append _ _).trans hpre).trans hp
    exact (standing_of_lower hi hl hc hp' hf).1.ne_negativeDepth hs

/-- Above a slot of two cells there is one operand, and an addition takes two. -/
theorem lower_cursor_underflow :
    ∃ ops s e, (start none).lower [.reserve [0x61] 2, .push [0x35, 0x63]] = .ok (ops, s) ∧
      s.depth = displacement ops ∧ s.depth.toInt = 3 ∧
      (start none).lower [.reserve [0x61] 2, .push [0x35, 0x63], .addc] = .error e ∧
      e.fault = .underflow 2 1 := by
  obtain ⟨ops, s, h⟩ : ∃ ops s,
      (start none).lower [.reserve [0x61] 2, .push [0x35, 0x63]] = .ok (ops, s) := ⟨_, _, rfl⟩
  have hc : Roomy none [.reserve [0x61] 2, .push [0x35, 0x63], .addc] :=
    roomy_of_sizes (by decide) (by decide)
  obtain ⟨hd, hx, -, -, hnext⟩ :=
    (lower_cursor (by decide) (by decide) hc).1 _ ops s (by decide) h
  obtain ⟨hiff, hdata⟩ := hnext .addc (by decide)
  obtain ⟨e, n, x, he, hf⟩ := hiff.mpr ⟨by decide, nofun⟩
  obtain ⟨-, -, rfl, hheight⟩ := hdata e n x he hf
  obtain rfl : x = 1 := Int64.toInt_inj.mp hheight
  exact ⟨ops, s, e, h, hd, hx, he, hf⟩

end Lowering

end StackTape
