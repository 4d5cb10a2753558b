import StackTape.Proofs.Lowering.Slots

/-!
# The layout of slots

Releasing a slot lowers the cursor by its size, whatever stands on top.  So slots are kept apart
(`Apart`) just as long as the cursor never sinks below the end of a slot, and this is so in code
that takes away only what is on top: `Instr.regionsAll` follows the stack of slots and operands,
and `lower_apart` says both.
-/

namespace StackTape

namespace Instr

/-- The slots and the operands on the stack after an instruction, top first; an operand is `none`.
There is no answer if the instruction takes away something that is not on top. -/
def regions (i : Instr) (r : List (Option Bytes)) : Option (List (Option Bytes)) :=
  match i with
  | .reserve name _ => some (some name :: r)
  | .unreserve name _ => if r.head? = some (some name) then some r.tail else none
  | .label _ | .jump _ | .cond .. => some r
  | _ =>
    let pops := i.opcode.info.pops
    if r.take pops = List.replicate pops none then
      some (List.replicate i.opcode.info.pushes none ++ r.drop pops)
    else none

/-- The slots and the operands after instructions in sequence. -/
def regionsAll : List Instr → List (Option Bytes) → Option (List (Option Bytes))
  | [], r => some r
  | i :: rest, r => (i.regions r).bind (regionsAll rest)

/-- The stack of regions is carried through code in two parts. -/
theorem regionsAll_append (front back : List Instr) (r : List (Option Bytes)) :
    regionsAll (front ++ back) r = (regionsAll front r).bind (regionsAll back) := by
  induction front generalizing r with
  | nil => rfl
  | cons i rest ih =>
      rw [List.cons_append, regionsAll, regionsAll, Option.bind_assoc]
      exact Option.bind_congr fun r₁ _ => ih r₁

/-- No instruction makes the expression stack higher by more than one cell. -/
theorem pushes_le (i : Instr) : i.opcode.info.pushes ≤ i.opcode.info.pops + 1 := by
  cases i <;> exact Nat.le_of_ble_eq_true rfl

theorem cells_le (i : Instr) : i.cells ≤ 3 := by
  cases i <;> exact Nat.le_of_ble_eq_true rfl

/-- Instructions on the stack pop and push cells, never slots. -/
theorem regions_of_isEvaluation {i : Instr} (hi : i.isEvaluation) {r r' : List (Option Bytes)}
    (h : i.regions r = some r') :
    ∃ r₀, r = List.replicate i.opcode.info.pops none ++ r₀ ∧
      r' = List.replicate i.opcode.info.pushes none ++ r₀ := by
  cases i with
  | reserve | unreserve | label | jump | cond => cases hi
  | _ =>
      unfold regions at h
      dsimp only at h
      split_ifs at h with ht
      obtain rfl := Option.some.inj h
      exact ⟨_, by rw [← ht, List.take_append_drop], rfl⟩

end Instr

/-- Two slots share no cell. -/
def Placed.Disjoint (p q : Placed) : Prop :=
  p.depth.toInt + p.size.toInt ≤ q.depth.toInt ∨ q.depth.toInt + q.size.toInt ≤ p.depth.toInt

instance : Std.Symm Placed.Disjoint := ⟨fun _ _ => Or.symm⟩

namespace Lowering

variable {s s' : Lowering} {i : Instr} {ops : List MacroOp} {all : List Slot}
  {code : List Instr} {r r' : List (Option Bytes)} {slots : List Placed} {d : Int} {n index : Nat}

/-- Every slot ends below the cursor. -/
def Below (s : Lowering) : Prop :=
  ∀ name p, s.slot? name = some p → p.depth.toInt + p.size.toInt ≤ s.depth.toInt

/-- The slots are between depth zero and the cursor, and no two of them share a cell. -/
structure Apart (s : Lowering) : Prop where
  nonneg : ∀ name p, s.slot? name = some p → 0 ≤ p.depth.toInt
  below : s.Below
  disjoint : ∀ name name' p q, name ≠ name' → s.slot? name = some p → s.slot? name' = some q →
    p.Disjoint q

/-- Slots one behind the other. -/
def InOrder (slots : List Placed) : Prop :=
  slots.Pairwise fun p q => p.depth.toInt + p.size.toInt ≤ q.depth.toInt

/-- Slots in order, none below the other, do not overlap. -/
theorem InOrder.apart (ho : InOrder s.slots) (hn : ∀ p ∈ s.slots, 0 ≤ p.depth.toInt)
    (hb : s.Below) : s.Apart where
  nonneg _ p hp := hn p (mem_of_slot? hp).1
  below := hb
  disjoint name name' p q hne hp hq := by
    obtain ⟨hmp, rfl⟩ := mem_of_slot? hp
    obtain ⟨hmq, rfl⟩ := mem_of_slot? hq
    have hd : s.slots.Pairwise Placed.Disjoint := ho.imp Or.inl
    exact hd.forall hmp hmq fun he => hne (congrArg _ he)

theorem slot?_of_mem (hn : (s.slots.map (·.name)).Nodup) {p : Placed} (hp : p ∈ s.slots) :
    s.slot? p.name = some p := by
  have hsome : (s.slot? p.name).isSome := List.find?_isSome.mpr ⟨p, hp, by simp⟩
  obtain ⟨q, hq⟩ := Option.isSome_iff_exists.mp hsome
  obtain ⟨hm, hname⟩ := mem_of_slot? hq
  rw [hq, List.inj_on_of_nodup_map hn hm hp hname]

/-! ### Counts of cells along code -/

/-- After `n` instructions: the slots are tidy, and operands and work cells are few. -/
structure Counted (all : List Slot) (n : Nat) (s : Lowering) : Prop where
  tidy : Tidy all s
  height : s.depth.toInt - s.reserved.toInt ≤ n
  high : s.high.toInt ≤ Frame.cells all + n + 3

/-- The slots that are there take up no more cells than all that may be. -/
theorem Tidy.reserved_le (ht : Tidy all s) (hp : ∀ t ∈ all, 0 < t.size.toInt) :
    s.reserved.toInt ≤ Frame.cells all := by
  rw [ht.reserved]
  refine Frame.cells_le_of_subset ?_ ?_ hp
  · refine List.Nodup.of_map Slot.name ?_
    simpa [Function.comp_def, Placed.slot] using ht.names
  · intro u hu
    obtain ⟨p, hp, rfl⟩ := List.mem_map.mp hu
    exact ht.known p hp

/-- Code that is not too long leaves room for every slot. -/
theorem Counted.spacious (h : Counted all n s) (hm : Modest all code) (hn : n < 2 ^ 60) :
    Spacious all s := by
  have := h.height
  have := h.high
  have := hm.cells
  exact ⟨hm.positive, hm.cells, by omega, by omega⟩

/-- The expression stack grows by what the table says. -/
theorem Laid.height (h : Laid s i ops s') (hi : ¬ i.opcode.isControl) (ht : Tidy all s)
    (hr : Spacious all s) (ha : ∀ t, Frame.slotOf? i = some t → t ∈ all) :
    s'.depth.toInt - s'.reserved.toInt =
      s.depth.toInt - s.reserved.toInt + (i.opcode.info.pushes - i.opcode.info.pops) := by
  cases h with
  | eval _ h =>
      have hd := (h.counts ht.tame hr.high).depth
      have hre : s'.reserved = s.reserved := by rw [h.same]
      rw [hre]
      omega
  | reserve _ hn =>
      obtain ⟨hd, hre⟩ := ht.toInt_add hr hn (ha _ rfl)
      rw [depth_withSlot, reserved_withSlot, hd, hre]
      show _ = _ + ((0 : Int) - 0)
      omega
  | unreserve hp =>
      obtain ⟨-, hd, hre⟩ := ht.toInt_sub (mem_of_slot? hp).1
      show (s.depth - _).toInt - (s.reserved - _).toInt = _ + ((0 : Int) - 0)
      omega
  | control hc => exact absurd hc hi

/-- An instruction touches three cells above the cursor at most, or moves it there. -/
theorem Laid.high_le_max (h : Laid s i ops s') (ht : Tidy all s) (hr : Spacious all s) :
    s'.high.toInt ≤ max s.high.toInt (max (s.depth.toInt + 3) s'.depth.toInt) := by
  cases h with
  | eval _ h =>
      have hg := (h.counts ht.tame hr.high).high
      have := i.cells_le
      omega
  | reserve =>
      rw [high_withSlot, depth_withSlot]
      omega
  | unreserve | control => exact le_max_left ..

theorem Laid.eq_of_isControl (h : Laid s i ops s') (hi : i.opcode.isControl) : s' = s := by
  cases h with
  | eval hev =>
      cases i with
      | label | jump | cond => cases hev
      | _ => cases hi
  | reserve | unreserve => cases hi
  | control => rfl

/-- One more instruction raises the cursor by one cell at most, slots apart. -/
theorem Laid.counted (h : Laid s i ops s') (hc : Counted all n s) (hr : Spacious all s)
    (ha : ∀ t, Frame.slotOf? i = some t → t ∈ all) : Counted all (n + 1) s' := by
  have ht := hc.tidy
  have htidy := h.tidy ht hr ha
  have hheight := hc.height
  have hhigh := hc.high
  by_cases hi : i.opcode.isControl
  · obtain rfl := h.eq_of_isControl hi
    exact ⟨htidy, by omega, by omega⟩
  · have hh := h.height hi ht hr ha
    have hm := h.high_le_max ht hr
    have hle := ht.reserved_le hr.positive
    have hle' := htidy.reserved_le hr.positive
    have := i.pushes_le
    exact ⟨htidy, by omega, by omega⟩

/-- So does code, by one for every instruction. -/
theorem LaidAll.counted (h : LaidAll s code ops s') (hm : Modest all code)
    (hl : n + code.length < 2 ^ 60) (hn : Counted all n s) :
    Counted all (n + code.length) s' := by
  induction h generalizing n with
  | nil => exact hn
  | @cons _ _ _ i rest _ _ h _ ih =>
      rw [List.length_cons] at hl ⊢
      have hn₁ := h.counted hn (hn.spacious hm (by omega)) hm.head
      have hn' := ih hm.tail (by omega) hn₁
      rwa [Nat.add_assoc, Nat.add_comm 1] at hn'

/-! ### Slots below the cursor -/

/-- As long as every slot ends below the cursor, slots come one behind the other. -/
theorem Laid.inOrder (h : Laid s i ops s') (ht : Tidy all s) (hb : s.Below)
    (ho : InOrder s.slots) : InOrder s'.slots := by
  cases h with
  | eval _ h =>
      rw [h.same]
      exact ho
  | @reserve name size =>
      -- the new slot starts at the cursor
      rw [slots_withSlot]
      refine List.pairwise_append.mpr ⟨ho, List.pairwise_singleton _ _, fun p hp q hq => ?_⟩
      obtain rfl : q = _ := List.mem_singleton.mp hq
      exact hb p.name p (slot?_of_mem ht.names hp)
  | unreserve => exact ho.sublist List.filter_sublist
  | control => exact ho

/-! ### Regions -/

/-- The stack of slots and operands, as it lies on the tape up to the depth `d`. -/
inductive Regions : List (Option Bytes) → List Placed → Int → Prop where
  | nil : Regions [] [] 0
  | cell {r : List (Option Bytes)} {slots : List Placed} {d : Int} (h : Regions r slots d) :
      Regions (none :: r) slots (d + 1)
  | slot {r : List (Option Bytes)} {slots : List Placed} {d : Int} (h : Regions r slots d)
      {p : Placed} (hd : p.depth.toInt = d) (hs : 0 < p.size.toInt) :
      Regions (some p.name :: r) (slots ++ [p]) (d + p.size.toInt)

/-- Slots end below the cursor. -/
theorem Regions.le_depth (h : Regions r slots d) :
    ∀ p ∈ slots, p.depth.toInt + p.size.toInt ≤ d := by
  induction h with
  | nil => nofun
  | cell _ ih =>
      intro p hp
      have := ih p hp
      omega
  | slot _ hd hs ih =>
      intro p hp
      rcases List.mem_append.mp hp with hp | hp
      · have := ih p hp
        omega
      · obtain rfl := List.mem_singleton.mp hp
        omega

/-- They are in the order in which they were laid out. -/
theorem Regions.inOrder (h : Regions r slots d) : InOrder slots := by
  induction h with
  | nil => exact List.Pairwise.nil
  | cell _ ih => exact ih
  | slot h hd _ ih =>
      refine List.pairwise_append.mpr ⟨ih, List.pairwise_singleton _ _, fun p hp q hq => ?_⟩
      obtain rfl := List.mem_singleton.mp hq
      rw [hd]
      exact h.le_depth p hp

/-- Cells may be pushed above everything. -/
theorem Regions.cells (h : Regions r slots d) (n : Nat) :
    Regions (List.replicate n none ++ r) slots (d + n) := by
  induction n with
  | zero => simpa using h
  | succ n ih =>
      rw [List.replicate_succ, List.cons_append, Nat.cast_succ, ← Int.add_assoc]
      exact ih.cell

/-- They may be popped again. -/
theorem Regions.of_cells (h : Regions (List.replicate n none ++ r) slots d) :
    Regions r slots (d - n) := by
  induction n generalizing d with
  | zero => simpa using h
  | succ n ih =>
      rw [List.replicate_succ, List.cons_append] at h
      cases h with
      | @cell _ _ d h =>
          rw [Nat.cast_succ, Int.add_sub_add_right]
          exact ih h

/-- The slot on top is released. -/
theorem Regions.release {p : Placed} (h : Regions (some p.name :: r) slots d)
    (hn : (slots.map (·.name)).Nodup) (hp : p ∈ slots) :
    Regions r (slots.filter fun q => q.name ≠ p.name) (d - p.size.toInt) := by
  generalize hname : p.name = name at h
  cases h with
  | @slot _ slots d h q hd hs =>
      -- the last slot has the name, and no other slot has
      obtain rfl : p = q := List.inj_on_of_nodup_map hn hp (by simp) hname
      rw [List.map_append, List.nodup_append] at hn
      have hne : ∀ q ∈ slots, q.name ≠ p.name := fun q hq =>
        hn.2.2 _ (List.mem_map_of_mem hq) _ (by simp)
      rw [List.filter_append, List.filter_eq_self.mpr (by simpa using hne),
        List.filter_eq_nil_iff.mpr (by simp), List.append_nil, Int.add_sub_cancel]
      exact h

/-- **An instruction that takes away what is on top** leaves the regions that it says. -/
theorem Laid.regions (h : Laid s i ops s') (ht : Tidy all s) (hr : Spacious all s)
    (ha : ∀ t, Frame.slotOf? i = some t → t ∈ all) (hi : i.regions r = some r')
    (hreg : Regions r s.slots s.depth.toInt) : Regions r' s'.slots s'.depth.toInt := by
  cases h with
  | eval hev h =>
      obtain ⟨-, hd, -⟩ := h.counts ht.tame hr.high
      obtain ⟨r₀, rfl, rfl⟩ := Instr.regions_of_isEvaluation hev hi
      have hs : s'.slots = s.slots := by rw [h.same]
      rw [hs, hd]
      exact hreg.of_cells.cells _
  | @reserve name size _ hn hs =>
      obtain ⟨hd, -⟩ := ht.toInt_add hr hn (ha _ rfl)
      obtain rfl := Option.some.inj hi
      rw [slots_withSlot, depth_withSlot, hd]
      exact hreg.slot (p := ⟨name, s.depth, size⟩) rfl hs
  | @unreserve p hp =>
      obtain ⟨hm, -⟩ := mem_of_slot? hp
      obtain ⟨-, hd, -⟩ := ht.toInt_sub hm
      rw [Instr.regions] at hi
      split_ifs at hi with hh
      obtain rfl := Option.some.inj hi
      obtain ⟨rest, rfl⟩ := List.head?_eq_some_iff.mp hh
      have hdepth : (s.withoutSlot p.name p.size).depth.toInt = s.depth.toInt - p.size.toInt := hd
      rw [hdepth]
      exact hreg.release ht.names hm
  | control hc =>
      cases i with
      | label | jump | cond =>
          obtain rfl := Option.some.inj hi
          exact hreg
      | _ => cases hc

/-! ### Along code -/

/-- **Code that releases its slots from the top** keeps the regions of the tape in order. -/
theorem LaidAll.regions (h : LaidAll s code ops s') (hm : Modest all code)
    (hl : n + code.length < 2 ^ 60) (hn : Counted all n s)
    (hr : Instr.regionsAll code r = some r') (hreg : Regions r s.slots s.depth.toInt) :
    Regions r' s'.slots s'.depth.toInt := by
  induction h generalizing n r with
  | nil =>
      obtain rfl := Option.some.inj hr
      exact hreg
  | @cons _ _ _ i rest _ _ h _ ih =>
      rw [List.length_cons] at hl
      obtain ⟨r₁, h₁, hr⟩ := Option.bind_eq_some_iff.mp hr
      have hsp := hn.spacious hm (by omega)
      exact ih hm.tail (by omega) (h.counted hn hsp hm.head) hr
        (h.regions hn.tidy hsp hm.head h₁ hreg)

/-- **Slots stay in order** as long as no slot is above the cursor, at any front of the code. -/
theorem inOrder_of_lowerFrom (hf : s.framed = false) (h : s.lowerFrom index code = .ok (ops, s'))
    (hm : Modest all code) (hl : n + code.length < 2 ^ 60) (hn : Counted all n s)
    (hb : ∀ front ops₁ s₁, front <+: code → s.lowerFrom index front = .ok (ops₁, s₁) → s₁.Below)
    (ho : InOrder s.slots) : InOrder s'.slots := by
  induction code generalizing s index ops n with
  | nil =>
      cases h
      exact ho
  | cons i rest ih =>
      rw [List.length_cons] at hl
      obtain ⟨ops₁, s₁, more, hs, hr, rfl⟩ := lowerFrom_cons h
      have h₁ := Laid.of_step hf hs
      have hn₁ := h₁.counted hn (hn.spacious hm (by omega)) hm.head
      refine ih (h₁.same.2.2.trans hf) hr hm.tail (by omega) hn₁
        (fun front ops₂ s₂ hpre hfront => ?_)
        (h₁.inOrder hn.tidy (hb [] [] s List.nil_prefix rfl) ho)
      refine hb (i :: front) (ops₁ ++ ops₂) s₂ (List.cons_prefix_cons.mpr ⟨rfl, hpre⟩) ?_
      rw [lowerFrom, hs]
      simp only [hfront]

/-- **Where slots are kept apart.**  Every prefix of code that is lowered is lowered.  After every
prefix the slots share no cell and are between depth zero and the cursor, just if after every prefix
the cursor is not below the end of a slot; and this is so of code that takes away only what is on
top of the stack of slots and operands. -/
theorem lower_apart {frame : Option Frame} (h : (start frame).lower code = .ok (ops, s))
    (hp : ∀ f, frame = some f → ∀ t ∈ f.slots, 0 < t.size.toInt)
    (hc : Frame.cells (Frame.available frame code) < 2 ^ 62) (hl : code.length < 2 ^ 60) :
    (∀ front, front <+: code → ∃ ops₁ s₁, (start frame).lower front = .ok (ops₁, s₁)) ∧
    ((∀ front ops₁ s₁, front <+: code → (start frame).lower front = .ok (ops₁, s₁) → s₁.Below) ↔
      ∀ front ops₁ s₁, front <+: code → (start frame).lower front = .ok (ops₁, s₁) → s₁.Apart) ∧
    ((Instr.regionsAll code []).isSome →
      ∀ front ops₁ s₁, front <+: code → (start frame).lower front = .ok (ops₁, s₁) → s₁.Apart) := by
  have hm : Modest (Frame.available frame code) code := (LaidAll.of_lowerFrom rfl h).modest hp hc
  have hstart : Counted (Frame.available frame code) 0 (start frame) := by
    have hn := Frame.cells_nonneg hm.positive
    exact ⟨tidy_start frame, le_rfl, by show (0 : Int) ≤ _ + 3; omega⟩
  -- what holds of all of the code holds of a prefix
  have hpart : ∀ front, front <+: code → 0 + front.length < 2 ^ 60 ∧
      Modest (Frame.available frame code) front := by
    intro front hpre
    have hle := hpre.length_le
    exact ⟨by omega, hm.subset hpre.subset⟩
  have hnonneg : ∀ front ops₁ s₁, front <+: code →
      (start frame).lower front = .ok (ops₁, s₁) → ∀ p ∈ s₁.slots, 0 ≤ p.depth.toInt := by
    intro front ops₁ s₁ hpre hfront p hp
    obtain ⟨hlen, hm⟩ := hpart front hpre
    have hcounted := (LaidAll.of_lowerFrom rfl hfront).counted hm hlen hstart
    exact (hcounted.tidy.under p hp).1
  refine ⟨fun front ⟨back, hback⟩ => ?_, ⟨fun hb front ops₁ s₁ hpre hfront => ?_,
    fun hap front ops₁ s₁ hpre hfront => (hap front ops₁ s₁ hpre hfront).below⟩,
    fun hr front ops₁ s₁ hpre hfront => ?_⟩
  · rw [← hback] at h
    obtain ⟨ops₁, s₁, -, hfront, -⟩ := lowerFrom_append h
    exact ⟨ops₁, s₁, hfront⟩
  · obtain ⟨hlen, hm⟩ := hpart front hpre
    have ho := inOrder_of_lowerFrom rfl hfront hm hlen hstart
      (fun front' ops' s' hpre' => hb front' ops' s' (hpre'.trans hpre)) List.Pairwise.nil
    exact ho.apart (hnonneg front ops₁ s₁ hpre hfront) (hb front ops₁ s₁ hpre hfront)
  · obtain ⟨hlen, hm⟩ := hpart front hpre
    obtain ⟨back, rfl⟩ := hpre
    rw [Instr.regionsAll_append] at hr
    obtain ⟨r, hreg⟩ := Option.isSome_iff_exists.mp (Option.isSome_of_isSome_bind hr)
    have hregs := (LaidAll.of_lowerFrom rfl hfront).regions hm hlen hstart hreg .nil
    exact hregs.inOrder.apart (hnonneg front ops₁ s₁ (List.prefix_append _ _) hfront)
      fun name p hp => hregs.le_depth p (mem_of_slot? hp).1

/-- The slot `b` is laid out above an operand that stands above the slot `a`. -/
theorem lower_apart_nested :
    ∃ ops s, (start none).lower [.reserve [0x61] 1, .push [0x35, 0x63], .reserve [0x62] 2] =
        .ok (ops, s) ∧ s.slotDepth? [0x61] = some 0 ∧ s.slotDepth? [0x62] = some 2 ∧ s.Apart := by
  obtain ⟨ops, s, h, hs⟩ : ∃ ops s, (start none).lower
      [.reserve [0x61] 1, .push [0x35, 0x63], .reserve [0x62] 2, .unreserve [0x62] 2, .write,
        .unreserve [0x61] 1] = .ok (ops, s) ∧ s.depth = 0 := ⟨_, _, rfl, rfl⟩
  obtain ⟨ops₁, s₁, h₁, hs₁⟩ : ∃ ops s, (start none).lower
      [.reserve [0x61] 1, .push [0x35, 0x63], .reserve [0x62] 2] = .ok (ops, s) ∧
      s.slotDepth? [0x61] = some 0 ∧ s.slotDepth? [0x62] = some 2 := ⟨_, _, rfl, rfl, rfl⟩
  refine ⟨ops₁, s₁, h₁, hs₁.1, hs₁.2, ?_⟩
  exact (lower_apart h nofun (by decide) (by decide)).2.2 rfl _ ops₁ s₁ (by simp) h₁

/-- The slot `a` is released under the slot `b`: now `b` is above the cursor, and the next slot that
is laid out has its cell. -/
theorem lower_not_apart :
    (∃ ops s, (start none).lower [.reserve [0x61] 1, .reserve [0x62] 1, .unreserve [0x61] 1] =
        .ok (ops, s) ∧ s.slotDepth? [0x62] = some 1 ∧ s.depth = 1 ∧ ¬ s.Apart) ∧
      ∃ ops s, (start none).lower
          [.reserve [0x61] 1, .reserve [0x62] 1, .unreserve [0x61] 1, .reserve [0x63] 1] =
        .ok (ops, s) ∧ s.slotDepth? [0x62] = some 1 ∧ s.slotDepth? [0x63] = some 1 := by
  refine ⟨⟨_, _, rfl, rfl, rfl, fun h => ?_⟩, _, _, rfl, rfl, rfl⟩
  exact absurd (h.below [0x62] _ rfl) (by decide)

end Lowering

end StackTape
