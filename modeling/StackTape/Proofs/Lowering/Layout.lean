import StackTape.Proofs.Expansion.Walk
import StackTape.Proofs.Lowering.Stack

/-!
# Slots and stack on the tape

`Layout` says where the slots stand.  A view pictures a state of the stack machine when the slots'
cells hold their values, the stack stands above them, and every other cell is as it was before
(`Layout.Pictures`).  Lowered instructions take a picture of a state to a picture of the state after
them: `Lowered.meaning` for one, `LoweredAll.meaning` for a sequence.  Lowering has checked that the
stack is high enough, so the stack machine is never stuck on them.
-/

namespace StackTape

/-- Where slots stand: their depths are different and below `height`, and depth zero is the cell
`origin`. -/
structure Layout where
  slots : List Placed
  height : Int64
  origin : Int64
  nonneg : 0 ≤ height.toInt
  small : height.toInt < 2 ^ 62
  names : (slots.map (·.name)).Nodup
  depths : (slots.map (·.depth)).Nodup
  below : ∀ p ∈ slots, 0 ≤ p.depth.toInt ∧ p.depth.toInt < height.toInt

namespace Layout

variable (L : Layout) (rest : Int64 → UInt8)

/-- The lowering has laid out these slots and no others. -/
def Of (s : Lowering) : Prop := s.slots = L.slots ∧ s.reserved = L.height

/-- The cells above the slots are zero. -/
def Free : Prop := ∀ k : Nat, k < 2 ^ 63 → rest (L.origin + L.height + Int64.ofNat k) = 0

/-- The pointer stands above the slots, which hold their values; every other cell is as in
`rest`. -/
structure Floor (σ : Store) (b : View) : Prop where
  pointer : b.pointer = L.origin + L.height
  input : b.input = σ.input
  output : b.output = σ.output
  slot : ∀ p ∈ L.slots, b.cells (L.origin + p.depth) = σ.slots p.name
  other : ∀ a, (∀ p ∈ L.slots, a ≠ L.origin + p.depth) → b.cells a = rest a

/-- The stack stands on the floor, as high as the lowering has it. -/
def Pictures (s : Lowering) (σ : Store) (v : View) : Prop :=
  ∃ b, L.Floor rest σ b ∧ (σ.stack.length : Int) = s.depth.toInt - L.height.toInt ∧
    v = b.stacked σ.stack

variable {L rest} {σ : Store} {b : View}

/-- A slot is not above the slots. -/
theorem above_ne {p : Placed} (hp : p ∈ L.slots) {k : Nat} (hk : k < 2 ^ 63) :
    L.origin + L.height + Int64.ofNat k ≠ L.origin + p.depth := by
  intro he
  have h : L.height + Int64.ofNat k = p.depth := by grind
  have hb := L.below p hp
  have hl := L.height.toInt_lt
  have hs := congrArg Int64.toInt h
  rw [Int64.toInt_add, Int64.toInt_ofNat_of_lt hk, Int.bmod_def] at hs
  split_ifs at hs <;> omega

/-- Above the slots every cell is zero. -/
theorem Floor.above (hf : L.Floor rest σ b) (hr : L.Free rest) {k : Nat} (hk : k < 2 ^ 63) :
    b.cells (b.pointer + Int64.ofNat k) = 0 := by
  rw [hf.pointer, hf.other _ fun p hp => above_ne hp hk, hr k hk]

/-- The cells above a stack are zero. -/
theorem Floor.get_stacked (hf : L.Floor rest σ b) (hr : L.Free rest) {st : List UInt8} {k : Nat}
    (hk : st.length + k < 2 ^ 63) : (b.stacked st).get (Int64.ofNat k) = 0 := by
  have ha : b.pointer + Int64.ofNat st.length + Int64.ofNat k =
      b.pointer + Int64.ofNat (st.length + k) := by
    rw [Int64.ofNat_add, Int64.add_assoc]
  rw [View.get, View.pointer_stacked, ha, View.cells_stacked_of_ne, hf.above hr hk]
  intro j hj he
  have := congrArg Int64.toInt (show Int64.ofNat (st.length + k) = Int64.ofNat j by grind)
  rw [Int64.toInt_ofNat_of_lt hk, Int64.toInt_ofNat_of_lt (by omega)] at this
  omega

/-- A slot is set. -/
theorem Floor.poke (hf : L.Floor rest σ b) {p : Placed} (hp : p ∈ L.slots) (x : UInt8)
    (st : List UInt8) :
    L.Floor rest { σ with stack := st, slots := Function.update σ.slots p.name x }
      (b.poke (L.origin + p.depth) x) where
  pointer := hf.pointer
  input := hf.input
  output := hf.output
  slot q hq := by
    by_cases h : q = p
    · subst h
      simp [View.poke]
    · have hn : q.name ≠ p.name := fun he => h (List.inj_on_of_nodup_map L.names hq hp he)
      have hd : q.depth ≠ p.depth := fun he => h (List.inj_on_of_nodup_map L.depths hq hp he)
      have ha : L.origin + q.depth ≠ L.origin + p.depth := by grind
      show Function.update b.cells _ x _ = Function.update σ.slots _ x _
      rw [Function.update_of_ne ha, Function.update_of_ne hn, hf.slot q hq]
  other a ha := by
    show Function.update b.cells _ x a = rest a
    rw [Function.update_of_ne (ha p hp), hf.other a ha]

/-- What is under the stack does not depend on it. -/
theorem Floor.stack (hf : L.Floor rest σ b) (st : List UInt8) :
    L.Floor rest { σ with stack := st } b :=
  ⟨hf.pointer, hf.input, hf.output, hf.slot, hf.other⟩

theorem Pictures.input {s : Lowering} {v : View} (hp : L.Pictures rest s σ v) :
    v.input = σ.input := by
  obtain ⟨b, hf, -, rfl⟩ := hp
  rw [View.input_stacked, hf.input]

theorem Pictures.output {s : Lowering} {v : View} (hp : L.Pictures rest s σ v) :
    v.output = σ.output := by
  obtain ⟨b, hf, -, rfl⟩ := hp
  rw [View.output_stacked, hf.output]

/-- A zero tape with the pointer above the slots pictures the start. -/
theorem pictures_initial (L : Layout) {l : Lowering} (hl : l.depth = L.height)
    (input : Bytes) :
    L.Pictures (fun _ => 0) l (Store.initial input)
      ⟨fun _ => 0, L.origin + L.height, input, []⟩ :=
  ⟨_, ⟨rfl, rfl, rfl, fun _ _ => rfl, fun _ _ => rfl⟩, by simp [hl, Store.initial], rfl⟩

/-- A lowering with the same slots has the same layout. -/
theorem Of.same {s s' : Lowering} (hL : L.Of s)
    (h : s' = { s with depth := s'.depth, high := s'.high }) : L.Of s' := by
  rw [h]
  exact hL

/-- Slots are under the highest cell. -/
theorem Of.under {s : Lowering} (hL : L.Of s) (ht : s.Tame) :
    ∀ p ∈ s.slots, 0 ≤ p.depth.toInt ∧ p.depth.toInt ≤ s.high.toInt := by
  intro p hp
  have hb := L.below p (hL.1 ▸ hp)
  have hd := ht.depth.trans ht.high
  rw [hL.2] at hd
  exact ⟨hb.1, by omega⟩

end Layout

/-- An instruction of two operands pops two values and pushes one. -/
theorem Instr.counts_of_combine {i : Instr} {f : UInt8 → UInt8 → UInt8} (hi : i.combine = some f) :
    i.opcode.info.pops = 2 ∧ i.opcode.info.pushes = 1 := by
  cases i <;> cases hi <;> exact ⟨rfl, rfl⟩

theorem exists_cons {st : List UInt8} (h : 1 ≤ st.length) : ∃ x st', st = x :: st' := by
  cases st with
  | nil => cases h
  | cons x st => exact ⟨x, st, rfl⟩

theorem exists_cons_cons {st : List UInt8} (h : 2 ≤ st.length) :
    ∃ y x st', st = y :: x :: st' := by
  obtain ⟨y, st, rfl⟩ := exists_cons (show 1 ≤ st.length by omega)
  obtain ⟨x, st, rfl⟩ := exists_cons (show 1 ≤ st.length by simpa using h)
  exact ⟨y, x, st, rfl⟩

namespace Lowering

open MacroOp

variable {s s' : Lowering} {i : Instr} {ops : List MacroOp} {L : Layout} {rest : Int64 → UInt8}
  {σ : Store} {v b : View}

/-- The operations on two bytes. -/
theorem Lowered.meaning_two (h : Lowered s i ops s') {f : UInt8 → UInt8 → UInt8}
    (hi : i.combine = some f) {v : View} (hz : ∀ k ≤ 4, v.get (Int64.ofNat k) = 0)
    (eof : EofMode) (fuel : Nat) (x y : UInt8) :
    meaningAll eof fuel ops ((v.push x).push y) = .done (v.push (f x y)) := by
  have hd : ([-2, -1, 0, 1, 2] : List Int64).Nodup := by
    simp only [List.nodup_cons, List.mem_cons, List.not_mem_nil, not_or]
    refine ⟨?_, ?_, ?_, ?_, ?_⟩ <;> grind
  cases h with
  | addc =>
      cases hi
      exact meaningAll_two eof fuel [.move (-2) (-1)] hz
        fun w h _ _ _ => meaningAll_sum eof fuel x y (by grind) h
  | subc =>
      cases hi
      exact meaningAll_two eof fuel [.unmove (-2) (-1)] hz
        fun w h _ _ _ => meaningAll_difference eof fuel x y (by grind) h
  | and =>
      cases hi
      exact meaningAll_two eof fuel [.move 0 (-2), .move 1 (-1), .and (-2) [0, 1] 2] hz
        fun w h h₀ h₁ h₂ => meaningAll_both eof fuel x y hd h h₀ h₁ h₂
  | or =>
      cases hi
      exact meaningAll_two eof fuel
        [.move 0 (-2), .move 1 (-1), .or 2 [0, 1], .isZero (-2) 2 true []] hz
        fun w h h₀ h₁ h₂ => meaningAll_either eof fuel x y hd h h₀ h₁ h₂
  | xor =>
      cases hi
      exact meaningAll_two eof fuel [.move 0 (-2), .move 1 (-1), .xor (-2) [0, 1] 2] hz
        fun w h h₀ h₁ h₂ => meaningAll_oneOf eof fuel x y hd h h₀ h₁ h₂
  | eq =>
      cases hi
      have hd : ([-2, -1, 0] : List Int64).Nodup := hd.sublist (by simp)
      exact meaningAll_two eof fuel [.move 0 (-2), .isEq (-2) 0 (-1) []] hz
        fun w h h₀ _ _ => meaningAll_equality eof fuel x y hd h h₀
  | mark hm =>
      cases i with
      | reserve | unreserve | label => cases hi
      | _ => cases hm
  | _ => cases hi

/-- The cursor is above the slots by the number of values. -/
theorem Tame.depth_eq (ht : s.Tame) {n : Nat} (hn : (n : Int) = s.depth.toInt - s.reserved.toInt) :
    s.depth = s.reserved + Int64.ofNat n := by
  have := ht.reserved
  have := s.depth.toInt_lt
  have hi : (Int64.ofNat n).toInt = n := Int64.toInt_ofNat_of_lt (by omega)
  rw [← Int64.toInt_inj, toInt_add_of_bounds (by omega) (by omega), hi]
  omega

/-- The pointer stands at the cursor. -/
theorem pointer_of_pictures (ht : s.Tame) (hL : L.Of s) (hp : L.Pictures rest s σ v) :
    v.pointer = L.origin + s.depth := by
  obtain ⟨b, hf, hl, rfl⟩ := hp
  rw [← hL.2] at hl
  rw [View.pointer_stacked, hf.pointer, ht.depth_eq hl, hL.2, Int64.add_assoc]

theorem mem_of_slot? {name : Bytes} {p : Placed} (h : s.slot? name = some p) :
    p ∈ s.slots ∧ p.name = name :=
  ⟨List.mem_of_find?_eq_some h, by simpa using List.find?_some h⟩

/-- The top of the stack is stored into a slot. -/
theorem meaningAll_store (ht : s.Tame) (hL : L.Of s) (hr : L.Free rest)
    (hf : L.Floor rest σ b) {p : Placed} (hp : p ∈ L.slots) {st : List UInt8}
    (hn : ((st.length + 1 : Nat) : Int) = s.depth.toInt - L.height.toInt) (eof : EofMode)
    (fuel : Nat) (x : UInt8) :
    meaningAll eof fuel
        [.go (-1), .zero (p.depth - (s.depth + -1)), .move (p.depth - (s.depth + -1)) 0]
        ((b.stacked st).push x) =
      .done ((b.poke (L.origin + p.depth) x).stacked st) := by
  have hd : s.depth = L.height + Int64.ofNat (st.length + 1) := by
    rw [← hL.2] at hn ⊢
    exact ht.depth_eq hn
  have hl := s.depth.toInt_lt
  have hb := L.below p hp
  have ha : L.origin + L.height + Int64.ofNat st.length + (p.depth - (s.depth + -1)) =
      L.origin + p.depth := by
    rw [hd, Int64.ofNat_add]
    grind
  have hz : (b.stacked st).get 0 = 0 := hf.get_stacked hr (k := 0) (by omega)
  have hne : p.depth - (s.depth + -1) ≠ 0 := by
    intro he
    refine Layout.above_ne hp (k := st.length) (by omega) ?_
    rw [← ha, he, Int64.add_zero]
  rw [meaningAll_pop eof fuel hz hne, ← View.poke_stacked, ← ha, ← hf.pointer,
    ← View.pointer_stacked]
  · rfl
  · intro k hk
    rw [hf.pointer]
    exact (Layout.above_ne hp (by omega)).symm

/-- **A lowered instruction takes a picture to a picture.**  The stack machine goes on, and the
operations show what it does. -/
theorem Lowered.meaning (h : Lowered s i ops s') (ht : s.Tame) (hh : s'.high.toInt + 4 < 2 ^ 63)
    (hL : L.Of s) (hr : L.Free rest) (hp : L.Pictures rest s σ v) (eof : EofMode) (fuel : Nat) :
    ∃ σ' v', i.effect eof σ = some σ' ∧ meaningAll eof fuel ops v = .done v' ∧
      L.Pictures rest s' σ' v' := by
  obtain ⟨b, hf, hl, rfl⟩ := hp
  have hm := h.high_le
  obtain ⟨hn, hd, -⟩ := h.counts ht (by omega)
  have := ht.reserved
  have := ht.high
  rw [hL.2] at *
  have hz : ∀ st : List UInt8, st.length ≤ σ.stack.length →
      ∀ k ≤ 4, (b.stacked st).get (Int64.ofNat k) = 0 := by
    intro st hs k hk
    exact hf.get_stacked hr (by omega)
  -- the picture of the state after, on a floor that may have changed
  have out : ∀ σ' b', i.effect eof σ = some σ' → L.Floor rest σ' b' →
      σ'.stack.length + i.opcode.info.pops = σ.stack.length + i.opcode.info.pushes →
      meaningAll eof fuel ops (b.stacked σ.stack) = .done (b'.stacked σ'.stack) →
      ∃ σ' v', i.effect eof σ = some σ' ∧
        meaningAll eof fuel ops (b.stacked σ.stack) = .done v' ∧ L.Pictures rest s' σ' v' :=
    fun σ' b' he hf' hl' hv => ⟨σ', _, he, hv, b', hf', by omega, rfl⟩
  have one : 1 ≤ i.opcode.info.pops → ∃ x st, σ.stack = x :: st := fun h =>
    exists_cons (show 1 ≤ σ.stack.length by omega)
  cases hc : i.combine with
  | some f =>
      obtain ⟨hp, hu⟩ := Instr.counts_of_combine hc
      obtain ⟨y, x, st, hs⟩ := exists_cons_cons (show 2 ≤ σ.stack.length by omega)
      have hv := h.meaning_two hc (hz st (by simp [hs]; omega)) eof fuel x y
      refine out _ b (Instr.effect_of_combine eof hc hs) (hf.stack _) ?_ (by rw [hs]; exact hv)
      rw [hp, hu, hs]
      rfl
  | none =>
      cases h with
      | push hv =>
          exact out _ b (Instr.effect_push eof hv) (hf.stack _) rfl
            (meaningAll_push eof fuel (hz σ.stack le_rfl 0 (by decide)) _)
      | read =>
          refine out _ { b with input := (Store.next eof σ.input).2 } rfl
            ⟨hf.pointer, rfl, hf.output, hf.slot, hf.other⟩ rfl ?_
          rw [meaningAll_read eof fuel (hz σ.stack le_rfl 0 (by decide)), View.input_stacked,
            hf.input, View.with_input_stacked]
          rfl
      | pop hp hb =>
          obtain ⟨x, st, hs⟩ := one le_rfl
          obtain ⟨hm, rfl⟩ := mem_of_slot? hp
          rw [hL.1] at hm
          rw [hs] at hl
          refine out _ (b.poke _ x) (Instr.effect_pop eof _ hs) (hf.poke hm x st) ?_ ?_
          · rw [hs]
            rfl
          · rw [hs]
            exact meaningAll_store ht hL hr hf hm hl eof fuel x
      | dup =>
          obtain ⟨x, st, hs⟩ := one le_rfl
          have hz := hz st (by simp [hs])
          exact out _ b (Instr.effect_dup eof hs) (hf.stack _) (by rw [hs]; rfl)
            (by rw [hs]; exact meaningAll_dup eof fuel (hz 1 (by decide)) (hz 2 (by decide)) x)
      | not =>
          obtain ⟨x, st, hs⟩ := one le_rfl
          have hz := hz st (by simp [hs])
          exact out _ b (Instr.effect_not eof hs) (hf.stack _) (by rw [hs]; rfl)
            (by rw [hs]; exact meaningAll_not eof fuel (hz 1 (by decide)) x)
      | write =>
          obtain ⟨x, st, hs⟩ := one le_rfl
          have hz := hz st (by simp [hs])
          refine out _ { b with output := σ.output ++ [x] } (Instr.effect_write eof hs)
            ⟨hf.pointer, hf.input, rfl, hf.slot, hf.other⟩ (by rw [hs]; rfl) ?_
          rw [hs, View.stacked, meaningAll_write eof fuel (hz 0 (by decide)), View.output_stacked,
            hf.output, View.with_output_stacked]
      | mark hi =>
          cases i with
          | reserve | unreserve | label => exact out σ b rfl hf rfl rfl
          | _ => cases hi
      | _ => cases hc

/-- **Lowered instructions in sequence take a picture to a picture.** -/
theorem LoweredAll.meaning {body : List Instr} (h : LoweredAll s body ops s') (ht : s.Tame)
    (hh : s'.high.toInt + 4 < 2 ^ 63) (hL : L.Of s) (hr : L.Free rest)
    (hp : L.Pictures rest s σ v) (eof : EofMode) (fuel : Nat) :
    ∃ σ' v', Instr.effectAll eof body σ = some σ' ∧ meaningAll eof fuel ops v = .done v' ∧
      L.Pictures rest s' σ' v' := by
  induction h generalizing σ v with
  | nil => exact ⟨σ, v, rfl, rfl, hp⟩
  | cons h _ t ih =>
      have hm := h.high_le
      have ht' := t.high_le
      obtain ⟨σ₁, v₁, he, hv, hp₁⟩ := h.meaning ht (by omega) hL hr hp eof fuel
      obtain ⟨σ', v', he', hv', hp'⟩ := ih (h.tame ht (by omega)) hh (hL.same h.same) hp₁
      refine ⟨σ', v', ?_, ?_, hp'⟩
      · rw [Instr.effectAll, he, Option.bind_some, he']
      · rw [meaningAll_append, hv, Ending.bind_done, hv']

/-! ### Cells on the tape -/

/-- Operations fit in two parts, the second counted from where the first leads. -/
theorem fitsAll_append {size : Nat} {p e : Int} {more : List MacroOp} :
    FitsAll size p e (ops ++ more) ↔
      FitsAll size p e ops ∧ FitsAll size (p + travel ops) e more := by
  induction ops generalizing p with
  | nil => simp [FitsAll, travel]
  | cons op rest ih => rw [List.cons_append, FitsAll, FitsAll, ih, travel, and_assoc, Int.add_assoc]

/-- The cells of a lowered instruction are between the first slot and the watermark.  `e` is where
the pointer stands, seen from the cursor. -/
theorem Lowered.fits (h : Lowered s i ops s') (ht : s.Tame) (hh : s'.high.toInt + 4 < 2 ^ 63)
    (hu : ∀ p ∈ s.slots, 0 ≤ p.depth.toInt ∧ p.depth.toInt ≤ s.high.toInt) {size : Nat}
    {base e : Int} (hb : 0 ≤ base) (hs : base + s'.high.toInt < size) (he : e ≤ 0)
    (he' : 0 ≤ base + s.reserved.toInt + e) :
    FitsAll size (base + s.depth.toInt) e ops ∧
      s.depth.toInt + travel ops = s'.depth.toInt := by
  have hm := h.high_le
  obtain ⟨hn, hd, hg⟩ := h.counts ht (by omega)
  have := ht.reserved
  have := ht.high
  have h₁ : (-1 : Int64).toInt = -1 := by decide
  have h₂ : (-2 : Int64).toInt = -2 := by decide
  generalize s'.depth.toInt = d' at *
  generalize s'.high.toInt = g' at *
  have hdot : Bytes.ascii "." = [0x2E] := rfl
  have hcomma : Bytes.ascii "," = [0x2C] := rfl
  cases h with
  | mark hi =>
      cases i with
      | reserve | unreserve | label =>
          simp [Instr.opcode, Opcode.info] at hd
          simp [FitsAll, travel, hd]
      | _ => cases hi
  | @pop name p hp hb =>
      have hl := hu p (mem_of_slot? hp).1
      have hc : (s.depth + -1).toInt = s.depth.toInt + -1 := by
        rw [ht.toInt_add (by omega) (by rw [h₁]; decide) (by rw [h₁]; decide), h₁]
      generalize s.depth + -1 = c at hc ⊢
      simp [Instr.opcode, Opcode.info, Instr.cells] at hn hd hg
      have ho := toInt_sub_of_bounds (a := p.depth) (b := c) (by omega) (by omega)
      simp [FitsAll, Fits, travel, used, moved, On, h₁, ho]
      omega
  | _ =>
      simp [Instr.opcode, Opcode.info, Instr.cells] at hn hd hg
      simp [FitsAll, Fits, travel, used, moved, textDisplacement, On, h₁, h₂, hdot, hcomma]
      omega

/-- Ways add up. -/
theorem travel_append (ops more : List MacroOp) :
    travel (ops ++ more) = travel ops + travel more := by
  induction ops with
  | nil => simp [travel]
  | cons op rest ih => rw [List.cons_append, travel, travel, ih, Int.add_assoc]

/-- **Instructions on the stack stay on a tape** that is longer than the highest cell. -/
theorem LoweredAll.fits {body : List Instr} (h : LoweredAll s body ops s') (ht : s.Tame)
    (hh : s'.high.toInt + 4 < 2 ^ 63) (hL : L.Of s) {size : Nat} {base e : Int} (hb : 0 ≤ base)
    (hs : base + s'.high.toInt < size) (he : e ≤ 0) (he' : 0 ≤ base + L.height.toInt + e) :
    FitsAll size (base + s.depth.toInt) e ops ∧
      s.depth.toInt + travel ops = s'.depth.toInt := by
  induction h with
  | nil => exact ⟨trivial, by simp [travel]⟩
  | @cons s s₁ _ _ _ _ _ h _ t ih =>
      have hm := h.high_le
      have hm' := t.high_le
      have hs₁ : base + s₁.high.toInt < size := by omega
      obtain ⟨hf, hd⟩ := h.fits ht (by omega) (hL.under ht) hb hs₁ he (by rwa [hL.2])
      obtain ⟨hf', hd'⟩ := ih (h.tame ht (by omega)) hh (hL.same h.same) hs
      rw [fitsAll_append, travel_append, Int.add_assoc base, hd]
      exact ⟨⟨hf, hf'⟩, by omega⟩

/-! ### Contracts -/

theorem properAll_append {ops more : List MacroOp} (h : ProperAll ops) (h' : ProperAll more) :
    ProperAll (ops ++ more) := by
  induction ops with
  | nil => exact h'
  | cons op rest ih => exact ⟨h.1, ih h.2⟩

/-- No control flow is among the operations of an instruction on the stack. -/
theorem Lowered.plain (h : Lowered s i ops s') : plainAll ops := by
  cases h <;> rfl

/-- The operations of instructions on the stack keep their contracts. -/
theorem LoweredAll.proper {body : List Instr} (h : LoweredAll s body ops s') : ProperAll ops := by
  induction h with
  | nil => exact trivial
  | cons h hv _ ih => exact properAll_append (properAll_of_validateAll hv h.plain) ih

end Lowering

end StackTape
