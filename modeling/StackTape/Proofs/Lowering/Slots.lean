import StackTape.Proofs.Lowering.Frame

/-!
# Slots laid out by the way

Straight-line code may lay out and release slots anywhere.  `Laid` lists what lowering an
instruction of it gives, and `Tidy` is what every instruction keeps, in whatever order slots come
and go: the cells that slots hold are counted right and none of them is above the watermark.  So
the operations stay between the first cell and the watermark (`LaidAll.fits`).
-/

namespace StackTape

namespace Frame

/-- Some slots of a list take no more cells than all of them. -/
theorem cells_le_of_subset {slots all : List Slot} (hn : slots.Nodup) (hs : slots ⊆ all)
    (hp : ∀ t ∈ all, 0 < t.size.toInt) : cells slots ≤ cells all := by
  obtain ⟨l, hl, hsub⟩ := hn.subperm hs
  unfold cells
  rw [← (hl.map _).sum_eq]
  refine (hsub.map _).sum_le_sum fun x hx => ?_
  obtain ⟨t, ht, rfl⟩ := List.mem_map.mp hx
  exact (hp t ht).le

end Frame

/-- A slot without its place. -/
def Placed.slot (p : Placed) : Slot := ⟨p.name, p.size⟩

namespace Lowering

open MacroOp

variable {s s' : Lowering} {i : Instr} {ops : List MacroOp} {all : List Slot} {t : Slot}

/-- What lowering an instruction of straight-line code gives. -/
inductive Laid (s : Lowering) : Instr → List MacroOp → Lowering → Prop where
  | eval {i : Instr} {ops : List MacroOp} {s' : Lowering} (hi : i.isEvaluation)
      (h : Lowered s i ops s') (hv : validateAll ops = .ok ()) : Laid s i ops s'
  | reserve {name : Bytes} {size : Int64} (hc : s.checkFrame name size = .ok ())
      (hn : s.slot? name = none) (hs : 0 < size.toInt) :
      Laid s (.reserve name size) [.go size] (s.withSlot name size)
  | unreserve {p : Placed} (hp : s.slot? p.name = some p) :
      Laid s (.unreserve p.name p.size) [.go (-p.size)] (s.withoutSlot p.name p.size)
  | control {i : Instr} (hi : i.opcode.isControl) : Laid s i [.control i] s

/-- An instruction that is accepted is laid out as one of the four cases says. -/
theorem Laid.of_step (hf : s.framed = false) (h : s.step i = .ok (ops, s')) : Laid s i ops s' := by
  cases i with
  | reserve name size =>
      obtain ⟨hc, hn, hs, rfl, rfl⟩ := reserve_eq_ok hf h
      exact .reserve hc hn hs
  | unreserve name size =>
      obtain ⟨⟨p, hp, rfl⟩, -, rfl, rfl⟩ := unreserve_eq_ok hf h
      obtain ⟨-, rfl⟩ := mem_of_slot? hp
      exact .unreserve hp
  | label | jump | cond =>
      rw [step] at h
      obtain ⟨-, rfl, rfl⟩ := emit_eq_ok h
      exact .control rfl
  | _ =>
      obtain ⟨hl, hv⟩ := Lowered.of_step rfl h
      exact .eval rfl hl hv

/-- The declared frame and the cells below depth zero stay as they are. -/
theorem Laid.same (h : Laid s i ops s') :
    s'.frame = s.frame ∧ s'.base = s.base ∧ s'.framed = s.framed := by
  cases h with
  | eval _ h =>
      rw [h.same]
      exact ⟨rfl, rfl, rfl⟩
  | reserve =>
      rw [withSlot, reach_same]
      exact ⟨rfl, rfl, rfl⟩
  | unreserve | control => exact ⟨rfl, rfl, rfl⟩

/-- The highest cell only rises. -/
theorem Laid.high_le (h : Laid s i ops s') : s.high.toInt ≤ s'.high.toInt := by
  cases h with
  | eval _ h => exact h.high_le
  | reserve =>
      rw [high_withSlot]
      exact le_max_left ..
  | unreserve | control => exact le_rfl

/-- A slot that the frame accepts is one of its own. -/
theorem mem_of_checkFrame {f : Frame} (hf : s.frame = some f) {name : Bytes} {size : Int64}
    (h : s.checkFrame name size = .ok ()) : ⟨name, size⟩ ∈ f.slots := by
  unfold checkFrame at h
  rw [hf] at h
  dsimp only at h
  split at h
  · cases h
  · next want hw =>
      split_ifs at h with he
      obtain ⟨u, hu, rfl⟩ := Option.map_eq_some_iff.mp hw
      obtain rfl : u.name = name := by simpa using List.find?_some hu
      rw [← he]
      exact List.mem_of_find?_eq_some hu

/-- A slot that is laid out is one of those that may be, and it is not empty. -/
theorem Laid.available (h : Laid s i ops s') (ht : Frame.slotOf? i = some t) :
    0 < t.size.toInt ∧ ∀ code, i ∈ code → t ∈ Frame.available s.frame code := by
  cases h with
  | reserve hc hn hs =>
      cases ht
      refine ⟨hs, fun code hi => ?_⟩
      cases hf : s.frame with
      | none => exact List.mem_filterMap.mpr ⟨_, hi, rfl⟩
      | some f => exact mem_of_checkFrame hf hc
  | eval hi | control hi =>
      cases i with
      | reserve => cases hi
      | _ => cases ht
  | unreserve => cases ht

/-! ### Counting the cells of slots -/

/-- The cells that slots hold are counted, below the watermark, and each slot is one of `all`. -/
structure Tidy (all : List Slot) (s : Lowering) : Prop where
  tame : s.Tame
  names : (s.slots.map (·.name)).Nodup
  known : ∀ p ∈ s.slots, p.slot ∈ all
  positive : ∀ p ∈ s.slots, 0 < p.size.toInt
  under : ∀ p ∈ s.slots, 0 ≤ p.depth.toInt ∧ p.depth.toInt + p.size.toInt ≤ s.high.toInt
  reserved : s.reserved.toInt = Frame.cells (s.slots.map Placed.slot)

/-- At the start there is no slot. -/
theorem tidy_start (frame : Option Frame) : Tidy all (start frame) :=
  ⟨⟨le_rfl, le_rfl, le_rfl⟩, List.nodup_nil, nofun, nofun, nofun, rfl⟩

theorem cells_append (front back : List Slot) :
    Frame.cells (front ++ back) = Frame.cells front + Frame.cells back := by
  simp [Frame.cells]

/-- A slot takes its own cells with it. -/
theorem cells_without {slots : List Placed} (hn : (slots.map (·.name)).Nodup) {p : Placed}
    (hp : p ∈ slots) :
    Frame.cells ((slots.filter fun q => q.name ≠ p.name).map Placed.slot) =
      Frame.cells (slots.map Placed.slot) - p.size.toInt := by
  -- no other slot has the name
  have he : (slots.filter fun q => q.name ≠ p.name) = slots.erase p := by
    rw [(List.Nodup.of_map _ hn).erase_eq_filter]
    refine List.filter_congr fun q hq => ?_
    have hiff : q.name = p.name ↔ q = p :=
      ⟨fun h => List.inj_on_of_nodup_map hn hq hp h, congrArg _⟩
    by_cases h : q = p <;> simp [h, hiff]
  have hs := ((List.perm_cons_erase hp).map Placed.slot).map (·.size.toInt) |>.sum_eq
  rw [he]
  simp only [List.map_cons, List.sum_cons] at hs
  unfold Frame.cells
  rw [hs]
  show _ = p.size.toInt + _ - p.size.toInt
  omega

/-- There is room for one slot more: together with those that are laid out it is within `all`. -/
theorem Tidy.cells_le (ht : Tidy all s) (hp : ∀ t ∈ all, 0 < t.size.toInt) {name : Bytes}
    {size : Int64} (hn : s.slot? name = none) (hm : ⟨name, size⟩ ∈ all) :
    s.reserved.toInt + size.toInt ≤ Frame.cells all := by
  -- slots of different names are different, so they are counted once each
  have hnames := nodup_names_append ht.names hn
  have hnodup : (s.slots.map Placed.slot ++ [Slot.mk name size]).Nodup := by
    refine List.Nodup.of_map Slot.name ?_
    simpa [List.map_append, Function.comp_def, Placed.slot] using hnames
  have hsub : s.slots.map Placed.slot ++ [Slot.mk name size] ⊆ all := by
    intro u hu
    rcases List.mem_append.mp hu with hu | hu
    · obtain ⟨p, hp, rfl⟩ := List.mem_map.mp hu
      exact ht.known p hp
    · obtain rfl : u = _ := List.mem_singleton.mp hu
      exact hm
  have hle := Frame.cells_le_of_subset hnodup hsub hp
  rw [cells_append, ← ht.reserved] at hle
  simpa using hle

/-- What the cursor and the slots need to be counted without wrapping. -/
structure Spacious (all : List Slot) (s : Lowering) : Prop where
  positive : ∀ t ∈ all, 0 < t.size.toInt
  cells : Frame.cells all < 2 ^ 62
  height : s.depth.toInt - s.reserved.toInt < 2 ^ 62
  high : s.high.toInt + 4 < 2 ^ 63

/-- A slot that is laid out makes no depth wrap around. -/
theorem Tidy.toInt_add (ht : Tidy all s) (hr : Spacious all s) {name : Bytes} {size : Int64}
    (hn : s.slot? name = none) (hm : ⟨name, size⟩ ∈ all) :
    (s.depth + size).toInt = s.depth.toInt + size.toInt ∧
      (s.reserved + size).toInt = s.reserved.toInt + size.toInt := by
  have hle := ht.cells_le hr.positive hn hm
  have hpos : 0 < size.toInt := hr.positive _ hm
  have := hr.cells
  have := hr.height
  have := ht.tame.reserved
  have := ht.tame.depth
  exact ⟨toInt_add_of_bounds (by omega) (by omega), toInt_add_of_bounds (by omega) (by omega)⟩

/-- Nor does one that is released. -/
theorem Tidy.toInt_sub (ht : Tidy all s) {p : Placed} (hp : p ∈ s.slots) :
    p.size.toInt ≤ s.reserved.toInt ∧
      (s.depth - p.size).toInt = s.depth.toInt - p.size.toInt ∧
      (s.reserved - p.size).toInt = s.reserved.toInt - p.size.toInt := by
  have hpos := ht.positive p hp
  -- what is left of the counted cells belongs to the other slots
  have hle : 0 ≤ Frame.cells ((s.slots.filter fun q => q.name ≠ p.name).map Placed.slot) := by
    refine Frame.cells_nonneg fun u hu => ?_
    obtain ⟨q, hq, rfl⟩ := List.mem_map.mp hu
    exact ht.positive q (List.mem_of_mem_filter hq)
  rw [cells_without ht.names hp, ← ht.reserved] at hle
  have := ht.tame.depth
  have := s.depth.toInt_lt
  exact ⟨by omega, toInt_sub_of_bounds (by omega) (by omega),
    toInt_sub_of_bounds (by omega) (by omega)⟩

/-- Instructions on the stack leave the slots as they are. -/
theorem Tidy.eval (ht : Tidy all s) (hh : s.high.toInt + 4 < 2 ^ 63) (h : Lowered s i ops s') :
    Tidy all s' := by
  have hle := h.high_le
  have hs : s'.slots = s.slots := by rw [h.same]
  have hre : s'.reserved = s.reserved := by rw [h.same]
  refine ⟨h.tame ht.tame hh, ?_, ?_, ?_, fun p hp => ?_, ?_⟩
  · rw [hs]
    exact ht.names
  · rw [hs]
    exact ht.known
  · rw [hs]
    exact ht.positive
  · have := ht.under p (hs ▸ hp)
    omega
  · rw [hs, hre]
    exact ht.reserved

/-- **Laying a slot out keeps the slots tidy**, if it was not there. -/
theorem Tidy.withSlot (ht : Tidy all s) (hr : Spacious all s) {name : Bytes} {size : Int64}
    (hn : s.slot? name = none) (hm : ⟨name, size⟩ ∈ all) : Tidy all (s.withSlot name size) := by
  obtain ⟨hd, hre⟩ := ht.toInt_add hr hn hm
  have hpos : 0 < size.toInt := hr.positive _ hm
  have hh := high_withSlot s name size
  have h₀ := ht.tame.reserved
  have h₁ := ht.tame.depth
  have h₂ := ht.tame.high
  refine ⟨⟨?_, ?_, ?_⟩, ?_, ?_, ?_, ?_, ?_⟩
  · rw [reserved_withSlot]
    omega
  · rw [reserved_withSlot, depth_withSlot]
    omega
  · rw [depth_withSlot]
    omega
  · rw [slots_withSlot, List.map_append]
    exact nodup_names_append ht.names hn
  · simpa [or_imp, forall_and] using ⟨ht.known, hm⟩
  · simpa [or_imp, forall_and] using ⟨ht.positive, hpos⟩
  · intro p hp
    rw [slots_withSlot, List.mem_append, List.mem_singleton] at hp
    rcases hp with hp | rfl
    · have := ht.under p hp
      omega
    · show 0 ≤ s.depth.toInt ∧ s.depth.toInt + size.toInt ≤ _
      omega
  · rw [reserved_withSlot, slots_withSlot, List.map_append, cells_append, hre, ht.reserved]
    simp [Placed.slot]

/-- So does releasing one, whichever it is. -/
theorem Tidy.withoutSlot (ht : Tidy all s) {p : Placed} (hp : p ∈ s.slots) :
    Tidy all (s.withoutSlot p.name p.size) := by
  obtain ⟨hle, hd, hre⟩ := ht.toInt_sub hp
  have hpos := ht.positive p hp
  have h₀ := ht.tame.reserved
  have h₁ := ht.tame.depth
  have h₂ := ht.tame.high
  have hsub : ∀ q ∈ (s.withoutSlot p.name p.size).slots, q ∈ s.slots :=
    fun q hq => List.mem_of_mem_filter hq
  refine ⟨⟨?_, ?_, ?_⟩, ?_, ?_, ?_, ?_, ?_⟩
  · show 0 ≤ (s.reserved - p.size).toInt
    omega
  · show (s.reserved - p.size).toInt ≤ (s.depth - p.size).toInt
    omega
  · show (s.depth - p.size).toInt ≤ s.high.toInt
    omega
  · exact ht.names.sublist (List.filter_sublist.map _)
  · exact fun q hq => ht.known q (hsub q hq)
  · exact fun q hq => ht.positive q (hsub q hq)
  · exact fun q hq => ht.under q (hsub q hq)
  · show (s.reserved - p.size).toInt = _
    rw [hre, ht.reserved]
    exact (cells_without ht.names hp).symm

/-- **Every instruction leaves the slots tidy**, whichever is released. -/
theorem Laid.tidy (h : Laid s i ops s') (ht : Tidy all s) (hr : Spacious all s)
    (ha : ∀ t, Frame.slotOf? i = some t → t ∈ all) : Tidy all s' := by
  cases h with
  | eval _ h => exact ht.eval hr.high h
  | reserve _ hn _ => exact ht.withSlot hr hn (ha _ rfl)
  | unreserve hp => exact ht.withoutSlot (mem_of_slot? hp).1
  | control => exact ht

/-! ### Cells on the tape -/

/-- **An instruction stays on a tape** that is longer than its highest cell. -/
theorem Laid.fits (h : Laid s i ops s') (hi : ¬ i.opcode.isControl) (ht : Tidy all s)
    (hr : Spacious all s) (ha : ∀ t, Frame.slotOf? i = some t → t ∈ all)
    (hh : s'.high.toInt + 4 < 2 ^ 63) {size : Nat} (hs : s'.high.toInt < size) :
    FitsAll size s.depth.toInt 0 ops ∧ s.depth.toInt + travel ops = s'.depth.toInt := by
  have h₀ := ht.tame.reserved
  have h₁ := ht.tame.depth
  have h₂ := ht.tame.high
  have hle := h.high_le
  cases h with
  | eval _ h =>
      have hu : ∀ p ∈ s.slots, 0 ≤ p.depth.toInt ∧ p.depth.toInt ≤ s.high.toInt := by
        intro p hp
        have := ht.under p hp
        have := ht.positive p hp
        omega
      have hfit := h.fits ht.tame hh hu (le_refl 0) (show 0 + s'.high.toInt < size by omega)
        (le_refl 0) (by omega)
      rwa [Int.zero_add] at hfit
  | @reserve name n _ hn hz =>
      obtain ⟨hd, -⟩ := ht.toInt_add hr hn (ha _ rfl)
      rw [high_withSlot] at hs
      rw [depth_withSlot, hd]
      simp [FitsAll, Fits, travel, moved, On]
      omega
  | @unreserve p hp =>
      have hm := (mem_of_slot? hp).1
      obtain ⟨hle', hd, -⟩ := ht.toInt_sub hm
      have hpos := ht.positive p hm
      have hd' : (s.withoutSlot p.name p.size).depth.toInt = s.depth.toInt - p.size.toInt := hd
      have hs' : s.high.toInt < size := hs
      rw [hd']
      simp [FitsAll, Fits, travel, moved, On, toInt_neg_of_nonneg hpos.le]
      omega
  | control hc => exact absurd hc hi

/-- Its operations keep their contracts. -/
theorem Laid.proper (h : Laid s i ops s') (hi : ¬ i.opcode.isControl) : ProperAll ops := by
  cases h with
  | eval _ h hv => exact properAll_of_validateAll hv h.plain
  | reserve | unreserve => exact ⟨trivial, trivial⟩
  | control hc => exact absurd hc hi

/-! ### Instructions in sequence -/

/-- What lowering straight-line code gives. -/
inductive LaidAll : Lowering → List Instr → List MacroOp → Lowering → Prop where
  | nil (s : Lowering) : LaidAll s [] [] s
  | cons {s s₁ s' : Lowering} {i : Instr} {rest : List Instr} {ops more : List MacroOp}
      (h : Laid s i ops s₁) (t : LaidAll s₁ rest more s') : LaidAll s (i :: rest) (ops ++ more) s'

variable {code : List Instr}

/-- Code that is accepted is laid out instruction by instruction. -/
theorem LaidAll.of_lowerFrom {index : Nat} (hf : s.framed = false)
    (h : s.lowerFrom index code = .ok (ops, s')) : LaidAll s code ops s' := by
  induction code generalizing s index ops with
  | nil =>
      cases h
      exact .nil _
  | cons i rest ih =>
      obtain ⟨ops₁, s₁, more, hs, hr, rfl⟩ := lowerFrom_cons h
      have hl := Laid.of_step hf hs
      exact .cons hl (ih (hl.same.2.2.trans hf) hr)

theorem LaidAll.high_le (h : LaidAll s code ops s') : s.high.toInt ≤ s'.high.toInt := by
  induction h with
  | nil => exact le_rfl
  | cons h _ ih => exact h.high_le.trans ih

/-- The declared frame and the cells below depth zero stay as they are. -/
theorem LaidAll.same (h : LaidAll s code ops s') :
    s'.frame = s.frame ∧ s'.base = s.base ∧ s'.framed = s.framed := by
  induction h with
  | nil => exact ⟨rfl, rfl, rfl⟩
  | cons h _ ih =>
      obtain ⟨hf, hb, hfr⟩ := h.same
      exact ⟨ih.1.trans hf, ih.2.1.trans hb, ih.2.2.trans hfr⟩

/-- The operations of code without control flow keep their contracts. -/
theorem LaidAll.proper (h : LaidAll s code ops s') (hi : ∀ i ∈ code, ¬ i.opcode.isControl) :
    ProperAll ops := by
  induction h with
  | nil => exact trivial
  | cons h _ ih =>
      exact properAll_append (h.proper (hi _ (by simp))) (ih fun j hj => hi j (by simp [hj]))

/-- The slots of code that is lowered are some of those that may be laid out. -/
theorem LaidAll.available (h : LaidAll s code ops s') {all : List Instr} (hsub : code ⊆ all) :
    ∀ i ∈ code, ∀ t, Frame.slotOf? i = some t →
      0 < t.size.toInt ∧ t ∈ Frame.available s.frame all := by
  induction h with
  | nil => nofun
  | @cons s s₁ _ i rest _ _ h _ ih =>
      intro j hj t ht
      rcases List.mem_cons.mp hj with rfl | hj
      · obtain ⟨hp, hm⟩ := h.available ht
        exact ⟨hp, hm all (hsub (by simp))⟩
      · have := ih (fun k hk => hsub (by simp [hk])) j hj t ht
        rwa [h.same.1] at this

/-- The slots of code are among `all`, none of which is empty, and they are not too large to be
counted. -/
structure Modest (all : List Slot) (code : List Instr) : Prop where
  among : ∀ i ∈ code, ∀ t, Frame.slotOf? i = some t → t ∈ all
  positive : ∀ t ∈ all, 0 < t.size.toInt
  cells : Frame.cells all < 2 ^ 62

/-- A part of the code lays out no more. -/
theorem Modest.subset (h : Modest all code) {part : List Instr} (hs : part ⊆ code) :
    Modest all part :=
  ⟨fun i hi => h.among i (hs hi), h.positive, h.cells⟩

theorem Modest.tail {rest : List Instr} (h : Modest all (i :: rest)) : Modest all rest :=
  h.subset (List.subset_cons_self ..)

theorem Modest.head {rest : List Instr} (h : Modest all (i :: rest)) :
    ∀ t, Frame.slotOf? i = some t → t ∈ all :=
  h.among i List.mem_cons_self

/-- The slots of code that is lowered are modest if those that may be laid out are few. -/
theorem LaidAll.modest (h : LaidAll s code ops s')
    (hp : ∀ f, s.frame = some f → ∀ t ∈ f.slots, 0 < t.size.toInt)
    (hc : Frame.cells (Frame.available s.frame code) < 2 ^ 62) :
    Modest (Frame.available s.frame code) code where
  among i hi t ht := (h.available (List.Subset.refl _) i hi t ht).2
  positive t ht := by
    cases hf : s.frame with
    | some f =>
        rw [hf] at ht
        exact hp f hf t ht
    | none =>
        rw [hf] at ht
        obtain ⟨i, hi, hs⟩ := List.mem_filterMap.mp ht
        exact (h.available (List.Subset.refl _) i hi t hs).1
  cells := hc

/-- Modest code leaves room for every slot. -/
theorem Tidy.spacious (ht : Tidy all s) (hm : Modest all code) (hh : s.high.toInt < 2 ^ 62) :
    Spacious all s := by
  have := ht.tame.reserved
  have := ht.tame.high
  exact ⟨hm.positive, hm.cells, by omega, by omega⟩

/-- **Straight-line code works between its first cell and the watermark.** -/
theorem LaidAll.fits (h : LaidAll s code ops s') (hi : ∀ i ∈ code, ¬ i.opcode.isControl)
    (hm : Modest all code) (ht : Tidy all s) (hh : s'.high.toInt < 2 ^ 62) {size : Nat}
    (hs : s'.high.toInt < size) :
    FitsAll size s.depth.toInt 0 ops ∧ s.depth.toInt + travel ops = s'.depth.toInt := by
  induction h with
  | nil => exact ⟨trivial, by simp [travel]⟩
  | @cons s s₁ s' i rest ops more h t ih =>
      have hle := h.high_le
      have hle' := t.high_le
      have hr := ht.spacious hm (by omega)
      obtain ⟨hf, hd⟩ := h.fits (hi i (by simp)) ht hr hm.head (by omega)
        (show s₁.high.toInt < size by omega)
      obtain ⟨hf', hd'⟩ :=
        ih (fun j hj => hi j (by simp [hj])) hm.tail (h.tidy ht hr hm.head) hh hs
      rw [fitsAll_append, travel_append, hd]
      exact ⟨⟨hf, hf'⟩, by omega⟩

end Lowering

end StackTape
