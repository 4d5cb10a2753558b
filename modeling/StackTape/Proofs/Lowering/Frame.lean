import StackTape.Proofs.Lowering.Layout

/-!
# Frames on the tape

What lowering makes of the instructions that lay out a frame and of those that release it.  A frame
that lowering accepts has different names and positive sizes, and `Sized.layout` puts every slot at
its offset in the frame (`Sized.offset?_eq_some_iff`).  Either list of instructions only moves the
pointer.
-/

namespace StackTape

namespace Frame

theorem has_iff {f : Frame} {name : Bytes} : f.has name ↔ name ∈ f.names := by
  simp [has, find?, names]

/-- The names are different, so a slot is found by its name. -/
theorem size?_of_mem {f : Frame} {t : Slot} (hn : f.names.Nodup) (ht : t ∈ f.slots) :
    f.size? t.name = some t.size := by
  obtain ⟨u, hu⟩ : ∃ u, f.find? t.name = some u :=
    Option.isSome_iff_exists.mp (has_iff.mpr (List.mem_map_of_mem ht))
  have he : u.name = t.name := by simpa using List.find?_some hu
  obtain rfl : u = t := List.inj_on_of_nodup_map hn (List.mem_of_find?_eq_some hu) ht he
  rw [size?, hu, Option.map_some]

/-- The slots that code may lay out: those of the declared frame, or else its own. -/
def available (frame : Option Frame) (code : List Instr) : List Slot :=
  match frame with
  | some f => f.slots
  | none => code.filterMap slotOf?

/-- The number of cells of a list of slots. -/
def cells (slots : List Slot) : Int := (slots.map (·.size.toInt)).sum

/-- The slots laid out one after another from a depth on. -/
def placedAt (d : Int64) (slots : List Slot) : List Placed :=
  (placeFrom d slots).map fun e => ⟨e.1.name, e.2, e.1.size⟩

@[simp] theorem placedAt_nil (d : Int64) : placedAt d [] = [] := rfl

@[simp] theorem placedAt_cons (d : Int64) (t : Slot) (slots : List Slot) :
    placedAt d (t :: slots) = ⟨t.name, d, t.size⟩ :: placedAt (d + t.size) slots := rfl

@[simp] theorem extent_nil : extent [] = 0 := rfl

/-- Sizes may be summed from anywhere. -/
theorem foldl_size (d : Int64) (slots : List Slot) :
    slots.foldl (fun sum s => sum + s.size) d = d + extent slots := by
  induction slots generalizing d with
  | nil => simp
  | cons t slots ih =>
      rw [extent, List.foldl_cons, List.foldl_cons, ih, ih, Int64.zero_add, Int64.add_assoc]

@[simp] theorem extent_cons (t : Slot) (slots : List Slot) :
    extent (t :: slots) = t.size + extent slots := by
  rw [extent, List.foldl_cons, foldl_size, Int64.zero_add]

@[simp] theorem cells_nil : cells [] = 0 := rfl

@[simp] theorem cells_cons (t : Slot) (slots : List Slot) :
    cells (t :: slots) = t.size.toInt + cells slots := by
  simp [cells]

section

variable {slots : List Slot} (hp : ∀ t ∈ slots, 0 < t.size.toInt)

include hp

/-- Slots of positive sizes take up cells. -/
theorem cells_nonneg : 0 ≤ cells slots := by
  induction slots with
  | nil => exact le_rfl
  | cons t slots ih =>
      have := hp t (by simp)
      have := ih fun u hu => hp u (by simp [hu])
      rw [cells_cons]
      omega

/-- No slot is empty, so there are no more slots than cells. -/
theorem length_le_cells : (slots.length : Int) ≤ cells slots := by
  induction slots with
  | nil => exact le_rfl
  | cons t slots ih =>
      obtain ⟨ht, hr⟩ := List.forall_mem_cons.mp hp
      have hrest := ih hr
      rw [cells_cons, List.length_cons]
      omega

/-- Sizes that are not too large are summed without wrapping. -/
theorem toInt_extent (hs : cells slots < 2 ^ 63) : (extent slots).toInt = cells slots := by
  induction slots with
  | nil => rfl
  | cons t slots ih =>
      obtain ⟨ht, hr⟩ := List.forall_mem_cons.mp hp
      have := cells_nonneg hr
      rw [cells_cons] at hs ⊢
      have he := ih hr (by omega)
      rw [extent_cons, toInt_add_of_bounds (by omega) (by omega), he]

/-- Slots laid out one after another stand between their start and their end. -/
theorem placedAt_bounds {d : Int64} (hd : 0 ≤ d.toInt) (hs : d.toInt + cells slots < 2 ^ 63) :
    ∀ p ∈ placedAt d slots, d.toInt ≤ p.depth.toInt ∧ p.depth.toInt < d.toInt + cells slots := by
  induction slots generalizing d with
  | nil => simp
  | cons t slots ih =>
      obtain ⟨ht, hr⟩ := List.forall_mem_cons.mp hp
      have := cells_nonneg hr
      rw [cells_cons] at hs ⊢
      have he : (d + t.size).toInt = d.toInt + t.size.toInt :=
        toInt_add_of_bounds (by omega) (by omega)
      intro p hp
      rcases List.mem_cons.mp hp with rfl | hp
      · exact ⟨le_rfl, by show d.toInt < _; omega⟩
      · have := ih hr (by omega) (by omega) p hp
        omega

/-- No two of them stand at the same depth. -/
theorem nodup_depth_placedAt {d : Int64} (hd : 0 ≤ d.toInt) (hs : d.toInt + cells slots < 2 ^ 63) :
    ((placedAt d slots).map (·.depth)).Nodup := by
  induction slots generalizing d with
  | nil => simp
  | cons t slots ih =>
      obtain ⟨ht, hr⟩ := List.forall_mem_cons.mp hp
      have := cells_nonneg hr
      rw [cells_cons] at hs
      have he : (d + t.size).toInt = d.toInt + t.size.toInt :=
        toInt_add_of_bounds (by omega) (by omega)
      rw [placedAt_cons, List.map_cons, List.nodup_cons]
      refine ⟨fun hm => ?_, ih hr (by omega) (by omega)⟩
      obtain ⟨p, hp, he'⟩ := List.mem_map.mp hm
      have hb := placedAt_bounds hr (show 0 ≤ (d + t.size).toInt by omega) (by omega) p hp
      have he' : p.depth = d := he'
      rw [he'] at hb
      omega

end

/-- They are laid out under their own names, in order. -/
theorem names_placedAt (d : Int64) (slots : List Slot) :
    (placedAt d slots).map (·.name) = slots.map (·.name) := by
  induction slots generalizing d with
  | nil => rfl
  | cons t slots ih => rw [placedAt_cons, List.map_cons, List.map_cons, ih]

/-- A slot is laid out behind the slots before it. -/
theorem mem_placedAt {name : Bytes} {slots : List Slot} (hn : name ∈ slots.map (·.name))
    (d : Int64) :
    ∃ p ∈ placedAt d slots, p.name = name ∧
      p.depth = d + extent (slots.takeWhile fun s => s.name ≠ name) := by
  induction slots generalizing d with
  | nil => cases hn
  | cons t slots ih =>
      by_cases ht : t.name = name
      · exact ⟨_, List.mem_cons_self, ht, by simp [ht]⟩
      · have hr : name ∈ slots.map (·.name) := by
          rcases List.mem_cons.mp hn with h | h
          · exact absurd h.symm ht
          · exact h
        obtain ⟨p, hp, hpn, hpd⟩ := ih hr (d + t.size)
        refine ⟨p, List.mem_cons_of_mem _ hp, hpn, ?_⟩
        rw [hpd, List.takeWhile_cons_of_pos (by simpa using ht), extent_cons, Int64.add_assoc]

/-- Different names, positive sizes, and not too many cells. -/
structure Sized (f : Frame) : Prop where
  names : f.names.Nodup
  positive : ∀ t ∈ f.slots, 0 < t.size.toInt
  small : cells f.slots < 2 ^ 62

variable {f : Frame}

/-- The total size is the number of cells. -/
theorem Sized.toInt_totalSize (hf : f.Sized) : f.totalSize.toInt = cells f.slots := by
  have := hf.small
  exact toInt_extent hf.positive (by omega)

/-- With the cursor and the watermark just above a frame the counts are in order. -/
theorem Sized.tame {s : Lowering} (hf : f.Sized) (hr : s.reserved = f.totalSize)
    (hd : s.depth = f.totalSize) (hh : s.high = f.totalSize) : s.Tame := by
  have hn := cells_nonneg hf.positive
  rw [← hf.toInt_totalSize] at hn
  exact ⟨by rwa [hr], by rw [hr, hd], by rw [hd, hh]⟩

/-- The slots of a frame, the first one at the cell `origin`. -/
def Sized.layout (hf : f.Sized) (origin : Int64) : Layout where
  slots := placedAt 0 f.slots
  height := f.totalSize
  origin := origin
  nonneg := by
    rw [hf.toInt_totalSize]
    exact cells_nonneg hf.positive
  small := by
    rw [hf.toInt_totalSize]
    exact hf.small
  names := by
    rw [names_placedAt]
    exact hf.names
  depths := by
    have := hf.small
    exact nodup_depth_placedAt hf.positive le_rfl (by rw [Int64.toInt_zero]; omega)
  below p hp := by
    have := hf.small
    have := placedAt_bounds hf.positive le_rfl (by rw [Int64.toInt_zero]; omega) p hp
    rw [hf.toInt_totalSize]
    simpa using this

/-- **Every slot is laid out at its offset.** -/
theorem Sized.offset?_eq_some_iff (hf : f.Sized) (origin : Int64) {name : Bytes} {d : Int64} :
    f.offset? name = some d ↔ ∃ p ∈ (hf.layout origin).slots, p.name = name ∧ p.depth = d := by
  have hh : f.has name = true ↔ name ∈ f.slots.map (·.name) := by
    simp [has, find?]
  unfold offset?
  constructor
  · intro h
    split_ifs at h with hn
    obtain ⟨p, hp, hpn, hpd⟩ := mem_placedAt (hh.mp hn) 0
    refine ⟨p, hp, hpn, ?_⟩
    rw [hpd, Int64.zero_add]
    exact Option.some.inj h
  · rintro ⟨p, hp, rfl, rfl⟩
    have hn : p.name ∈ f.slots.map (·.name) := by
      rw [← names_placedAt 0]
      exact List.mem_map_of_mem hp
    obtain ⟨q, hq, hqn, hqd⟩ := mem_placedAt hn 0
    obtain rfl : q = p := List.inj_on_of_nodup_map (hf.layout origin).names hq hp hqn
    rw [if_pos (hh.mpr hn), hqd, Int64.zero_add]

end Frame

namespace Lowering

open MacroOp

variable {s s' : Lowering} {ops : List MacroOp}

/-- The state after a slot is laid out at the cursor. -/
def withSlot (s : Lowering) (name : Bytes) (size : Int64) : Lowering :=
  ({ s with
    slots := s.slots ++ [⟨name, s.depth, size⟩]
    depth := s.depth + size
    reserved := s.reserved + size } : Lowering).reach (s.depth + size)

@[simp] theorem slots_withSlot (s : Lowering) (name : Bytes) (size : Int64) :
    (s.withSlot name size).slots = s.slots ++ [⟨name, s.depth, size⟩] := by
  rw [withSlot, reach_same]

@[simp] theorem depth_withSlot (s : Lowering) (name : Bytes) (size : Int64) :
    (s.withSlot name size).depth = s.depth + size := by
  rw [withSlot, reach_same]

@[simp] theorem reserved_withSlot (s : Lowering) (name : Bytes) (size : Int64) :
    (s.withSlot name size).reserved = s.reserved + size := by
  rw [withSlot, reach_same]

/-- A slot raises the highest cell to its end. -/
theorem high_withSlot (s : Lowering) (name : Bytes) (size : Int64) :
    (s.withSlot name size).high.toInt = max s.high.toInt (s.depth + size).toInt :=
  toInt_reach _ _

/-- The state after a slot is released. -/
def withoutSlot (s : Lowering) (name : Bytes) (size : Int64) : Lowering :=
  { s with
    slots := s.slots.filter fun q => q.name ≠ name
    depth := s.depth - size
    reserved := s.reserved - size }

/-- **What reserving a slot asks for, and what it gives.** -/
theorem reserve_eq_ok {name : Bytes} {size : Int64} (hf : s.framed = false)
    (h : s.reserve name size = .ok (ops, s')) :
    s.checkFrame name size = .ok () ∧ s.slot? name = none ∧ 0 < size.toInt ∧ ops = [.go size] ∧
      s' = s.withSlot name size := by
  unfold reserve at h
  obtain ⟨⟨⟩, hc, h⟩ := bind_eq_ok h
  rw [if_neg (by simp [hf])] at h
  dsimp only at h
  split at h
  · cases h
  · next hn =>
      split at h
      · cases h
      · next hs =>
          obtain ⟨-, rfl, rfl⟩ := emit_eq_ok h
          rw [Int64.le_iff_toInt_le, Int64.toInt_zero, not_le] at hs
          exact ⟨hc, by simpa using hn, hs, rfl, rfl⟩

/-- **What releasing a slot asks for, and what it gives**: the slot is there with that size, but not
that it is the last one. -/
theorem unreserve_eq_ok {name : Bytes} {size : Int64} (hf : s.framed = false)
    (h : s.unreserve name size = .ok (ops, s')) :
    (∃ p, s.slot? name = some p ∧ p.size = size) ∧ 0 ≤ (s.depth - size).toInt ∧
      ops = [.go (-size)] ∧ s' = s.withoutSlot name size := by
  unfold unreserve at h
  obtain ⟨_, _, h⟩ := bind_eq_ok h
  rw [if_neg (by simp [hf])] at h
  split at h
  · cases h
  · next p hp =>
      dsimp only at h
      split at h
      · cases h
      · next hn =>
          split at h
          · cases h
          · next hs =>
              obtain ⟨-, rfl, rfl⟩ := emit_eq_ok h
              obtain rfl : p.size = size := not_not.mp hn
              rw [Int64.lt_iff_toInt_lt, Int64.toInt_zero, not_lt] at hs
              exact ⟨⟨p, hp, rfl⟩, hs, rfl, rfl⟩

/-- The first instruction is accepted and the rest is lowered behind it. -/
theorem lowerFrom_cons {i : Instr} {rest : List Instr} {index : Nat}
    (h : s.lowerFrom index (i :: rest) = .ok (ops, s')) :
    ∃ ops₁ s₁ more, s.step i = .ok (ops₁, s₁) ∧
      s₁.lowerFrom (index + 1) rest = .ok (more, s') ∧ ops = ops₁ ++ more := by
  rw [lowerFrom] at h
  split at h
  · cases h
  · next ops₁ s₁ hs =>
      split at h
      · cases h
      · next more s₂ hr =>
          cases h
          exact ⟨ops₁, s₁, more, hs, hr, rfl⟩

/-- Code that is accepted is accepted in two parts, the second lowered where the first ended. -/
theorem lowerFrom_append {front back : List Instr} {index : Nat}
    (h : s.lowerFrom index (front ++ back) = .ok (ops, s')) :
    ∃ ops₁ s₁ more, s.lowerFrom index front = .ok (ops₁, s₁) ∧
      s₁.lowerFrom (index + front.length) back = .ok (more, s') ∧ ops = ops₁ ++ more := by
  induction front generalizing s index ops with
  | nil => exact ⟨[], s, ops, rfl, h, rfl⟩
  | cons i rest ih =>
      obtain ⟨ops₁, s₁, more, hs, hr, rfl⟩ := lowerFrom_cons h
      obtain ⟨ops₂, s₂, more', hf, hb, rfl⟩ := ih hr
      refine ⟨ops₁ ++ ops₂, s₂, more', ?_, ?_, by simp⟩
      · rw [lowerFrom, hs]
        simp only [hf]
      · rwa [List.length_cons, Nat.add_comm rest.length, ← Nat.add_assoc]

/-! ### Laying out -/

/-- Slots are laid out above the cursor. -/
structure Reserved (slots : List Slot) (s s' : Lowering) (ops : List MacroOp) : Prop where
  positive : ∀ t ∈ slots, 0 < t.size.toInt
  names : (s'.slots.map (·.name)).Nodup
  ops : ops = slots.map fun t => .go t.size
  placed : s'.slots = s.slots ++ Frame.placedAt s.depth slots
  depth : s'.depth = s.depth + Frame.extent slots
  reserved : s'.reserved = s.reserved + Frame.extent slots
  base : s'.base = s.base
  framed : s'.framed = false

/-- A name that is not found is not there. -/
theorem slot?_eq_none {name : Bytes} (h : s.slot? name = none) : name ∉ s.slots.map (·.name) := by
  intro hm
  obtain ⟨p, hp, rfl⟩ := List.mem_map.mp hm
  simpa using List.find?_eq_none.mp h p hp

theorem nodup_names_append (hn : (s.slots.map (·.name)).Nodup) {name : Bytes}
    (h : s.slot? name = none) : (s.slots.map (·.name) ++ [name]).Nodup := by
  rw [List.nodup_append]
  refine ⟨hn, by simp, ?_⟩
  rintro a ha b hb rfl
  obtain rfl : a = name := by simpa using hb
  exact slot?_eq_none h ha

/-- Reserving slots one after another lays all of them out above the cursor. -/
theorem reserved_of_lowerFrom {slots : List Slot} {index : Nat}
    (h : s.lowerFrom index (slots.map fun t => .reserve t.name t.size) = .ok (ops, s'))
    (hf : s.framed = false) (hn : (s.slots.map (·.name)).Nodup) :
    Reserved slots s s' ops := by
  induction slots generalizing s index ops with
  | nil =>
      cases h
      exact ⟨by simp, hn, rfl, by simp, by simp, by simp, rfl, hf⟩
  | cons t slots ih =>
      obtain ⟨ops₁, s₁, more, hs, hr, rfl⟩ := lowerFrom_cons h
      obtain ⟨-, hnone, hpos, rfl, rfl⟩ := reserve_eq_ok hf hs
      rw [withSlot, reach_same] at hr
      have hn₁ : ((s.slots ++ [Placed.mk t.name s.depth t.size]).map (·.name)).Nodup := by
        rw [List.map_append]
        exact nodup_names_append hn hnone
      obtain ⟨hp, hns, rfl, hpl, hd, hre, hb, hfr⟩ := ih hr hf hn₁
      refine ⟨?_, hns, rfl, ?_, ?_, ?_, hb, hfr⟩
      · intro u hu
        rcases List.mem_cons.mp hu with rfl | hu
        · exact hpos
        · exact hp u hu
      · rw [hpl, List.append_assoc]
        rfl
      · rw [hd, Frame.extent_cons, Int64.add_assoc]
      · rw [hre, Frame.extent_cons, Int64.add_assoc]

/-- The watermark rises with the cursor. -/
theorem high_of_lowerFrom {slots : List Slot} {index : Nat}
    (h : s.lowerFrom index (slots.map fun t => .reserve t.name t.size) = .ok (ops, s'))
    (hf : s.framed = false) (hp : ∀ t ∈ slots, 0 < t.size.toInt) (hd : 0 ≤ s.depth.toInt)
    (hs : s.depth.toInt + Frame.cells slots < 2 ^ 63) (hh : s.high = s.depth) :
    s'.high = s'.depth := by
  induction slots generalizing s index ops with
  | nil =>
      cases h
      exact hh
  | cons t slots ih =>
      obtain ⟨ht, hr⟩ := List.forall_mem_cons.mp hp
      have hc := Frame.cells_nonneg hr
      rw [Frame.cells_cons] at hs
      have he : (s.depth + t.size).toInt = s.depth.toInt + t.size.toInt :=
        toInt_add_of_bounds (by omega) (by omega)
      obtain ⟨ops₁, s₁, more, hst, hrest, rfl⟩ := lowerFrom_cons h
      obtain ⟨-, -, -, rfl, rfl⟩ := reserve_eq_ok hf hst
      have hlt : s.high < s.depth + t.size := by
        rw [Int64.lt_iff_toInt_lt, hh, he]
        omega
      rw [withSlot, reach, if_pos hlt] at hrest
      exact ih hrest hf hr (show 0 ≤ (s.depth + t.size).toInt by omega)
        (show (s.depth + t.size).toInt + Frame.cells slots < 2 ^ 63 by omega) rfl

/-- **A frame that is laid out on an empty tape** has a layout, and the cursor stands above it. -/
theorem layout_of_lowerFrom {f : Frame} {frame : Option Frame} {base : Int64} {index : Nat}
    (h : ({ frame, base } : Lowering).lowerFrom index f.reserves = .ok (ops, s'))
    (hs : Frame.cells f.slots < 2 ^ 62) :
    f.Sized ∧ s'.slots = Frame.placedAt 0 f.slots ∧ s'.reserved = f.totalSize ∧
      s'.depth = f.totalSize ∧ s'.high = f.totalSize ∧ s'.base = base ∧ s'.framed = false ∧
      ops = f.slots.map fun t => .go t.size := by
  obtain ⟨hp, hn, rfl, hpl, hd, hr, hb, hfr⟩ := reserved_of_lowerFrom h rfl List.nodup_nil
  have hh := high_of_lowerFrom h rfl hp le_rfl (show (0 : Int64).toInt + _ < _ by
    rw [Int64.toInt_zero]
    omega) rfl
  have hd : s'.depth = f.totalSize := hd.trans (Int64.zero_add _)
  have hr : s'.reserved = f.totalSize := hr.trans (Int64.zero_add _)
  rw [hpl, List.nil_append, Frame.names_placedAt] at hn
  exact ⟨⟨hn, hp, hs⟩, hpl, hr, hd, hh.trans hd, hb, hfr, rfl⟩

/-- What lays slots out moves the pointer over them. -/
theorem meaningAll_moves (eof : EofMode) (fuel : Nat) (slots : List Slot) (v : View) :
    meaningAll eof fuel (slots.map fun t => .go t.size) v = .done (v.go (Frame.extent slots)) := by
  induction slots generalizing v with
  | nil => rw [List.map_nil, meaningAll, Frame.extent_nil, View.go_zero]
  | cons t slots ih =>
      rw [List.map_cons, meaningAll, meaning, Ending.bind_done, ih, View.go_go, Frame.extent_cons]

theorem properAll_moves (slots : List Slot) : ProperAll (slots.map fun t => .go t.size) := by
  induction slots with
  | nil => exact trivial
  | cons t slots ih => exact ⟨trivial, ih⟩

/-- It stays on a tape that is long enough for them. -/
theorem fitsAll_moves {slots : List Slot} (hp : ∀ t ∈ slots, 0 < t.size.toInt) {size : Nat}
    {x : Int} (hx : 0 ≤ x) (hs : x + Frame.cells slots < size) :
    FitsAll size x 0 (slots.map fun t => .go t.size) ∧
      travel (slots.map fun t => .go t.size) = Frame.cells slots := by
  induction slots generalizing x with
  | nil => exact ⟨trivial, rfl⟩
  | cons t slots ih =>
      obtain ⟨ht, hr⟩ := List.forall_mem_cons.mp hp
      have hc := Frame.cells_nonneg hr
      rw [Frame.cells_cons] at hs ⊢
      obtain ⟨hf, htr⟩ := ih hr (show 0 ≤ x + t.size.toInt by omega) (by omega)
      refine ⟨⟨⟨⟨?_, ?_⟩, ?_, ?_⟩, hf⟩, ?_⟩
      · omega
      · omega
      · omega
      · omega
      · rw [List.map_cons, travel, htr]
        rfl

/-! ### Releasing -/

end Lowering

end StackTape
