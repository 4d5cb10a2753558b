import StackTape.Proofs.Frame.Tables
import StackTape.Proofs.Lowering.Program
import StackTape.Proofs.Lowering.Regions

/-!
# Offsets on the tape

A frame knows the place of a slot as the sum of the sizes before it, and lowering knows it as the
depth at which the cursor stood.  Slots that are laid out in order agree on both
(`slotDepth?_eq_offset?`).

`Stacked` says that lowering has come so far with a frame.  Reserving the next slot and releasing
the last one are inverse to each other, so laying a frame out and releasing it from the end leaves
nothing behind (`lower_frame`).
-/

namespace StackTape

namespace Frame

theorem extent_append (front back : List Slot) :
    extent (front ++ back) = extent front + extent back := by
  rw [extent, List.foldl_append, foldl_size]
  rfl

/-- The slots behind are laid out from where the ones in front end. -/
theorem placedAt_append (d : Int64) (front back : List Slot) :
    placedAt d (front ++ back) = placedAt d front ++ placedAt (d + extent front) back := by
  induction front generalizing d with
  | nil => simp
  | cons t front ih =>
      rw [List.cons_append, placedAt_cons, placedAt_cons, ih, extent_cons, Int64.add_assoc,
        List.cons_append]

/-- The first slot of a name is laid out behind the slots before it. -/
theorem depth_placedAt (d : Int64) (slots : List Slot) (name : Bytes) :
    ((placedAt d slots).find? fun p => p.name = name).map (·.depth) =
      if name ∈ slots.map (·.name) then some (d + extent (slots.takeWhile fun t => t.name ≠ name))
      else none := by
  induction slots generalizing d with
  | nil => rfl
  | cons t slots ih =>
      rw [placedAt_cons]
      by_cases ht : t.name = name
      · simp [ht]
      · rw [List.find?_cons_of_neg (by simpa using ht), ih]
        simp [ht, Ne.symm ht, Int64.add_assoc]

end Frame

namespace Lowering

open MacroOp

variable {s s' : Lowering} {f : Frame} {t : Slot} {front back : List Slot} {ops : List MacroOp}

/-- **Slots that are laid out in order** are at their offsets. -/
theorem slotDepth?_eq_offset? (h : s.slots = Frame.placedAt 0 f.slots) (name : Bytes) :
    s.slotDepth? name = f.offset? name := by
  rw [slotDepth?, slot?, h, Frame.depth_placedAt, Frame.offset?]
  simp only [Int64.zero_add, Frame.has_iff]
  rfl

/-! ### One slot -/

/-- A slot of the frame that is not there yet is laid out. -/
theorem reserve_of_fresh {name : Bytes} {size : Int64} (hc : s.checkFrame name size = .ok ())
    (hf : s.framed = false) (hn : s.slot? name = none) (hs : 0 < size.toInt) :
    s.reserve name size = .ok ([.go size], s.withSlot name size) := by
  have hpos : ¬ size ≤ 0 := by
    rw [Int64.le_iff_toInt_le, Int64.toInt_zero, not_le]
    exact hs
  unfold Lowering.reserve
  rw [hc]
  change (if s.framed = true then _ else _) = _
  rw [if_neg (by simp [hf]), if_neg (by simp [hn]), if_neg hpos]
  rfl

/-- A slot that is there is released. -/
theorem unreserve_of_slot {p : Placed} (hc : s.checkFrame p.name p.size = .ok ())
    (hf : s.framed = false) (hp : s.slot? p.name = some p) (hd : 0 ≤ (s.depth - p.size).toInt) :
    s.unreserve p.name p.size = .ok ([.go (-p.size)], s.withoutSlot p.name p.size) := by
  have hneg : ¬ s.depth - p.size < 0 := by
    rw [Int64.lt_iff_toInt_lt, Int64.toInt_zero, not_lt]
    exact hd
  unfold Lowering.unreserve
  rw [hc]
  change (if s.framed = true then _ else _) = _
  rw [if_neg (by simp [hf]), hp]
  dsimp only
  rw [if_neg (by simp), if_neg hneg]
  rfl

/-- The slots `front` of the frame `f` are laid out from depth zero on, and nothing else. -/
structure Stacked (f : Frame) (front : List Slot) (s : Lowering) : Prop where
  declared : s.frame = none ∨ s.frame = some f
  framed : s.framed = false
  slots : s.slots = Frame.placedAt 0 front
  depth : s.depth = Frame.extent front

/-- The slots of the frame are the declared ones. -/
theorem Stacked.checkFrame (h : Stacked f front s) (hn : f.names.Nodup) (ht : t ∈ f.slots) :
    s.checkFrame t.name t.size = .ok () := by
  unfold Lowering.checkFrame
  rcases h.declared with hd | hd
  · rw [hd]
  · rw [hd]
    simp [Frame.size?_of_mem hn ht]

theorem Stacked.names (h : Stacked f front s) : s.slots.map (·.name) = front.map (·.name) := by
  rw [h.slots, Frame.names_placedAt]

/-- The next slot of the frame is laid out above the others. -/
theorem Stacked.reserve (h : Stacked f front s) (hf : f.Formed)
    (hs : f.slots = front ++ t :: back) :
    s.step (.reserve t.name t.size) = .ok ([.go t.size], s.withSlot t.name t.size) ∧
      Stacked f (front ++ [t]) (s.withSlot t.name t.size) := by
  have ht : t ∈ f.slots := by simp [hs]
  -- the slots before it have other names
  have hnew : s.slot? t.name = none := by
    have hn := hf.names
    rw [Frame.names, hs, List.map_append, List.nodup_append] at hn
    rw [slot?, List.find?_eq_none]
    intro p hp
    simpa using hn.2.2 _ (h.names ▸ List.mem_map_of_mem hp) _ List.mem_cons_self
  refine ⟨reserve_of_fresh (h.checkFrame hf.names ht) h.framed hnew (hf.positive t ht), ?_, ?_, ?_,
    ?_⟩
  · rw [withSlot, reach_same]
    exact h.declared
  · rw [withSlot, reach_same]
    exact h.framed
  · rw [slots_withSlot, h.slots, h.depth, Frame.placedAt_append, Int64.zero_add]
    rfl
  · rw [depth_withSlot, h.depth, Frame.extent_append]
    simp

/-- The last one is released, and the others are left. -/
theorem Stacked.unreserve (h : Stacked f (front ++ [t]) s) (hf : f.Formed)
    (hs : f.slots = front ++ t :: back) (hx : 0 ≤ (Frame.extent front).toInt) :
    s.step (.unreserve t.name t.size) = .ok ([.go (-t.size)], s.withoutSlot t.name t.size) ∧
      Stacked f front (s.withoutSlot t.name t.size) := by
  have hslots : s.slots = Frame.placedAt 0 front ++ [⟨t.name, Frame.extent front, t.size⟩] := by
    rw [h.slots, Frame.placedAt_append, Int64.zero_add]
    rfl
  have hdepth : s.depth - t.size = Frame.extent front := by
    rw [h.depth, Frame.extent_append]
    simp
  have hn := hf.names
  rw [Frame.names, hs, List.map_append, List.nodup_append] at hn
  obtain ⟨hnf, -, hne⟩ := hn
  have hnodup : (s.slots.map (·.name)).Nodup := by
    rw [h.names, List.map_append, List.nodup_append]
    refine ⟨hnf, by simp, fun a ha b hb => ?_⟩
    obtain rfl : b = t.name := by simpa using hb
    exact hne a ha t.name List.mem_cons_self
  refine ⟨?_, h.declared, h.framed, ?_, hdepth⟩
  · exact unreserve_of_slot (p := ⟨t.name, Frame.extent front, t.size⟩)
      (h.checkFrame hf.names (by simp [hs])) h.framed (slot?_of_mem hnodup (by simp [hslots]))
      (hdepth ▸ hx)
  · -- only the last slot has the name
    show s.slots.filter _ = _
    rw [hslots, List.filter_append, List.filter_eq_self.mpr, List.filter_eq_nil_iff.mpr (by simp),
      List.append_nil]
    intro p hp
    have hm : p.name ∈ front.map (·.name) := Frame.names_placedAt 0 front ▸ List.mem_map_of_mem hp
    simpa using hne _ hm _ List.mem_cons_self

/-! ### Every slot -/

/-- What lays slots out moves the pointer over all of them. -/
theorem displacement_reserves (slots : List Slot) :
    displacement (slots.map fun t => .go t.size) = Frame.extent slots := by
  induction slots with
  | nil => rfl
  | cons t slots ih => rw [List.map_cons, displacement, ih, Frame.extent_cons, moved]

/-- **The rest of a frame is laid out**, whatever part of it is there. -/
theorem Stacked.reserves (h : Stacked f front s) (hf : f.Formed) (hs : f.slots = front ++ back)
    (index : Nat) :
    ∃ s', s.lowerFrom index (back.map fun t => .reserve t.name t.size) =
      .ok (back.map fun t => .go t.size, s') ∧ Stacked f f.slots s' := by
  induction back generalizing front s index with
  | nil =>
      rw [List.append_nil] at hs
      exact ⟨s, rfl, hs ▸ h⟩
  | cons t back ih =>
      obtain ⟨hstep, h₁⟩ := h.reserve hf hs
      obtain ⟨s', hrest, h'⟩ := ih h₁ (by simp [hs]) (index + 1)
      refine ⟨s', ?_, h'⟩
      rw [List.map_cons, lowerFrom, hstep]
      simp only [hrest]
      rfl

/-- **A part of a frame is released** from its end, and the pointer is where it was. -/
theorem Stacked.unreserves (h : Stacked f front s) (hf : f.Formed) (hs : front <+: f.slots)
    (hc : Frame.cells f.slots < 2 ^ 62) (index : Nat) :
    ∃ ops s', s.lowerFrom index (front.reverse.map fun t => .unreserve t.name t.size) =
      .ok (ops, s') ∧ Stacked f [] s' ∧ displacement ops = -Frame.extent front := by
  induction front using List.reverseRecOn generalizing s index with
  | nil => exact ⟨[], s, rfl, h, rfl⟩
  | append_singleton front t ih =>
      have hpre : front <+: f.slots := (List.prefix_append _ _).trans hs
      obtain ⟨back, hback⟩ := hs
      have hpos : ∀ u ∈ front, 0 < u.size.toInt := fun u hu => hf.positive u (hpre.subset hu)
      have hnonneg : 0 ≤ (Frame.extent front).toInt := by
        have hsmall : Frame.cells front ≤ Frame.cells f.slots :=
          Frame.cells_le_of_subset ((List.Nodup.of_map _ hf.names).sublist hpre.sublist)
            hpre.subset hf.positive
        rw [Frame.toInt_extent hpos (by omega)]
        exact Frame.cells_nonneg hpos
      have hsplit : f.slots = front ++ t :: back := by simp [← hback]
      obtain ⟨hstep, h₁⟩ := h.unreserve hf hsplit hnonneg
      obtain ⟨ops, s', hrest, h', hd⟩ := ih h₁ hpre (index + 1)
      refine ⟨.go (-t.size) :: ops, s', ?_, h', ?_⟩
      · rw [List.reverse_append, List.reverse_singleton, List.singleton_append, List.map_cons,
          lowerFrom, hstep]
        simp only [hrest]
        rfl
      · rw [displacement, moved, hd, Frame.extent_append, Frame.extent_cons, Frame.extent_nil,
          Int64.add_zero, Int64.neg_add]
        grind

/-- A program leaves every slot at the offset that its frame gives it. -/
theorem slotDepth?_of_lowerProgram {p : Program}
    (h : (start (some f)).lowerProgram p = .ok (ops, s)) (name : Bytes) :
    s.slotDepth? name = f.offset? name := by
  obtain ⟨-, g, s₀, moves, body, hg, hl, hd, -, -⟩ := lowerProgram_eq_ok h
  cases hg
  have hres := reserved_of_lowerFrom hl rfl List.nodup_nil
  have hdisp := Dispatched.of_dispatch (s := { s₀ with framed := true }) rfl
    (fun label hm => numberIn_isSome.mpr hm) hd
  refine slotDepth?_eq_offset? ?_ name
  rw [hdisp.same]
  exact hres.placed

/-- **Frames and lowering agree on the layout**, after any calls on frames and with the frame
declared or not.  Lowering the instructions that lay a frame out puts the cursor above it and every
slot at its offset, and no other slot is known; lowering those that release it then puts the cursor
back to zero with no slot left, and the operations of both move the pointer nowhere.  A program that
is lowered with the frame leaves every slot at its offset as well. -/
theorem lower_frame (calls : List Frame.Call) (k : Nat) {declared : Option Frame}
    (hs : Frame.cells (Frame.after calls k).slots < 2 ^ 62)
    (hd : declared = none ∨ declared = some (Frame.after calls k)) :
    let f := Frame.after calls k
    (∃ ops s, (start declared).lower f.reserves = .ok (ops, s) ∧
      s.depth = f.totalSize ∧ (∀ name, s.slotDepth? name = f.offset? name) ∧
      s.slots.map (·.name) = f.names ∧
      ∃ more s', s.lower f.unreserves = .ok (more, s') ∧
        s'.depth = 0 ∧ (∀ name, s'.slotDepth? name = none) ∧ displacement (ops ++ more) = 0) ∧
    ∀ p ops s, (start (some f)).lowerProgram p = .ok (ops, s) →
      ∀ name, s.slotDepth? name = f.offset? name := by
  intro f
  have hf : f.Formed := Frame.formed_after calls k
  have hstart : Stacked f [] (start declared) := ⟨hd, rfl, rfl, rfl⟩
  obtain ⟨s, hl, h⟩ := hstart.reserves hf rfl 0
  obtain ⟨more, s', hl', h', hm⟩ := h.unreserves hf (List.prefix_refl _) hs 0
  refine ⟨⟨_, s, hl, h.depth, slotDepth?_eq_offset? h.slots, h.names, more, s', hl', h'.depth,
    fun name => ?_, ?_⟩, fun p ops s hp => slotDepth?_of_lowerProgram hp⟩
  · rw [slotDepth?, slot?, h'.slots]
    rfl
  · rw [displacement_append, displacement_reserves, hm]
    grind

/-- The second of three slots takes a larger size from another frame, which moves the third. -/
theorem lower_frame_overwritten :
    ∃ f, f = Frame.after [.add 0 [0x61] 1, .add 0 [0x62] 2, .add 0 [0x63] 1, .add 1 [0x62] 5,
        .overwrite 0 1] 0 ∧
      (∃ ops s more s', (start (some f)).lower f.reserves = .ok (ops, s) ∧ s.depth = 7 ∧
        s.slotDepth? [0x63] = some 6 ∧ s.lower f.unreserves = .ok (more, s') ∧ s'.depth = 0) ∧
      ∃ p ops s, (start (some f)).lowerProgram p = .ok (ops, s) ∧
        s.slotDepth? [0x63] = some 6 := by
  have hf : Frame.after [.add 0 [0x61] 1, .add 0 [0x62] 2, .add 0 [0x63] 1, .add 1 [0x62] 5,
      .overwrite 0 1] 0 = ⟨[⟨[0x61], 1⟩, ⟨[0x62], 5⟩, ⟨[0x63], 1⟩]⟩ := by decide
  obtain ⟨⟨ops, s, hl, hd, ho, -, more, s', hl', hd', -⟩, hp⟩ :=
    lower_frame [.add 0 [0x61] 1, .add 0 [0x62] 2, .add 0 [0x63] 1, .add 1 [0x62] 5,
      .overwrite 0 1] 0 (by rw [hf]; decide) (.inr rfl)
  rw [hf] at hl hd ho hl' hp
  obtain ⟨p, ops₁, s₁, h₁⟩ : ∃ p ops s,
      (start (some ⟨[⟨[0x61], 1⟩, ⟨[0x62], 5⟩, ⟨[0x63], 1⟩]⟩)).lowerProgram p = .ok (ops, s) :=
    ⟨⟨[0x6D], [[0x6D]], [{ label := [0x6D], instrs := [.push [0x35, 0x63], .pop [0x63]] }]⟩, _, _,
      by cbv⟩
  exact ⟨_, hf.symm, ⟨ops, s, more, s', hl, hd, ho [0x63], hl', hd'⟩, p, ops₁, s₁, h₁,
    hp p ops₁ s₁ h₁ [0x63]⟩

end Lowering

end StackTape
