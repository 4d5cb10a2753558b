import StackTape.Proofs.Lowering.Slots

/-!
# Layouts that grow

Code may lay out a slot between two expressions, when no operand is on the stack.  The slot then
takes zero cells from above, and the layout of the slots has one more (`Layout.extend`).  Code that
lays out its slots so, and releases none before its work is done, does on the tape what the stack
machine does (`LaidAll.meaning`).
-/

namespace StackTape

namespace Instr

/-- An instruction that lays out or releases a slot. -/
def isSlotWork : Instr → Bool
  | .reserve .. | .unreserve .. => true
  | _ => false

/-- With `n` operands on the stack before it, the code lays out slots only when there is no operand
left, releases none, and does not jump. -/
def level : Nat → List Instr → Bool
  | _, [] => true
  | n, .reserve .. :: rest => n = 0 && level n rest
  | n, i :: rest => i.isEvaluation && level (n - i.opcode.info.pops + i.opcode.info.pushes) rest

theorem level_of_isEvaluation {i : Instr} (hi : i.isEvaluation) (n : Nat) (rest : List Instr) :
    level n (i :: rest) = level (n - i.opcode.info.pops + i.opcode.info.pushes) rest := by
  cases i with
  | reserve => cases hi
  | _ => simp only [level, hi, Bool.true_and]

/-- Slots change by `pop` only. -/
theorem slots_effect {i : Instr} {eof : EofMode} {s s' : Store} (h : i.effect eof s = some s') :
    s'.slots = s.slots ∨ ∃ name x, i = .pop name ∧ s'.slots = Function.update s.slots name x := by
  unfold effect at h
  split at h
  · split at h
    · cases h
      exact .inl rfl
    · cases h
  · cases h
    exact .inr ⟨_, _, rfl, rfl⟩
  all_goals first | (cases h <;> exact .inl rfl) | skip
  · obtain ⟨f, -, rfl⟩ := Option.map_eq_some_iff.mp h
    exact .inl rfl

theorem effectAll_append (eof : EofMode) (front back : List Instr) (s : Store) :
    effectAll eof (front ++ back) s = (effectAll eof front s).bind (effectAll eof back) := by
  induction front generalizing s with
  | nil => rfl
  | cons i rest ih =>
      rw [List.cons_append, effectAll, effectAll, Option.bind_assoc]
      exact Option.bind_congr fun s₁ _ => ih s₁

theorem effectAll_of_isSlotWork (eof : EofMode) {code : List Instr}
    (h : ∀ i ∈ code, i.isSlotWork) (s : Store) : effectAll eof code s = some s := by
  induction code with
  | nil => rfl
  | cons i rest ih =>
      have hi := h i (by simp)
      cases i with
      | reserve | unreserve => exact ih fun j hj => h j (by simp [hj])
      | _ => cases hi

end Instr

namespace Layout

variable {L : Layout} {rest : Int64 → UInt8} {σ : Store} {b : View} {name : Bytes} {size : Int64}

/-- The layout with a slot above the others. -/
def extend (L : Layout) (name : Bytes) (size : Int64) (hs : 0 < size.toInt)
    (hn : name ∉ L.slots.map (·.name)) (hh : L.height.toInt + size.toInt < 2 ^ 62) : Layout where
  slots := L.slots ++ [⟨name, L.height, size⟩]
  height := L.height + size
  origin := L.origin
  nonneg := by
    have := L.nonneg
    rw [toInt_add_of_bounds] <;> omega
  small := by
    have := L.nonneg
    rw [toInt_add_of_bounds] <;> omega
  names := by
    rw [List.map_append, List.nodup_append]
    refine ⟨L.names, by simp, ?_⟩
    rintro a ha b hb rfl
    obtain rfl : a = name := by simpa using hb
    exact hn ha
  depths := by
    rw [List.map_append, List.nodup_append]
    refine ⟨L.depths, by simp, ?_⟩
    rintro a ha b hb rfl
    obtain ⟨p, hp, rfl⟩ := List.mem_map.mp ha
    obtain hd : p.depth = L.height := by simpa using hb
    have := (L.below p hp).2
    rw [hd] at this
    omega
  below p hp := by
    have := L.nonneg
    rw [toInt_add_of_bounds (by omega) (by omega)]
    rcases List.mem_append.mp hp with hp | hp
    · have := L.below p hp
      omega
    · obtain rfl := List.mem_singleton.mp hp
      show 0 ≤ L.height.toInt ∧ L.height.toInt < _
      omega

/-- A slot that has not been set takes a cell that is zero. -/
theorem Floor.extend (hf : L.Floor rest σ b) (hr : L.Free rest) (hs : 0 < size.toInt)
    (hn : name ∉ L.slots.map (·.name)) (hh : L.height.toInt + size.toInt < 2 ^ 62)
    (hz : σ.slots name = 0) : (L.extend name size hs hn hh).Floor rest σ (b.go size) where
  pointer := by
    rw [View.pointer_go, hf.pointer, Int64.add_assoc]
    rfl
  input := hf.input
  output := hf.output
  slot p hp := by
    rcases List.mem_append.mp hp with hp | hp
    · exact hf.slot p hp
    · obtain rfl := List.mem_singleton.mp hp
      have h₀ := hf.above hr (k := 0) (by decide)
      rw [hf.pointer] at h₀
      rw [hz, ← h₀]
      exact congrArg b.cells (Int64.add_zero _).symm
  other a ha := hf.other a fun p hp => ha p (List.mem_append_left _ hp)

end Layout

namespace Lowering

open MacroOp

variable {s s' : Lowering} {i : Instr} {ops : List MacroOp} {all : List Slot}
  {code : List Instr} {L : Layout} {σ σ' : Store} {v : View} {n : Nat} {name : Bytes}

/-- A slot that is not laid out is not set. -/
theorem Lowered.slots_eq (h : Lowered s i ops s') {eof : EofMode}
    (he : i.effect eof σ = some σ') (hn : s.slot? name = none) : σ'.slots name = σ.slots name := by
  rcases Instr.slots_effect he with hs | ⟨name', x, rfl, hs⟩
  · rw [hs]
  · cases h with
    | pop hp =>
        rw [hs, Function.update_of_ne]
        rintro rfl
        rw [hn] at hp
        cases hp
    | mark hi => cases hi

theorem slot?_withSlot_eq_none {size : Int64} {name' : Bytes}
    (h : (s.withSlot name size).slot? name' = none) : s.slot? name' = none := by
  rw [slot?, slots_withSlot, List.find?_append, Option.or_eq_none_iff] at h
  exact h.1

/-- Without operands the cursor is the top of the layout, and a slot that is laid out there is
pictured by a layout that has grown. -/
theorem pictures_withSlot {rest : Int64 → UInt8} {size : Int64} (hL : L.Of s) (hr : L.Free rest)
    (hv : L.Pictures rest s σ v) (hstack : σ.stack = []) (hs : 0 < size.toInt)
    (hnone : s.slot? name = none) (hh : s.reserved.toInt + size.toInt < 2 ^ 62)
    (hz : σ.slots name = 0) :
    ∃ L' : Layout, L'.Of (s.withSlot name size) ∧
      L'.Pictures rest (s.withSlot name size) σ (v.go size) := by
  obtain ⟨b, hf, hlen, rfl⟩ := hv
  rw [hstack, List.length_nil] at hlen
  have hdepth : s.depth = L.height := by
    rw [← Int64.toInt_inj]
    omega
  have hname : name ∉ L.slots.map (·.name) := by
    rw [← hL.1]
    exact slot?_eq_none hnone
  rw [hL.2] at hh
  refine ⟨L.extend name size hs hname hh, ⟨?_, ?_⟩, _, hf.extend hr hs hname hh hz, ?_, ?_⟩
  · rw [slots_withSlot, hL.1, hdepth]
    rfl
  · rw [reserved_withSlot, hL.2]
    rfl
  · rw [hstack, depth_withSlot, hdepth]
    exact (Int.sub_self _).symm
  · rw [hstack]
    rfl

/-- **Level code does what the stack machine does.** -/
theorem LaidAll.meaning (h : LaidAll s code ops s') (hlev : Instr.level n code)
    (hm : Modest all code) (ht : Tidy all s) (hh : s'.high.toInt < 2 ^ 62) (hL : L.Of s)
    (hv : L.Pictures (fun _ => 0) s σ v)
    (hz : ∀ name, s.slot? name = none → σ.slots name = 0) (hn : σ.stack.length = n)
    (eof : EofMode) (fuel : Nat) :
    ∃ σ' v', Instr.effectAll eof code σ = some σ' ∧ meaningAll eof fuel ops v = .done v' ∧
      v'.input = σ'.input ∧ v'.output = σ'.output := by
  induction h generalizing n L σ v with
  | nil => exact ⟨σ, v, rfl, rfl, hv.input, hv.output⟩
  | @cons s s₁ s' i rest ops more h t ih =>
      have hle := h.high_le
      have hle' := t.high_le
      have hr := ht.spacious hm (by omega)
      have hcells := hm.cells
      have ht₁ := h.tidy ht hr hm.head
      -- it is enough that the instruction goes from a picture to a picture
      have next : ∀ {L' : Layout} {n' : Nat} {σ₁ : Store} {v₁ : View}, Instr.level n' rest →
          i.effect eof σ = some σ₁ → meaningAll eof fuel ops v = .done v₁ → L'.Of s₁ →
          L'.Pictures (fun _ => 0) s₁ σ₁ v₁ → (∀ name, s₁.slot? name = none → σ₁.slots name = 0) →
          σ₁.stack.length = n' → ∃ σ' v', Instr.effectAll eof (i :: rest) σ = some σ' ∧
            meaningAll eof fuel (ops ++ more) v = .done v' ∧ v'.input = σ'.input ∧
            v'.output = σ'.output := by
        intro L' n' σ₁ v₁ hlev' he hv₁ hL' hpic hz' hn'
        obtain ⟨σ', v', he', hv', hin, hout⟩ :=
          ih hlev' hm.tail ht₁ hh hL' hpic hz' hn'
        refine ⟨σ', v', ?_, ?_, hin, hout⟩
        · rw [Instr.effectAll, he, Option.bind_some, he']
        · rw [meaningAll_append, hv₁, Ending.bind_done, hv']
      cases h with
      | eval hev h =>
          rw [Instr.level_of_isEvaluation hev] at hlev
          have hslots : s₁.slots = s.slots := by rw [h.same]
          obtain ⟨hheld, hd, -⟩ := h.counts ht.tame hr.high
          obtain ⟨σ₁, v₁, he, hv₁, hpic⟩ :=
            h.meaning ht.tame (by omega) hL (fun _ _ => rfl) hv eof fuel
          refine next hlev he hv₁ (hL.same h.same) hpic (fun name hname => ?_) ?_
          · rw [slot?, hslots] at hname
            rw [h.slots_eq he hname, hz name hname]
          · obtain ⟨-, -, hlen, -⟩ := hv
            obtain ⟨-, -, hlen₁, -⟩ := hpic
            rw [hL.2] at hheld
            omega
      | @reserve name size _ hnone hs =>
          obtain ⟨hzero, hlev⟩ := Bool.and_eq_true_iff.mp hlev
          obtain rfl : n = 0 := by simpa using hzero
          have hheight := ht.cells_le hm.positive hnone (hm.head _ rfl)
          obtain ⟨L', hof, hpic⟩ := pictures_withSlot hL (fun _ _ => rfl) hv
            (List.eq_nil_of_length_eq_zero hn) hs hnone (by omega) (hz name hnone)
          exact next hlev rfl rfl hof hpic
            (fun name' hname' => hz name' (slot?_withSlot_eq_none hname')) hn
      | unreserve => cases hlev
      | control hi =>
          cases i with
          | label | jump | cond => cases hlev
          | _ => cases hi

/-- Laying out and releasing slots only moves the pointer. -/
theorem LaidAll.moves (h : LaidAll s code ops s') (hw : ∀ i ∈ code, i.isSlotWork) (eof : EofMode)
    (fuel : Nat) : ∃ d, ∀ v, meaningAll eof fuel ops v = .done (v.go d) := by
  induction h with
  | nil => exact ⟨0, fun v => by rw [meaningAll, View.go_zero]⟩
  | @cons _ _ _ i rest ops more h t ih =>
      obtain ⟨d, hd⟩ := ih fun j hj => hw j (by simp [hj])
      have hgo : ∀ e, ∃ d', ∀ v, meaningAll eof fuel ([.go e] ++ more) v = .done (v.go d') := by
        refine fun e => ⟨e + d, fun v => ?_⟩
        rw [List.singleton_append, meaningAll, MacroOp.meaning, Ending.bind_done, hd, View.go_go]
      have hi := hw i (by simp)
      cases h with
      | reserve | unreserve => exact hgo _
      | eval he | control he =>
          cases i with
          | reserve | unreserve => cases he
          | _ => cases hi

end Lowering

end StackTape
