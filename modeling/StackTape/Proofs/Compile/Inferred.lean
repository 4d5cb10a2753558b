import StackTape.Proofs.Compile.Extent

/-!
# Inferred frames

A declared frame is nothing but a check on the instructions that lay out slots and release them.
`lowerFrom_declare_iff`: code is lowered under a frame just if it is lowered without one and every
such instruction agrees with the frame, and the operations are the same.  The frame of the code's
own reserve instructions agrees with all that can be lowered (`agrees_of_lower`), so declaring it
changes nothing (`Output.compile_inferred`).
-/

namespace StackTape

namespace Frame

variable {f g : Frame} {slots : List Slot}

/-- A frame that accepts slots has different names. -/
theorem nodup_of_addAll (h : f.addAll slots = .ok g) (hn : f.names.Nodup) : g.names.Nodup := by
  induction slots generalizing f with
  | nil =>
      cases h
      exact hn
  | cons t slots ih =>
      rw [addAll] at h
      split at h
      · next f' hf =>
          unfold add at hf
          split_ifs at hf with _ hh
          cases hf
          refine ih h ?_
          rw [has_iff] at hh
          rw [names, List.map_append, List.nodup_append_comm]
          exact List.nodup_cons.mpr ⟨hh, hn⟩
      · cases h

/-- The frame of some code has the slots that the code lays out, each under its own name. -/
theorem ofCode_eq_ok {code : List Instr} (h : ofCode code = .ok f) :
    f.slots = code.filterMap slotOf? ∧ f.names.Nodup :=
  ⟨Lowering.slots_of_addAll h, nodup_of_addAll h List.nodup_nil⟩

end Frame

namespace Lowering

/-! ### Under a declared frame -/

variable {f : Frame} {s s' : Lowering} {i : Instr} {ops : List MacroOp} {code : List Instr}

/-- The same state under a declared frame. -/
def declare (f : Frame) (s : Lowering) : Lowering := { s with frame := some f }

/-- What a step gives, with the state after it under a declared frame. -/
def declared (f : Frame) (x : Except LoweringFault (List MacroOp × Lowering)) :
    Except LoweringFault (List MacroOp × Lowering) :=
  x.map (Prod.map id (declare f))

/-- An instruction that names a slot names one of the frame's, with its size. -/
def Agrees (f : Frame) : Instr → Prop
  | .reserve name size | .unreserve name size => f.size? name = some size
  | _ => True

/-- A declared frame accepts the slots that it has, with their sizes. -/
theorem checkFrame_declare {name : Bytes} {size : Int64} :
    (s.declare f).checkFrame name size = .ok () ↔ f.size? name = some size := by
  have hf : (s.declare f).frame = some f := rfl
  rw [checkFrame, hf]
  dsimp only
  cases f.size? name with
  | none => exact ⟨nofun, nofun⟩
  | some want =>
      rw [Option.some_inj]
      dsimp only
      split_ifs with he
      · exact iff_of_true rfl he
      · exact iff_of_false nofun he

/-- What follows the check is done if the slot is declared. -/
theorem check_bind {name : Bytes} {size : Int64}
    {x : Except LoweringFault (List MacroOp × Lowering)} :
    ((s.declare f).checkFrame name size >>= fun _ => x) = .ok (ops, s') ↔
      f.size? name = some size ∧ x = .ok (ops, s') := by
  rw [← checkFrame_declare]
  cases (s.declare f).checkFrame name size with
  | error e => exact ⟨nofun, nofun⟩
  | ok u => exact (and_iff_right rfl).symm

/-- Without a frame every slot is accepted. -/
theorem checkFrame_of_none (hn : s.frame = none) (name : Bytes) (size : Int64) :
    s.checkFrame name size = .ok () := by
  rw [checkFrame, hn]

@[simp] theorem framed_declare (s : Lowering) : (s.declare f).framed = s.framed := rfl

@[simp] theorem depth_declare (s : Lowering) : (s.declare f).depth = s.depth := rfl

@[simp] theorem slot?_declare (s : Lowering) (name : Bytes) :
    (s.declare f).slot? name = s.slot? name := rfl

@[simp] theorem need_declare (s : Lowering) (n : Nat) : (s.declare f).need n = s.need n := rfl

@[simp] theorem moveBy_declare (s : Lowering) (d : Int64) :
    (s.declare f).moveBy d = (s.moveBy d).declare f := rfl

@[simp] theorem reach_declare (s : Lowering) (d : Int64) :
    (s.declare f).reach d = (s.reach d).declare f := by
  unfold reach
  show (if s.high < d then _ else _) = _
  split_ifs <;> rfl

@[simp] theorem emit_declare (ops : List MacroOp) (s : Lowering) :
    emit ops (s.declare f) = declared f (emit ops s) := by
  unfold emit
  split <;> rfl

@[simp] theorem declared_bind {α : Type} (x : Except LoweringFault α)
    (k : α → Except LoweringFault (List MacroOp × Lowering)) :
    declared f (x >>= k) = x >>= fun a => declared f (k a) := by
  cases x <;> rfl

/-- A result with a declared frame is the result without one. -/
theorem declared_eq_ok {x : Except LoweringFault (List MacroOp × Lowering)} :
    declared f x = .ok (ops, s') ↔ ∃ s₁, x = .ok (ops, s₁) ∧ s₁.declare f = s' := by
  cases x with
  | error e => simp [declared, Except.map]
  | ok r => simp [declared, Except.map, Prod.ext_iff, and_assoc]

/-- Popping does not look at the frame. -/
theorem pop_declare (s : Lowering) (name : Bytes) :
    (s.declare f).pop name = declared f (s.pop name) := by
  unfold pop
  rw [slot?_declare]
  cases s.slot? name with
  | none => rfl
  | some p => simp

/-- Nor does laying out a slot that was accepted. -/
theorem withSlot_declare (s : Lowering) (name : Bytes) (size : Int64) :
    (s.declare f).withSlot name size = (s.withSlot name size).declare f := by
  unfold withSlot
  rw [← reach_declare]
  rfl

/-- A slot is laid out under a frame just as without one, once it is held against the frame. -/
theorem reserve_declare (hn : s.frame = none) (name : Bytes) (size : Int64) :
    (s.declare f).reserve name size =
      (s.declare f).checkFrame name size >>= fun _ => declared f (s.reserve name size) := by
  have hs : emit [.go size] ((s.declare f).withSlot name size) =
      declared f (emit [.go size] (s.withSlot name size)) := by
    rw [withSlot_declare, emit_declare]
  unfold reserve
  rw [checkFrame_of_none hn]
  refine bind_congr fun _ => ?_
  rw [framed_declare, slot?_declare]
  show _ = declared f (if s.framed then _ else _)
  simp only [apply_ite (declared f)]
  -- refused slots are refused alike
  split_ifs
  any_goals rfl
  exact hs

/-- And so it is released. -/
theorem unreserve_declare (hn : s.frame = none) (name : Bytes) (size : Int64) :
    (s.declare f).unreserve name size =
      (s.declare f).checkFrame name size >>= fun _ => declared f (s.unreserve name size) := by
  unfold unreserve
  rw [checkFrame_of_none hn]
  refine bind_congr fun _ => ?_
  show (if s.framed then _ else _) = declared f (if s.framed then _ else _)
  by_cases hf : s.framed
  · rw [if_pos hf, if_pos hf]
    rfl
  · rw [if_neg hf, if_neg hf, slot?_declare]
    cases s.slot? name with
    | none => rfl
    | some p =>
        show (if p.size ≠ size then _ else if s.depth - p.size < 0 then _ else _) =
          declared f (if p.size ≠ size then _ else if s.depth - p.size < 0 then _ else _)
        simp only [apply_ite (declared f)]
        split_ifs <;> rfl

theorem lowerFrom_of_cons {s₁ : Lowering} {rest : List Instr} {index : Nat} {more : List MacroOp}
    (hs : s.step i = .ok (ops, s₁)) (hr : s₁.lowerFrom (index + 1) rest = .ok (more, s')) :
    s.lowerFrom index (i :: rest) = .ok (ops ++ more, s') := by
  rw [lowerFrom, hs]
  simp only [hr]

/-- The check that a declared frame adds to an instruction. -/
theorem step_declare (hn : s.frame = none) :
    (s.declare f).step i = .ok (ops, s') ↔
      Agrees f i ∧ ∃ s₁, s.step i = .ok (ops, s₁) ∧ s₁.declare f = s' := by
  rw [← declared_eq_ok]
  cases i with
  | reserve name size =>
      rw [step, reserve_declare hn, check_bind]
      rfl
  | unreserve name size =>
      rw [step, unreserve_declare hn, check_bind]
      rfl
  | pop name => simp [step, Agrees, pop_declare]
  | _ => simp [step, Agrees]

/-- **A declared frame is nothing but a check.**  Code is lowered under it just if every instruction
agrees with it and the code is lowered without, and the operations are the same. -/
theorem lowerFrom_declare_iff (hn : s.frame = none) (hf : s.framed = false) {index : Nat} :
    (s.declare f).lowerFrom index code = .ok (ops, s') ↔
      (∀ i ∈ code, Agrees f i) ∧
        ∃ s₁, s.lowerFrom index code = .ok (ops, s₁) ∧ s₁.declare f = s' := by
  induction code generalizing s index ops with
  | nil => simp [lowerFrom, and_assoc, eq_comm]
  | cons i rest ih =>
      rw [List.forall_mem_cons]
      constructor
      · intro h
        obtain ⟨ops₁, t, more, hs, hr, rfl⟩ := lowerFrom_cons h
        obtain ⟨ha, s₁, hs₁, rfl⟩ := (step_declare hn).mp hs
        have hl := (Laid.of_step hf hs₁).same
        obtain ⟨hall, s₂, hr₁, rfl⟩ := (ih (hl.1.trans hn) (hl.2.2.trans hf)).mp hr
        exact ⟨⟨ha, hall⟩, s₂, lowerFrom_of_cons hs₁ hr₁, rfl⟩
      · rintro ⟨⟨ha, hall⟩, s₂, h, rfl⟩
        obtain ⟨ops₁, s₁, more, hs, hr, rfl⟩ := lowerFrom_cons h
        have hl := (Laid.of_step hf hs).same
        exact lowerFrom_of_cons ((step_declare hn).mpr ⟨ha, s₁, hs, rfl⟩)
          ((ih (hl.1.trans hn) (hl.2.2.trans hf)).mpr ⟨hall, s₂, hr, rfl⟩)

/-! ### Agreement -/

/-- Every slot that is laid out is one of the frame's. -/
def Known (f : Frame) (s : Lowering) : Prop := ∀ p ∈ s.slots, p.slot ∈ f.slots

/-- A step on known slots agrees with the frame, if what it lays out is in the frame, and the slots
after it are known. -/
theorem Laid.agrees (h : Laid s i ops s') (hn : f.names.Nodup) (hk : Known f s)
    (hi : ∀ t, Frame.slotOf? i = some t → t ∈ f.slots) : Agrees f i ∧ Known f s' := by
  cases h with
  | @reserve name size =>
      have ht : ⟨name, size⟩ ∈ f.slots := hi _ rfl
      refine ⟨Frame.size?_of_mem hn ht, fun p hp => ?_⟩
      rw [slots_withSlot] at hp
      rcases List.mem_append.mp hp with hp | hp
      · exact hk p hp
      · rw [List.mem_singleton.mp hp]
        exact ht
  | @unreserve p hp =>
      have ht : p.slot ∈ f.slots := hk p (mem_of_slot? hp).1
      exact ⟨Frame.size?_of_mem hn ht, fun q hq => hk q (List.mem_of_mem_filter hq)⟩
  | eval hi h =>
      rw [h.same]
      cases i with
      | reserve | unreserve => cases hi
      | _ => exact ⟨trivial, hk⟩
  | control hi =>
      cases i with
      | reserve | unreserve => cases hi
      | _ => exact ⟨trivial, hk⟩

/-- **Code that is accepted without a frame agrees with its own frame**, in every instruction. -/
theorem LaidAll.agrees (h : LaidAll s code ops s') (hn : f.names.Nodup) (hk : Known f s)
    (hc : ∀ i ∈ code, ∀ t, Frame.slotOf? i = some t → t ∈ f.slots) : ∀ i ∈ code, Agrees f i := by
  induction h with
  | nil => nofun
  | cons h _ ih =>
      rw [List.forall_mem_cons] at hc ⊢
      obtain ⟨ha, hk₁⟩ := h.agrees hn hk hc.1
      exact ⟨ha, ih hk₁ hc.2⟩

/-- Code that is lowered agrees with the frame of its own slots. -/
theorem agrees_of_lower (hf : Frame.ofCode code = .ok f)
    (h : (start none).lower code = .ok (ops, s')) : ∀ i ∈ code, Agrees f i := by
  obtain ⟨hslots, hn⟩ := Frame.ofCode_eq_ok hf
  refine (LaidAll.of_lowerFrom rfl h).agrees hn nofun fun i hi t ht => ?_
  rw [hslots]
  exact List.mem_filterMap.mpr ⟨i, hi, ht⟩

/-- Straight-line code is lowered to the same under the frame of its own slots. -/
theorem lower_inferred_iff (hf : Frame.ofCode code = .ok f) :
    (start (some f)).lower code = .ok (ops, s') ↔
      ∃ s₁, (start none).lower code = .ok (ops, s₁) ∧ s₁.declare f = s' := by
  refine (lowerFrom_declare_iff (s := start none) rfl rfl).trans (and_iff_right_of_imp ?_)
  rintro ⟨s₁, h, -⟩
  exact agrees_of_lower hf h

/-! ### Programs -/

variable {p : Program} {l : Labeler}

/-- A program finds the frame of the code that it was cut from. -/
theorem frameFor_inferred (hp : Program.build code l = .ok p) (hf : Frame.ofCode code = .ok f) :
    (start none).frameFor p = .ok f := by
  obtain ⟨tagged, hpad, htag⟩ := Program.padded_addJumps code l
  show Frame.ofSlots ((instrsOf p p.order).filterMap Frame.slotOf?) = .ok f
  rw [instrsOf_order (Program.partitioned_of_build hp)
    (Program.nodup_of_partition (Program.partition_of_build hp)), ← htag, slots_of_padded hpad]
  exact hf

/-- A program infers its frame before it lowers anything. -/
theorem lowerProgram_inferred (hp : (start none).frameFor p = .ok f) :
    (start none).lowerProgram p = (start (some f)).lowerProgram p := by
  unfold lowerProgram
  rw [hp]
  rfl

end Lowering

open Lowering

theorem Output.build_eq_ok_iff {code : List Instr} {frame : Option Frame} {out : Output} :
    Output.build code frame = .ok out ↔ ∃ ops s, (Lowering.start frame).lower code = .ok (ops, s) ∧
      Output.generate ops s.extent = .ok out := by
  refine ⟨Output.build_eq_ok, ?_⟩
  rintro ⟨ops, s, hl, hg⟩
  rw [Output.build, hl]
  exact hg

/-- **Straight-line code** compiles alike with its own frame and without one. -/
theorem Output.build_inferred {code : List Instr} {f : Frame} (hf : Frame.ofCode code = .ok f)
    {out : Output} : Output.build code none = .ok out ↔ Output.build code (some f) = .ok out := by
  simp only [Output.build_eq_ok_iff, lower_inferred_iff hf]
  constructor
  · rintro ⟨ops, s, hl, hg⟩
    exact ⟨ops, s.declare f, ⟨s, hl, rfl⟩, hg⟩
  · rintro ⟨ops, _, ⟨s, hl, rfl⟩, hg⟩
    exact ⟨ops, s, hl, hg⟩

/-- **Declaring the frame that code lays out anyway changes nothing**, with or without control
flow: what is compiled without a frame is compiled under its own, to the same output. -/
theorem Output.compile_inferred {code : List Instr} {f : Frame} (hf : Frame.ofCode code = .ok f)
    (out : Output) :
    Output.compile code none = .ok out ↔ Output.compile code (some f) = .ok out := by
  unfold Output.compile
  split_ifs
  · match hp : Program.build code { stem := Output.labelStem } with
    | .error e => exact ⟨nofun, nofun⟩
    | .ok p =>
        show Output.buildProgram p none = _ ↔ Output.buildProgram p (some f) = _
        unfold Output.buildProgram
        rw [lowerProgram_inferred (frameFor_inferred hp hf)]
  · exact Output.build_inferred hf

/-- A slot that is laid out, set and released, and one that is set again and again. -/
theorem Output.compile_inferred_slot :
    (∃ f out, Frame.ofCode [.reserve [0x78] 1, .read, .pop [0x78], .unreserve [0x78] 1] = .ok f ∧
      Output.compile [.reserve [0x78] 1, .read, .pop [0x78], .unreserve [0x78] 1] none = .ok out ∧
      Output.compile [.reserve [0x78] 1, .read, .pop [0x78], .unreserve [0x78] 1] (some f) =
        .ok out) ∧
    ∃ f out, Frame.ofCode [.reserve [0x78] 1, .label [0x61], .read, .pop [0x78], .jump [0x61]] =
        .ok f ∧
      Output.compile [.reserve [0x78] 1, .label [0x61], .read, .pop [0x78], .jump [0x61]] none =
        .ok out ∧
      Output.compile [.reserve [0x78] 1, .label [0x61], .read, .pop [0x78], .jump [0x61]] (some f) =
        .ok out := by
  have hline : (Output.compile [.reserve [0x78] 1, .read, .pop [0x78], .unreserve [0x78] 1]
      none).toOption.map (·.extent) = some 2 := by decide +kernel
  have hloop : (Output.compile [.reserve [0x78] 1, .label [0x61], .read, .pop [0x78],
      .jump [0x61]] none).toOption.map (·.extent) = some 5 := by decide +kernel
  obtain ⟨out, hout, -⟩ := exists_ok_of_map_eq_some hline
  obtain ⟨out', hout', -⟩ := exists_ok_of_map_eq_some hloop
  exact ⟨⟨⟨[⟨[0x78], 1⟩]⟩, out, rfl, hout, (Output.compile_inferred rfl out).mp hout⟩,
    ⟨[⟨[0x78], 1⟩]⟩, out', rfl, hout', (Output.compile_inferred rfl out').mp hout'⟩

end StackTape
