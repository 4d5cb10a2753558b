import StackTape.Proofs.Compile.Extent
import StackTape.Proofs.Lowering.Emitted
import StackTape.Proofs.Machine.Loops

/-!
# Compiled text is well formed

`compile_wellFormed`: whatever is lowered can be written, so that a compilation fails in cutting
the code or in lowering it; the text that comes out consists of instructions with balanced brackets,
and no run of it on a fresh machine stops for its text.  Only the length of a text may keep it from
being written, and it does not where slots and instructions are less than `2 ^ 17`.
-/

namespace StackTape

open Machine MacroOp Lowering Output

/-! ### Runs of instructions -/

/-- The stop of a run for a byte that is no instruction. -/
def Stop.isUnrecognized : Stop → Bool
  | .fault f => f.kind = .unrecognized
  | _ => false

/-- The instructions of tape text. -/
def Machine.instructions : Bytes := [0x3E, 0x3C, 0x2B, 0x2D, 0x2E, 0x2C, 0x5B, 0x5D]

namespace Machine

variable {σ : Type} {o : Options} {text : Array UInt8} {p : Point σ} {e : Finished σ}

/-- **Text of instructions** never stops a run for one that is not known. -/
theorem TurnEnd.not_unrecognized (h : TurnEnd o text p e)
    (ht : ∀ c ∈ text.toList, c ∈ instructions) {stop : Stop} (hs : e.stop = some stop) :
    stop.isUnrecognized = false := by
  cases h with
  | spent | aborted | leftOpen =>
      cases hs
      rfl
  | halted => cases hs
  | stopped hip _ hx =>
      cases hs
      have hc : text.getD p.ip 0 ∈ instructions := by
        refine ht _ ?_
        rw [Array.getD, dif_pos hip]
        exact Array.getElem_mem_toList hip
      generalize text.getD p.ip 0 = c at hx hc
      cases hx with
      | unknown hn =>
          simp only [instructions, List.mem_cons, List.not_mem_nil, or_false] at hc hn
          tauto
      | _ => rfl

end Machine

/-! ### What can be written -/

/-- No slot that is declared is empty, and the slots and the instructions are not too many. -/
structure Output.Short (code : List Instr) (frame : Option Frame) : Prop where
  positive : ∀ f, frame = some f → ∀ t ∈ f.slots, 0 < t.size.toInt
  small : Frame.cells (Frame.available frame code) + code.length < 2 ^ 17

/-- Operations that reach less than `2 ^ 18` cells, and not many of them, have a text that is less
than half as long as the longest one. -/
theorem textLength_le_of_near {ops : List MacroOp} (hn : ∀ part ∈ partsAll ops, part.Near (2 ^ 18))
    (hw : weights (partsAll ops) ≤ 2 ^ 22) : textLength ops ≤ 2 ^ 47 :=
  calc textLength ops
      ≤ 64 * (2 ^ 18 + 1) * weights (partsAll ops) := textLength_le hn
    _ ≤ 64 * (2 ^ 18 + 1) * 2 ^ 22 := Nat.mul_le_mul_left _ hw
    _ ≤ 2 ^ 47 := by decide

/-- **A compilation fails early or writes what lowering emits.** -/
theorem Output.compile_cases (code : List Instr) (frame : Option Frame) :
    (∃ e, Output.compile code frame = .error (.partition e)) ∨
    (∃ e, Output.compile code frame = .error (.lowering e)) ∨
    ∃ ops extent, Output.compile code frame = Output.generate ops extent ∧
      (∀ op ∈ ops, op.validate = .ok ()) ∧ (∀ part ∈ partsAll ops, part.Emitted) ∧
      (Output.Short code frame → textLength ops ≤ 2 ^ 47) := by
  unfold Output.compile
  split_ifs with hn
  · split
    · exact .inl ⟨_, rfl⟩
    · next p hb =>
        unfold Output.buildProgram
        split
        · exact .inr (.inl ⟨_, rfl⟩)
        · next ops s hl =>
            obtain ⟨hv, he⟩ := lowerProgram_emits (Program.partitioned_of_build hb).entry_mem hl
            refine .inr (.inr ⟨ops, _, rfl, hv, he, fun hs => ?_⟩)
            have hsmall := hs.small
            have hw := lowerProgram_weights hb hl (by omega)
            refine textLength_le_of_near ?_ (by omega)
            exact lowerProgram_near hb hl (by decide) (by push_cast; omega) (by decide)
  · have hi := Instr.not_hasControl_iff.mp hn
    unfold Output.build
    split
    · exact .inr (.inl ⟨_, rfl⟩)
    · next ops s hl =>
        have hlaid := LaidAll.of_lowerFrom rfl hl
        obtain ⟨hv, he⟩ := hlaid.emits hi
        refine .inr (.inr ⟨ops, _, rfl, hv, he, fun hs => ?_⟩)
        have hsmall := hs.small
        have hcells : Frame.cells (Frame.available frame code) < 2 ^ 62 := by omega
        have hm : Modest (Frame.available frame code) code := hlaid.modest hs.positive hcells
        have hnn := Frame.cells_nonneg hm.positive
        have hw := lower_weights hl hi
        refine textLength_le_of_near ?_ (by omega)
        exact lower_near hl hi hs.positive (by decide) (by push_cast; omega) (by decide)

theorem IsTransfer.balanced {text : Bytes} (h : IsTransfer text) : Balanced text := by
  rcases h with rfl | rfl <;> decide

/-- Written text with nothing else raw but reads and writes consists of instructions. -/
theorem Written.mem_instructions {text : Bytes} (h : Written IsTransfer text) {c : UInt8}
    (hc : c ∈ text) : c ∈ instructions := by
  rcases h.mem hc with hc | ⟨raw, hraw, hc⟩
  · simp only [instructions, List.mem_cons, List.not_mem_nil, or_false] at hc ⊢
    tauto
  · rcases hraw with rfl | rfl <;>
      (obtain rfl := List.mem_singleton.mp hc; decide)

/-- **Compiled text is well formed.** A compilation never fails for an operation that cannot be
written, and not at all in writing where the slots, none of which is empty, and the instructions are
less than `2 ^ 17` together: the text has at most `2 ^ 47` bytes then, half of what can be held. The
text of one that does not fail is that of its nodes; it consists of instructions with balanced
brackets; its operations keep their contracts and hold no control flow at any depth; and no run of
it on a fresh machine stops for a bracket without a match or for a byte that is no instruction. -/
theorem Output.compile_wellFormed (code : List Instr) (frame : Option Frame) :
    (∀ e, Output.compile code frame = .error (.expansion e) → ∃ count, e = .overlong count) ∧
    (Output.Short code frame →
      (∀ e, Output.compile code frame ≠ .error (.expansion e)) ∧
        ∀ out, Output.compile code frame = .ok out → out.code.length ≤ 2 ^ 47) ∧
    ∀ out, Output.compile code frame = .ok out →
      (∀ c ∈ out.code, c ∈ instructions) ∧ Balanced out.code ∧
      out.code = Node.flattenAll out.nodes ∧
      (∀ op ∈ out.ops, op.validate = .ok ()) ∧ (∀ instr, .control instr ∉ partsAll out.ops) ∧
      ∀ {capacity : Int64} {input : Source} {sink : Sink} {m : Machine},
        Machine.new? capacity input sink = some m →
        ∀ {σ : Type} (o : Options) (hook : Hook σ) (fuel : Nat) (s : σ) (r : Finished σ) stop,
          m.run o hook fuel out.code s = some r → r.stop = some stop →
          stop.isUnbalanced = false ∧ stop.isUnrecognized = false := by
  rcases Output.compile_cases code frame with ⟨e, he⟩ | ⟨e, he⟩ | ⟨ops, extent, hg, hv, hemit, hl⟩
  · rw [he]
    exact ⟨nofun, fun _ => ⟨nofun, nofun⟩, nofun⟩
  · rw [he]
    exact ⟨nofun, fun _ => ⟨nofun, nofun⟩, nofun⟩
  have hf := formed_of_emitted hv hemit
  rw [hg]
  refine ⟨fun e he => ?_, fun hs => ⟨fun e he => ?_, fun out ho => ?_⟩, fun out ho => ?_⟩
  · rcases cases_of_generate he with ⟨hn, -⟩ | ⟨-, count, hc⟩
    · exact absurd hf hn
    · exact ⟨count, CompileError.expansion.inj hc⟩
  · obtain ⟨out, ho⟩ := exists_generate hf ((hl hs).trans (by decide)) extent
    rw [ho] at he
    cases he
  · rw [(length_of_generate ho).2.1]
    exact hl hs
  · have hw : Written IsTransfer out.code := written_of_generate (rawAll_of_emitted hemit) ho
    have hbal : Balanced out.code := hw.balanced fun _ => IsTransfer.balanced
    have hchars : ∀ c ∈ out.code, c ∈ instructions := fun c hc => hw.mem_instructions hc
    obtain ⟨hops, hflat⟩ := parts_of_generate ho
    rw [hops]
    refine ⟨hchars, hbal, hflat, hv, fun instr hm => hemit _ hm, ?_⟩
    intro capacity input sink m hm σ o hook fuel s r stop hr hstop
    obtain ⟨-, hloops, -⟩ := Machine.view_new hm
    have hstart := Stacked.start (Sound.new hm) out.code s
    rw [hloops] at hstart
    obtain ⟨q, hvis, hturn⟩ := run_iff_visits.mp ⟨fuel, hr⟩
    have hend := turnEnd_of_turn hturn
    refine ⟨?_, hend.not_unrecognized hchars hstop⟩
    rw [← Bool.not_eq_true]
    intro hu
    exact (((hstart.visits (.inl rfl) hvis).isUnbalanced_iff hbal hend).mp ⟨stop, hstop, hu⟩).1 rfl

/-- A loop that writes what it reads. -/
theorem Output.compile_wellFormed_echo :
    ∃ m out, Machine.new? 16 { behind := [65] } {} = some m ∧
      Output.compile [.label [0x61], .read, .dup, .write, .cond [0x61] [0x62], .label [0x62]]
        none = .ok out ∧
      (∀ e, Output.compile [.label [0x61], .read, .dup, .write, .cond [0x61] [0x62],
        .label [0x62]] none ≠ .error (.expansion e)) ∧
      (∀ c ∈ out.code, c ∈ instructions) ∧ Balanced out.code ∧
      ∀ r stop, m.run { maxSteps := 50 } Hook.silent 99 out.code () = some r →
        r.stop = some stop → stop.isUnbalanced = false ∧ stop.isUnrecognized = false := by
  have hm : Machine.new? 16 { behind := [65] } {} =
      some { capacity := 16, input := { behind := [65] } } := rfl
  have hext : (Output.compile [.label [0x61], .read, .dup, .write, .cond [0x61] [0x62],
      .label [0x62]] none).toOption.map (·.extent) = some 6 := by decide +kernel
  obtain ⟨out, hc, -⟩ := exists_ok_of_map_eq_some hext
  obtain ⟨-, hshort, hok⟩ := Output.compile_wellFormed
    [.label [0x61], .read, .dup, .write, .cond [0x61] [0x62], .label [0x62]] none
  obtain ⟨hchars, hbal, -, -, -, hrun⟩ := hok out hc
  exact ⟨_, out, hm, hc, (hshort ⟨nofun, by decide⟩).1, hchars, hbal, hrun hm _ _ _ _⟩

end StackTape
