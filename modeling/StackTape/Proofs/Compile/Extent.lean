import StackTape.Proofs.Compile.Program
import StackTape.Proofs.Lowering.Slots

/-!
# The tape that compiled code needs

`compile_staysOnTape`: whatever a compiled text reads, on a tape with one cell more than its extent
it never leaves the tape.  The extent counts the cells that are written to; the pointer rests one
cell above the stack, so a tape of just the extent may be too small (`compile_leavesTape`).
-/

namespace StackTape

open Machine MacroOp Lowering

theorem Output.build_eq_ok {code : List Instr} {frame : Option Frame} {out : Output}
    (h : Output.build code frame = .ok out) :
    ∃ ops s, (Lowering.start frame).lower code = .ok (ops, s) ∧
      Output.generate ops s.extent = .ok out := by
  unfold Output.build at h
  split at h
  · cases h
  · next ops s hl => exact ⟨ops, s, hl, h⟩

theorem Instr.not_hasControl_iff {code : List Instr} :
    ¬ Instr.hasControl code ↔ ∀ i ∈ code, ¬ i.opcode.isControl := by
  simp [Instr.hasControl]

/-- The extent of straight-line code is its watermark. -/
theorem Lowering.LaidAll.extent {code : List Instr} {frame : Option Frame} {ops : List MacroOp}
    {s : Lowering} (h : LaidAll (Lowering.start frame) code ops s) : s.extent = s.high := by
  rw [Lowering.extent, h.same.2.1]
  exact Int64.zero_add _

section

variable {code : List Instr} {frame : Option Frame} {out : Output}
  (hp : ∀ f, frame = some f → ∀ t ∈ f.slots, 0 < t.size.toInt)
  (hs : Frame.cells (Frame.available frame code) < 2 ^ 62) {capacity : Int64} {input : Source}
  {sink : Sink} {m : Machine} (hm : Machine.new? capacity input sink = some m)

include hp hs hm

theorem Output.build_staysOnTape (hn : ¬ Instr.hasControl code)
    (hc : Output.build code frame = .ok out) (hx : out.extent.toInt < m.capacity) (o : Options) :
    m.StaysOnTape o out.code := by
  obtain ⟨ops, s, hl, hg⟩ := Output.build_eq_ok hc
  have hlaid := LaidAll.of_lowerFrom rfl hl
  have hcontrol := Instr.not_hasControl_iff.mp hn
  have hsound := Sound.new hm
  obtain ⟨-, -, hptr, -⟩ := Machine.view_new hm
  have hcap := hsound.possible
  unfold largestCapacity at hcap
  rw [(Output.generate_eq_ok hg).1, hlaid.extent] at hx
  have hfit : FitsAll m.capacity m.pointer 0 ops := by
    rw [hptr]
    exact (hlaid.fits hcontrol (hlaid.modest hp hs) (tidy_start frame) (by omega) hx).1
  exact (Output.staysOnTape_of_fits hsound hfit rfl hg).of_unlimited

/-- **A compiled text stays on a tape that is larger than its extent**, with or without control
flow, whatever it reads and wherever a budget ends it. -/
theorem Output.compile_staysOnTape (hc : Output.compile code frame = .ok out)
    (hx₀ : 0 ≤ out.extent.toInt) (hx : out.extent.toInt < m.capacity) (o : Options) :
    m.StaysOnTape o out.code := by
  unfold Output.compile at hc
  split_ifs at hc with hn
  · split at hc
    · cases hc
    · next p hb =>
        obtain ⟨ops, s, hl, -⟩ := Output.buildProgram_eq_ok hc
        obtain ⟨-, f, -, -, -, hf, -⟩ := lowerProgram_eq_ok hl
        rw [← slots_frameFor hb hf] at hs
        exact Output.buildProgram_staysOnTape hb hf hs hc hm hx₀ hx o
  · exact Output.build_staysOnTape hp hs hm hn hc hx o

end

/-- Two cells are enough for code with an extent of one. -/
theorem Output.compile_staysOnTape_two :
    ∃ m out, Machine.new? 2 {} {} = some m ∧
      Output.compile [.push [0x35, 0x63], .write] none = .ok out ∧ out.extent = 1 ∧
      m.StaysOnTape { maxSteps := 3 } out.code := by
  obtain ⟨out, hc, hx⟩ : ∃ out, Output.compile [.push [0x35, 0x63], .write] none = .ok out ∧
      out.extent = 1 := ⟨_, rfl, rfl⟩
  have hm : Machine.new? 2 {} {} = some { capacity := 2 } := rfl
  refine ⟨_, out, hm, hc, hx, ?_⟩
  exact Output.compile_staysOnTape (by simp) (by decide) hm hc (by rw [hx]; decide)
    (by rw [hx]; decide) _

/-- One cell is not enough: the pointer has to go above the byte before it is written. -/
theorem Output.compile_leavesTape :
    ∃ m out r stop, Machine.new? 1 {} {} = some m ∧
      Output.compile [.push [0x35, 0x63], .write] none = .ok out ∧ out.extent = 1 ∧
      m.Ends {} out.code r ∧ r.stop = some stop ∧ stop.leavesTape := by
  refine ⟨_, _, _, _, rfl, rfl, rfl, ⟨20, rfl⟩, rfl, rfl⟩

end StackTape
