import StackTape.Proofs.Compile.Fresh
import StackTape.Proofs.Lowering.Program

/-!
# Compiled programs

`buildProgram_correct`: a program of blocks, compiled and run by a fresh machine, halts just when
the stack machine does, and then with the same output, input and slots; while neither halts, the
two have read and written the same again and again.
-/

namespace StackTape

open Machine MacroOp Lowering

theorem Output.buildProgram_eq_ok {p : Program} {frame : Option Frame} {out : Output}
    (h : Output.buildProgram p frame = .ok out) :
    ∃ ops s, (Lowering.start frame).lowerProgram p = .ok (ops, s) ∧
      Output.generate ops s.extent = .ok out := by
  unfold Output.buildProgram at h
  split at h
  · cases h
  · next ops s hl => exact ⟨ops, s, hl, h⟩

/-- The extent counts the dispatcher's cells. -/
theorem Lowering.toInt_extent {s : Lowering} (hb : s.base = controlSize) (hh : 0 ≤ s.high.toInt)
    (he : 0 ≤ s.extent.toInt) : s.extent.toInt = 3 + s.high.toInt := by
  have hc : controlSize.toInt = 3 := by decide
  have hl := s.high.toInt_lt
  rw [extent, hb, Int64.toInt_add, hc, Int.bmod_def] at he ⊢
  split_ifs at he ⊢ <;> omega

section

variable {code : List Instr} {l : Labeler} {p : Program} (hp : Program.build code l = .ok p)
  {frame : Option Frame} {f : Frame} (hf : (Lowering.start frame).frameFor p = .ok f)
  (hs : Frame.cells f.slots < 2 ^ 62) {out : Output} (hc : Output.buildProgram p frame = .ok out)
  {capacity : Int64} {input : Source} {sink : Sink} {m : Machine}
  (hm : Machine.new? capacity input sink = some m)

include hp hf hs hc

theorem Output.programmed_of_buildProgram (hx : 0 ≤ out.extent.toInt) :
    ∃ ops s, Programmed p f s ops ∧ Output.generate ops s.extent = .ok out ∧
      out.extent.toInt = 3 + s.high.toInt := by
  obtain ⟨ops, s, hl, hg⟩ := Output.buildProgram_eq_ok hc
  have hprog := lower_program (Program.partitioned_of_build hp).entry_mem hl hf hs
  have htotal := hprog.totalSize_le
  rw [(Output.generate_eq_ok hg).1] at hx ⊢
  exact ⟨ops, s, hprog, hg, Lowering.toInt_extent hprog.base (htotal.1.trans htotal.2) hx⟩

include hm

theorem Output.buildProgram_staysOnTape (hx₀ : 0 ≤ out.extent.toInt)
    (hx : out.extent.toInt < m.capacity) (o : Options) : m.StaysOnTape o out.code := by
  obtain ⟨ops, s, hprog, hg, he⟩ := Output.programmed_of_buildProgram hp hf hs hc hx₀
  have hsound := Sound.new hm
  obtain ⟨-, -, hptr, -⟩ := Machine.view_new hm
  have hcap := hsound.possible
  unfold largestCapacity at hcap
  have hfit : FitsAll m.capacity m.pointer 0 ops := by
    rw [hptr]
    exact hprog.fits (by omega) (by omega)
  exact (Output.staysOnTape_of_fits hsound hfit rfl hg).of_unlimited

/-- A program that halts comes to its end on a fresh machine, in the state of the stack machine. -/
theorem Output.ends_of_halted (hi : input.allowance = none) (hk : sink.Tireless) {o : Options}
    (ho : o.maxSteps = 0) (hx₀ : 0 ≤ out.extent.toInt) (hx : out.extent.toInt < m.capacity)
    {n : Nat} {σ : Store}
    (ha : p.after o.eof (Store.initial input.remaining) n = some (none, σ)) :
    ∃ r, m.Ends o out.code r ∧ r.stop = none ∧ r.machine.output = sink.after σ.output ∧
      r.machine.input.remaining = σ.input ∧ r.machine.Stores f 3 σ ∧ r.machine.pointer = 0 := by
  have hstays := Output.buildProgram_staysOnTape hp hf hs hc hm hx₀ hx o
  obtain ⟨ops, s, hprog, hg, he⟩ := Output.programmed_of_buildProgram hp hf hs hc hx₀
  have hsound := Sound.new hm
  obtain ⟨hview, hloops, -, rfl, rfl⟩ := Machine.view_new hm
  have hcap := hsound.possible
  unfold largestCapacity at hcap
  -- with fuel for one block more than the program has run, the operations are done
  obtain ⟨s₀, v, hd, hv, hpic⟩ : ∃ s v, s.depth = f.totalSize ∧
      meaningAll o.eof (n + 1) ops m.view = .done { v with pointer := 0 } ∧
      (hprog.sized.layout controlSize).Pictures (fun _ => 0) s σ v := by
    obtain ⟨s, n', goes, σ', v, hd, ha', ⟨hdone, rfl, hpic⟩ | ⟨-, hle, hrun, -⟩⟩ :=
      hprog.meaning (by omega) o.eof m.input.remaining (n + 1)
    · rw [hview, Program.halted_unique ha ha']
      exact ⟨s, v, hd, hdone, hpic⟩
    · exact absurd ha (hrun n hle σ)
  have hperf := Output.performs_of_generate hprog.proper hg o.eof (n + 1)
  obtain ⟨r, hr, hh⟩ := hperf.ends ho hsound hloops hi hk hstays hv
  have htotal := hprog.totalSize_le
  refine ⟨r, hr, hh.stop, ?_, ?_, ?_, ?_⟩
  · rw [hh.shows.output, ← hpic.output]
    rfl
  · rw [hh.shows.input, ← hpic.input]
  · refine hprog.sized.stores 3 hpic hh.shows rfl ?_
    rw [hd]
    show ((3 : Nat) : Int) + f.totalSize.toInt < m.capacity
    omega
  · have hlt := hh.shows.onTape
    have hle := hh.shows.possible
    have hptr' := congrArg Int64.toInt hh.shows.pointer
    unfold largestCapacity at hle
    rw [Int64.toInt_ofNat_of_lt (by omega)] at hptr'
    simpa using hptr'.symm

end

end StackTape
