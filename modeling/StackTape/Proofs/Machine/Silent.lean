import StackTape.Proofs.Machine.Evaluation

/-!
# Text without devices

A text with neither `.` nor `,` sees no device: with other devices in the machine it is evaluated in
the same way (`Evaluates.plug`).  So what it performs on machines whose devices never fail it
performs on all machines (`Performs.ends_silent`).
-/

namespace StackTape

/-- The text neither reads nor writes. -/
def Silent (s : Bytes) : Prop := ∀ c ∈ s, c ≠ 0x2E ∧ c ≠ 0x2C

namespace Machine

/-- The machine with other devices. -/
def plug (m : Machine) (input : Source) (output : Sink) : Machine := { m with input, output }

/-- The core with other devices. -/
def Core.plug (u : Core) (input : Source) (output : Sink) : Core := { u with input, output }

/-- An instruction that is no bracket and uses no device does the same with other devices. -/
theorem Executed.plug {eof : EofMode} {text : Array UInt8} {ip : Nat} {c : UInt8} {m m' : Machine}
    {next : Except Stop Nat} (h : Executed eof text ip m c m' next)
    (hc : c ∉ [0x5B, 0x5D, 0x2E, 0x2C]) (input : Source) (output : Sink) :
    Executed eof text ip (m.plug input output) c (m'.plug input output) next := by
  cases h with
  | right h => exact .right h
  | overflow h => exact .overflow h
  | left h => exact .left h
  | underflow h => exact .underflow h
  | up => exact .up
  | down => exact .down
  | unknown h => exact .unknown h
  | enter | pass | unclosed | back | unopened | write | unwritten | read | ended | unread =>
      simp at hc

theorem Core.byte_plug {c : UInt8} (hc : c ∉ [0x5B, 0x5D, 0x2E, 0x2C]) (eof : EofMode) (u : Core)
    (input : Source) (output : Sink) :
    (u.plug input output).byte eof c =
      ((u.byte eof c).1.plug input output, (u.byte eof c).2) := by
  by_cases hs : isSpace c
  · rw [byte_space hs, byte_space hs]
  · rw [Bool.not_eq_true] at hs
    have hb : c ≠ 0x5B ∧ c ≠ 0x5D := by
      simp only [List.mem_cons, not_or] at hc
      exact ⟨hc.1, hc.2.1⟩
    rcases byte_executed hs eof u with ⟨m, _, he, -⟩ | ⟨m, _, he, -⟩
    · have hu : u.byte eof c = (m.core, none) := (he.core_ok hs hb.1 hb.2).1
      rw [hu]
      exact ((he.plug hc input output).core_ok hs hb.1 hb.2).1
    · have hu : u.byte eof c = (m.core, _) := he.core_error hs hb.1 hb.2
      rw [hu]
      exact (he.plug hc input output).core_error hs hb.1 hb.2

namespace Evaluates

variable {eof : EofMode} {s body rest : Bytes} {u v : Core} {stop : Option Stop}

/-- **A silent piece is evaluated with any devices.** -/
theorem plug (h : Evaluates eof s u v stop) (hs : Silent s) (input : Source) (output : Sink) :
    Evaluates eof s (u.plug input output) (v.plug input output) stop := by
  have hloop : ∀ {body rest : Bytes}, Silent (0x5B :: (body ++ 0x5D :: rest)) →
      Silent body ∧ Silent rest := fun h =>
    ⟨fun c hc => h c (by simp [hc]), fun c hc => h c (by simp [hc])⟩
  induction h with
  | nil => exact .nil _
  | @instr c _ u _ _ _ h₁ h₂ h _ ih =>
      obtain ⟨hc, hrest⟩ := List.forall_mem_cons.mp hs
      refine .instr h₁ h₂ ?_ (ih hrest)
      rw [Core.byte_plug (by simp [h₁, h₂, hc]), h]
  | stops h₁ h₂ h =>
      obtain ⟨hc, -⟩ := List.forall_mem_cons.mp hs
      refine .stops h₁ h₂ ?_
      rw [Core.byte_plug (by simp [h₁, h₂, hc]), h]
  | pass hb h _ ih => exact .pass hb h (ih (hloop hs).2)
  | round hb h _ _ ihb ih => exact .round hb h (ihb (hloop hs).1) (ih hs)
  | inside hb h _ ihb => exact .inside hb h (ihb (hloop hs).1)

end Evaluates

/-- The machine with devices that never fail. -/
def quiet (m : Machine) : Machine := m.plug {} {}

variable {o : Options} {code : Bytes} {m : Machine}

theorem Sound.quiet (hm : m.Sound) : m.quiet.Sound := ⟨hm.onTape, hm.possible, hm.remembers⟩

/-- A run of silent text that ends with the devices of `m.quiet` ends so with those of `m`. -/
theorem Ends.of_quiet {r : Finished Unit} (h : m.quiet.Ends o code r) (hb : Balanced code)
    (hs : Silent code) (ho : o.maxSteps = 0) (hm : m.Sound) (hl : m.loops = []) :
    ∃ r', m.Ends o code r' ∧ r'.machine.core = r.machine.core.plug m.input m.output ∧
      r'.stop.map Stop.unplaced = r.stop.map Stop.unplaced :=
  ((h.evaluates hb ho hm.quiet hl).plug hs m.input m.output).ends ho hm hl

theorem StaysOnTape.quiet (h : m.StaysOnTape o code) (hb : Balanced code) (hs : Silent code)
    (ho : o.maxSteps = 0) (hm : m.Sound) (hl : m.loops = []) : m.quiet.StaysOnTape o code := by
  intro r stop hr hstop
  obtain ⟨r', hr', -, hstop'⟩ := hr.of_quiet hb hs ho hm hl
  rw [hstop] at hstop'
  obtain ⟨stop', hr'stop, hun⟩ := Option.map_eq_some_iff.mp hstop'
  have hleaves := h r' stop' hr' hr'stop
  rwa [← Stop.leavesTape_unplaced, hun, Stop.leavesTape_unplaced] at hleaves

/-- **A run of silent text ends if its action is done**, whatever the devices: the cells and the
pointer are those of the action, and the devices are as they were. -/
theorem Performs.ends_silent {fuel : Nat} {act : View → Ending} {u : View}
    (h : Performs o.eof fuel code act) (hs : Silent code) (ho : o.maxSteps = 0) (hm : m.Sound)
    (hl : m.loops = []) (ht : m.StaysOnTape o code) (hu : act m.quiet.view = .done u) :
    ∃ r, m.Ends o code r ∧ r.stop = none ∧ r.machine.input = m.input ∧
      r.machine.output = m.output ∧ Int64.ofNat r.machine.pointer = u.pointer ∧
      r.machine.pointer < m.capacity ∧
      ∀ i < m.capacity, r.machine.cell i = u.cells (Int64.ofNat i) := by
  obtain ⟨r, hr, hh⟩ := h.ends ho hm.quiet hl rfl (.inr rfl) (ht.quiet h.balanced hs ho hm hl) hu
  obtain ⟨r', hr', hcore, hstop⟩ := hr.of_quiet h.balanced hs ho hm hl
  rw [hh.stop, Option.map_none, Option.map_eq_none_iff] at hstop
  have htape : r'.machine.tape = r.machine.tape := congrArg Core.tape hcore
  have hptr : r'.machine.pointer = r.machine.pointer := congrArg Core.pointer hcore
  refine ⟨r', hr', hstop, congrArg Core.input hcore, congrArg Core.output hcore, ?_, ?_,
    fun i hi => ?_⟩
  · rw [hptr]
    exact hh.shows.pointer.symm
  · rw [hptr]
    exact hh.shows.onTape
  · have hcell := hh.shows.cells i hi
    rw [hcell, cell, cell, htape]

end Machine

end StackTape
