import StackTape.Proofs.Machine.Brackets
import StackTape.Proofs.MacroOp.Meaning

/-!
# A machine seen as a view

`Shows s m v`: in the setting `s` (the text, the size of the tape and the sink at the start) the
machine `m` holds what the view `v` says.  An instruction that is no bracket takes a machine that
shows `v` to one that shows `v.byte` (`Shows.advance_byte`), unless the pointer would leave the
tape; a bracket changes nothing but the open loops (`Shows.enter`, `Shows.pass`, `Shows.back`).
-/

namespace StackTape

theorem Tape.get_set (t : Tape) (i j : Nat) (x : UInt8) :
    (t.set i x).get j = if j = i then x else t.get j := by
  unfold Tape.set Tape.get
  by_cases hi : i < t.cells.size
  · rw [if_pos hi]
    by_cases hj : j = i
    · subst hj
      simp [Array.getD, hi]
    · rw [Array.getD_eq_getD_getElem?, Array.getD_eq_getD_getElem?,
        Array.getElem?_setIfInBounds_ne (Ne.symm hj), if_neg hj]
  rw [if_neg hi]
  by_cases hx : x = 0
  · subst hx
    by_cases hj : j = i
    · simp [Array.getD, hj, hi]
    · simp [hj]
  rw [if_neg hx]
  simp only [Array.getD_eq_getD_getElem?, Array.getElem?_push, Array.size_append,
    Array.size_replicate]
  have hsize : t.cells.size + (i - t.cells.size) = i := by omega
  rw [hsize]
  by_cases hj : j = i
  · simp [hj]
  · simp only [hj, if_false]
    by_cases hjs : j < t.cells.size
    · simp [Array.getElem?_append, hjs]
    · by_cases hji : j < i <;> simp [Array.getElem?_append, Array.getElem?_replicate, hjs] <;> grind

/-! ### Devices without a limit -/

/-- A source that has ended keeps ending. -/
theorem Source.read_nil {s : Source} (ha : s.allowance = none) (hr : s.remaining = []) :
    ∃ s', s.read = (.ended, s') ∧ s'.remaining = [] ∧ s'.allowance = none := by
  obtain ⟨buffer, behind, allowance⟩ := s
  simp only [remaining, List.append_eq_nil_iff] at ha hr
  obtain ⟨rfl, rfl⟩ := hr
  subst ha
  exact ⟨_, rfl, rfl, rfl⟩

theorem Source.read_cons {s : Source} {b : UInt8} {rest : Bytes} (ha : s.allowance = none)
    (hr : s.remaining = b :: rest) :
    ∃ s', s.read = (.byte b, s') ∧ s'.remaining = rest ∧ s'.allowance = none := by
  obtain ⟨buffer, behind, allowance⟩ := s
  simp only [remaining] at ha hr
  subst ha
  cases buffer with
  | cons c more =>
      obtain ⟨rfl, rfl⟩ := List.cons.inj hr
      exact ⟨_, rfl, rfl, rfl⟩
  | nil =>
      subst hr
      refine ⟨⟨rest.take (pieceSize - 1), rest.drop (pieceSize - 1), none⟩, ?_, ?_, rfl⟩
      · simp [read, fill, Allowance.use, pieceSize]
      · exact List.take_append_drop _ _

/-- The sink after some bytes were written. -/
def Sink.after (k : Sink) (out : Bytes) : Sink :=
  if k.discards then k else { k with written := k.written ++ out.toArray }

theorem Sink.after_nil (k : Sink) : k.after [] = k := by
  simp [after]

/-- No write fails. -/
def Sink.Tireless (k : Sink) : Prop := k.discards ∨ k.allowance = none

/-- A sink that does not tire takes one byte more. -/
theorem Sink.write_after {k : Sink} (h : k.Tireless) (out : Bytes) (b : UInt8) :
    (k.after out).write b = some (k.after (out ++ [b])) := by
  unfold after
  by_cases hd : k.discards
  · simp [hd, write]
  · simp only [hd, if_false, write, Bool.false_eq_true, h.resolve_left hd, Allowance.use]
    rw [← Array.append_singleton, Array.append_assoc, ← List.append_toArray]

namespace Machine

/-! ### What is shown -/

/-- What stays as it is during a run: the options, the text, the number of cells, and the sink
before the first byte was written. -/
structure Setting where
  options : Options
  text : Array UInt8
  size : Nat
  sink : Sink

/-- The machine holds what the view says, and its devices have no limit. -/
structure Shows (s : Setting) (m : Machine) (v : View) : Prop where
  size : m.capacity = s.size
  possible : s.size ≤ largestCapacity
  onTape : m.pointer < s.size
  remembers : Remembers s.text m
  pointer : v.pointer = Int64.ofNat m.pointer
  cells : ∀ i < s.size, v.cells (Int64.ofNat i) = m.cell i
  input : m.input.remaining = v.input
  reads : m.input.allowance = none
  output : m.output = s.sink.after v.output
  writes : s.sink.Tireless

/-- Cells of a tape are told apart by their words. -/
theorem ofNat_inj {i j : Nat} (hi : i < largestCapacity) (hj : j < largestCapacity)
    (h : Int64.ofNat i = Int64.ofNat j) : i = j := by
  have := congrArg Int64.toInt h
  unfold largestCapacity at hi hj
  rwa [Int64.toInt_ofNat_of_lt (by omega), Int64.toInt_ofNat_of_lt (by omega), Int.ofNat_inj]
    at this

namespace Shows

variable {s : Setting} {m : Machine} {v : View}

/-- The machine and the view agree on the cell under the pointer. -/
theorem current (h : Shows s m v) : m.current = v.get 0 := by
  rw [View.get, h.pointer, Int64.add_zero, h.cells _ h.onTape]
  rfl

/-- Neither the trace, the step count nor the open loops are shown. -/
theorem unseen (h : Shows s m v) (trace : Array UInt8) (steps : UInt64) (loops : List Nat) :
    Shows s { m with trace, steps, loops } v := by
  obtain ⟨h₁, h₂, h₃, h₄, h₅, h₆, h₇, h₈, h₉, h₁₀⟩ := h
  exact ⟨h₁, h₂, h₃, h₄, h₅, h₆, h₇, h₈, h₉, h₁₀⟩

theorem traceAt (h : Shows s m v) (o : Options) (code : Bytes) (ip : Nat) :
    Shows s (m.traceAt o code ip) v := by
  unfold Machine.traceAt
  split_ifs
  · exact h.unseen _ m.steps m.loops
  · exact h

/-- So they do after it is written. -/
theorem put (h : Shows s m v) (x : UInt8) : Shows s (m.put m.pointer x) (v.put 0 x) := by
  refine { h with cells := fun i hi => ?_ }
  show Function.update v.cells (v.pointer + 0) x _ = (m.tape.set m.pointer x).get i
  rw [Tape.get_set, h.pointer, Int64.add_zero]
  by_cases hip : i = m.pointer
  · rw [if_pos hip, hip, Function.update_self]
  · have hne : Int64.ofNat i ≠ Int64.ofNat m.pointer := fun he =>
      hip (ofNat_inj (Nat.lt_of_lt_of_le hi h.possible)
        (Nat.lt_of_lt_of_le h.onTape h.possible) he)
    rw [if_neg hip, Function.update_of_ne hne, h.cells i hi]
    rfl

theorem moved (h : Shows s m v) {p : Nat} (d : Int64) (hp : p < s.size)
    (hd : v.pointer + d = Int64.ofNat p) : Shows s { m with pointer := p } (v.go d) :=
  { h with onTape := hp, pointer := hd }

/-- A move on the tape is a move of the view. -/
theorem right (h : Shows s m v) (hp : m.pointer + 1 < s.size) :
    Shows s { m with pointer := m.pointer + 1 } (v.go 1) :=
  h.moved 1 hp (by rw [h.pointer, Int64.ofNat_add]; rfl)

theorem left (h : Shows s m v) (hp : m.pointer ≠ 0) :
    Shows s { m with pointer := m.pointer - 1 } (v.go (-1)) := by
  refine h.moved (-1) (Nat.lt_of_le_of_lt (Nat.sub_le _ _) h.onTape) ?_
  obtain ⟨p, hp⟩ := Nat.exists_eq_succ_of_ne_zero hp
  rw [h.pointer, hp, Nat.succ_sub_one, Nat.succ_eq_add_one, Int64.ofNat_add]
  grind

theorem write (h : Shows s m v) :
    ∃ output, m.output.write m.current = some output ∧ Shows s { m with output } v.emit := by
  refine ⟨s.sink.after (v.output ++ [v.get 0]), ?_, { h with output := rfl }⟩
  rw [h.output, h.current, Sink.write_after h.writes]

/-- Reading, whether a byte comes or the input has ended. -/
theorem read (h : Shows s m v) (eof : EofMode) :
    (∃ b input, m.input.read = (.byte b, input) ∧
      Shows s ({ m with input }.put m.pointer b) (v.read eof)) ∨
    ∃ input, m.input.read = (.ended, input) ∧
      Shows s ({ m with input }.put m.pointer (eof.store m.current)) (v.read eof) := by
  unfold View.read
  cases hv : v.input with
  | nil =>
      obtain ⟨input, hr, he, ha⟩ := Source.read_nil h.reads (h.input.trans hv)
      have hm : Shows s { m with input } v := { h with input := he.trans hv.symm, reads := ha }
      refine .inr ⟨input, hr, ?_⟩
      rw [h.current]
      exact hm.put _
  | cons b rest =>
      obtain ⟨input, hr, he, ha⟩ := Source.read_cons h.reads (h.input.trans hv)
      have hm : Shows s { m with input } { v with input := rest } :=
        { h with input := he, reads := ha }
      exact .inl ⟨b, input, hr, hm.put b⟩

/-! ### One step -/

/-- An instruction that is no bracket: the machine goes on with the view's byte, or the pointer
would leave the tape. -/
theorem exec_byte (h : Shows s m v) (eof : EofMode) (ip : Nat) {c : UInt8}
    (hc : c ∈ [0x3E, 0x3C, 0x2B, 0x2D, 0x2E, 0x2C]) :
    (∃ m', exec eof s.text ip c m = (m', .ok (ip + 1)) ∧ Shows s m' (v.byte eof c) ∧
      m'.loops = m.loops) ∨
    ∃ m' stop, exec eof s.text ip c m = (m', .error stop) ∧ stop.leavesTape := by
  simp only [List.mem_cons, List.not_mem_nil, or_false] at hc
  rcases hc with rfl | rfl | rfl | rfl | rfl | rfl
  · rw [View.byte_right]
    by_cases hp : m.pointer + 1 < m.capacity
    · exact .inl ⟨_, by simp [exec, hp], h.right (h.size ▸ hp), rfl⟩
    · exact .inr ⟨m, m.faultAt .pointerOverflow ip 0x3E, by simp [exec, hp], rfl⟩
  · rw [View.byte_left]
    by_cases hp : m.pointer = 0
    · exact .inr ⟨m, m.faultAt .pointerUnderflow ip 0x3C, by simp [exec, hp], rfl⟩
    · exact .inl ⟨_, by simp [exec, hp], h.left hp, rfl⟩
  · rw [View.byte_up, View.plus, ← h.current]
    exact .inl ⟨_, by simp [exec], h.put _, rfl⟩
  · rw [View.byte_down, View.plus, ← h.current, ← UInt8.sub_eq_add_neg]
    exact .inl ⟨_, by simp [exec], h.put _, rfl⟩
  · rw [View.byte_write]
    obtain ⟨output, hw, hs⟩ := h.write
    exact .inl ⟨_, by simp [exec, hw], hs, rfl⟩
  · rw [View.byte_read]
    rcases h.read eof with ⟨b, input, hr, hs⟩ | ⟨input, hr, hs⟩
    · exact .inl ⟨_, by simp [exec, hr], hs, rfl⟩
    · exact .inl ⟨_, by simp [exec, hr], hs, rfl⟩

section

variable {ip : Nat} {c : UInt8}

/-- The step at a byte that is no white space, in terms of `exec`. -/
theorem advance_eq {o : Options} {text : Array UInt8} {m : Machine} (hip : ip < text.size)
    (hc : text.getD ip 0 = c) (hs : isSpace c = false) :
    advance o text ip m =
      match exec o.eof text ip c (m.traceAt o m.code ip) with
      | (m, .ok next) => some (next, m.tick)
      | (_, .error _) => none := by
  rw [advance, if_pos hip, hc, hs]
  rfl

/-- An instruction that stops at an end of the tape has left it. -/
theorem leaves_of_exec {o : Options} {text : Array UInt8} {m m' : Machine} {stop : Stop}
    (hip : ip < text.size) (hc : text.getD ip 0 = c) (hs : isSpace c = false)
    (he : exec o.eof text ip c (m.traceAt o m.code ip) = (m', .error stop))
    (hl : stop.leavesTape) : Leaves o text ip m := by
  refine ⟨?_, stop, ?_, hl⟩
  · rw [advance_eq hip hc hs, he]
  · rw [conclude, if_pos hip, hc, he]

theorem loops_traceAt (o : Options) (code : Bytes) (ip : Nat) (m : Machine) :
    (m.traceAt o code ip).loops = m.loops := by
  unfold Machine.traceAt
  split_ifs <;> rfl

/-- A byte of tape text that is no bracket. -/
theorem advance_byte (h : Shows s m v) (hip : ip < s.text.size) (hc : s.text.getD ip 0 = c)
    (ht : MacroOp.isTapeByte c) (hb : MacroOp.isBracket c = false)
    (hl : ¬ Leaves s.options s.text ip m) :
    ∃ m', advance s.options s.text ip m = some (ip + 1, m') ∧
      Shows s m' (v.byte s.options.eof c) ∧ m'.loops = m.loops := by
  by_cases hs : isSpace c
  · refine ⟨m, ?_, ?_, rfl⟩
    · rw [advance, if_pos hip, hc, hs]
      rfl
    · rw [View.byte_other]
      · exact h
      · rintro hmem
        simp only [List.mem_cons, List.not_mem_nil, or_false] at hmem
        rcases hmem with rfl | rfl | rfl | rfl | rfl | rfl <;> simp [isSpace] at hs
  · rw [Bool.not_eq_true] at hs
    have hmem : c ∈ [0x3E, 0x3C, 0x2B, 0x2D, 0x2E, 0x2C] := by
      simp only [MacroOp.isTapeByte, MacroOp.isBracket, isSpace, List.mem_cons] at ht hb hs ⊢
      grind
    have hloops := loops_traceAt s.options m.code ip m
    rcases (h.traceAt s.options m.code ip).exec_byte s.options.eof ip hmem with
        ⟨m', he, hm, hm'⟩ | ⟨m', stop, he, hstop⟩
    · refine ⟨m'.tick, ?_, hm.unseen m'.trace (m'.steps + 1) m'.loops, hm'.trans hloops⟩
      rw [advance_eq hip hc hs, he]
    · exact absurd (leaves_of_exec hip hc hs he hstop) hl

/-- Tracing and counting around an instruction are not seen. -/
theorem advance_of_exec (h : Shows s m v) (hip : ip < s.text.size) (hc : s.text.getD ip 0 = c)
    (hs : isSpace c = false) {next : Nat} {loops : List Nat} {v' : View}
    (he : ∀ u : Machine, Shows s u v → u.loops = m.loops →
      ∃ m', exec s.options.eof s.text ip c u = (m', .ok next) ∧ Shows s m' v' ∧
        m'.loops = loops) :
    ∃ m', advance s.options s.text ip m = some (next, m') ∧ Shows s m' v' ∧ m'.loops = loops := by
  obtain ⟨m', he, hm, hl⟩ := he _ (h.traceAt s.options m.code ip) (loops_traceAt ..)
  refine ⟨m'.tick, ?_, hm.unseen m'.trace (m'.steps + 1) m'.loops, hl⟩
  rw [advance_eq hip hc hs, he]

/-- A `[` on a nonzero cell opens a loop. -/
theorem enter (h : Shows s m v) (hip : ip < s.text.size) (hc : s.text.getD ip 0 = 0x5B)
    (hv : v.get 0 ≠ 0) :
    ∃ m', advance s.options s.text ip m = some (ip + 1, m') ∧ Shows s m' v ∧
      m'.loops = ip :: m.loops := by
  refine h.advance_of_exec hip hc (by decide) fun u hu hl => ?_
  refine ⟨{ u with loops := ip :: u.loops }, ?_, hu.unseen u.trace u.steps _, congrArg _ hl⟩
  have hz : u.current ≠ 0 := hu.current ▸ hv
  simp [exec, hz]

/-- A `[` on a zero cell goes on behind the matching `]`. -/
theorem pass (h : Shows s m v) {body : Bytes} (hb : Balanced body)
    (hs : Holds s.text ip (0x5B :: (body ++ [0x5D]))) (hv : v.get 0 = 0) :
    ∃ m', advance s.options s.text ip m = some (ip + 1 + body.length + 1, m') ∧ Shows s m' v ∧
      m'.loops = m.loops := by
  obtain ⟨⟨hip, hc⟩, -⟩ := holds_cons_iff.mp hs
  refine h.advance_of_exec hip hc (by decide) fun u hu hl => ?_
  have hz : u.current = 0 := hu.current.trans hv
  have hj := hu.remembers.skip ip
  obtain ⟨skips, hskip, hrem⟩ := hu.remembers.skip_snd ip
  rw [matchFrom_loop hb hs] at hj
  refine ⟨{ u with skips }, ?_, { hu with remembers := hrem }, hl⟩
  rw [← hskip]
  generalize hsk : u.skip s.text ip = e at hj
  obtain ⟨j, m₁⟩ := e
  cases hj
  simp [exec, hz, hsk]

/-- A `]` goes back to the innermost `[`. -/
theorem back (h : Shows s m v) (hip : ip < s.text.size) (hc : s.text.getD ip 0 = 0x5D)
    {top : Nat} {rest : List Nat} (hl : m.loops = top :: rest) :
    ∃ m', advance s.options s.text ip m = some (top, m') ∧ Shows s m' v ∧ m'.loops = rest := by
  refine h.advance_of_exec hip hc (by decide) fun u hu hu' => ?_
  refine ⟨{ u with loops := rest }, ?_, hu.unseen u.trace u.steps _, rfl⟩
  simp [exec, hu', hl]

end

end Shows

end Machine

end StackTape
