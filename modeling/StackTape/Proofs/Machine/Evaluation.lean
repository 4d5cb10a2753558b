import StackTape.Proofs.Machine.Turns
import StackTape.Proofs.Machine.Whole

/-!
# The evaluation of balanced text

`Evaluates eof seg u v stop` runs a balanced piece of text without positions: a loop is passed
over, or its body is evaluated and the loop again.  It ends at the end of the piece (`stop` is
`none`) or at an instruction that stops.  Of a machine only its core counts, what the instructions
other than brackets read and write (`Core`).

A run of balanced text and its evaluation are the same thing: what is evaluated is what a run
answers (`Evaluates.ends`), and every run that ends has an evaluation (`Ends.evaluates`).  The
first is by induction on the evaluation, wherever the piece stands in a text (`Evaluates.arrives`);
the second by the number of steps that are left (`evaluates_of_steps`).
-/

namespace StackTape

/-- The same stop with the position forgotten. -/
def Stop.unplaced : Stop → Stop
  | .fault f => .fault { f with ip := 0 }
  | .stepLimit steps _ => .stepLimit steps 0
  | .outputFailed _ => .outputFailed 0
  | .inputFailed _ => .inputFailed 0
  | .aborted => .aborted

@[simp] theorem Stop.leavesTape_unplaced (s : Stop) : s.unplaced.leavesTape = s.leavesTape := by
  cases s <;> rfl

/-- The stop of a run whose device fails. -/
def Stop.isDevice : Stop → Bool
  | .outputFailed _ | .inputFailed _ => true
  | _ => false

@[simp] theorem Stop.isDevice_unplaced (s : Stop) : s.unplaced.isDevice = s.isDevice := by
  cases s <;> rfl

namespace Machine

/-- Two cells of one tape are as far apart as the word between them says. -/
theorem eq_add_toInt {i j : Nat} (hi : i < largestCapacity) (hj : j < largestCapacity) {k : Int64}
    (h : Int64.ofNat j = Int64.ofNat i + k) : (j : Int) = i + k.toInt := by
  have hk : k = Int64.ofNat j - Int64.ofNat i := by grind
  unfold largestCapacity at hi hj
  rw [hk, Int64.toInt_sub, Int64.toInt_ofNat_of_lt (by omega), Int64.toInt_ofNat_of_lt (by omega),
    Int.bmod_eq_of_le (by omega) (by omega)]
  omega

/-- An instruction out of a list without brackets. -/
theorem ne_bracket {c : UInt8} {l : List UInt8} (hc : c ∈ l) (h₁ : 0x5B ∉ l) (h₂ : 0x5D ∉ l) :
    c ≠ 0x5B ∧ c ≠ 0x5D :=
  ⟨fun e => h₁ (e ▸ hc), fun e => h₂ (e ▸ hc)⟩

/-- How far an instruction moves the pointer. -/
def pace (c : UInt8) : Int64 := if c = 0x3E then 1 else if c = 0x3C then -1 else 0

/-! ### The core -/

/-- What the instructions other than brackets read and write. -/
structure Core where
  capacity : Nat
  tape : Tape
  pointer : Nat
  input : Source
  output : Sink

/-- The machine without its bookkeeping. -/
def core (m : Machine) : Core := ⟨m.capacity, m.tape, m.pointer, m.input, m.output⟩

theorem core_skip (m : Machine) (text : Array UInt8) (ip : Nat) :
    (m.skip text ip).2.core = m.core := by
  unfold skip
  split
  · rfl
  · split <;> rfl

/-- An instruction that goes on moves the pointer by its pace. -/
theorem Executed.pointer {eof : EofMode} {text : Array UInt8} {ip next : Nat} {c : UInt8}
    {m m' : Machine} (h : Executed eof text ip m c m' (.ok next)) :
    Int64.ofNat m'.pointer = Int64.ofNat m.pointer + pace c := by
  cases h with
  | right => exact Int64.ofNat_add ..
  | left h =>
      obtain ⟨n, hn⟩ := Nat.exists_eq_succ_of_ne_zero h
      have hp : pace 0x3C = -1 := by decide
      rw [hn, hp, Nat.succ_sub_one, Nat.succ_eq_add_one, Int64.ofNat_add]
      grind
  | up | down | enter | back | write | read | ended => exact (Int64.add_zero _).symm
  | pass =>
      have hp : (m.skip text ip).2.pointer = m.pointer :=
        congrArg Core.pointer (core_skip m text ip)
      rw [hp]
      exact (Int64.add_zero _).symm

namespace Core

/-- A machine that has done nothing but come to this core. -/
def machine (u : Core) : Machine where
  capacity := u.capacity
  tape := u.tape
  pointer := u.pointer
  input := u.input
  output := u.output

/-- The value under the pointer. -/
def current (u : Core) : UInt8 := u.tape.get u.pointer

/-- Sets the cell under the pointer. -/
def put (u : Core) (x : UInt8) : Core := { u with tape := u.tape.set u.pointer x }

/-- What a byte other than a bracket does, wherever it stands. -/
def byte (eof : EofMode) (c : UInt8) (u : Core) : Core × Option Stop :=
  if isSpace c then (u, none)
  else
    match exec eof #[] 0 c u.machine with
    | (m, .ok _) => (m.core, none)
    | (m, .error stop) => (m.core, some stop)

theorem byte_space {c : UInt8} (h : isSpace c) (eof : EofMode) (u : Core) :
    u.byte eof c = (u, none) := by
  rw [byte, if_pos h]

/-- A byte that is no space is an instruction. -/
theorem byte_executed {c : UInt8} (h : isSpace c = false) (eof : EofMode) (u : Core) :
    (∃ m next, Executed eof #[] 0 u.machine c m (.ok next) ∧ u.byte eof c = (m.core, none)) ∨
      ∃ m stop, Executed eof #[] 0 u.machine c m (.error stop) ∧
        u.byte eof c = (m.core, some stop) := by
  have he := executed_exec eof #[] 0 c u.machine
  rw [byte, h]
  generalize exec eof #[] 0 c u.machine = x at he
  obtain ⟨m, stop | next⟩ := x
  · exact .inr ⟨m, stop, he, rfl⟩
  · exact .inl ⟨m, next, he, rfl⟩

/-- The pointer is on the tape, and the tape is no larger than one can be had. -/
structure OnTape (u : Core) : Prop where
  pointer : u.pointer < u.capacity
  possible : u.capacity ≤ largestCapacity

section

variable {eof : EofMode} {c : UInt8} {u v : Core}

theorem OnTape.lt (h : u.OnTape) : u.pointer < largestCapacity :=
  Nat.lt_of_lt_of_le h.pointer h.possible

theorem OnTape.byte {stop : Option Stop} (hu : u.OnTape) (h : u.byte eof c = (v, stop)) :
    v.OnTape := by
  obtain ⟨hc, -, hp, -⟩ := exec_keeps eof #[] 0 c u.machine hu.pointer (Remembers.fresh rfl)
  rw [Core.byte] at h
  generalize exec eof #[] 0 c u.machine = x at hc hp h
  by_cases hs : isSpace c
  · rw [if_pos hs] at h
    cases h
    exact hu
  · rw [if_neg hs] at h
    obtain ⟨m, stop | next⟩ := x <;> cases h <;> exact ⟨hp, hc.trans_le hu.possible⟩

theorem byte_pointer (h : u.byte eof c = (v, none)) :
    Int64.ofNat v.pointer = Int64.ofNat u.pointer + pace c := by
  by_cases hs : isSpace c
  · rw [byte_space hs] at h
    cases h
    have hp : pace c = 0 := by
      simp only [isSpace, Bool.or_eq_true, decide_eq_true_eq] at hs
      rcases hs with ((rfl | rfl) | rfl) | rfl <;> rfl
    rw [hp, Int64.add_zero]
  · rw [Bool.not_eq_true] at hs
    rcases byte_executed hs eof u with ⟨m, _, he, hb⟩ | ⟨m, _, he, hb⟩ <;> rw [hb] at h <;>
      cases h
    exact he.pointer

/-- A move goes on, or the pointer would leave the tape. -/
theorem byte_move (hc : c ∈ [0x3E, 0x3C]) (eof : EofMode) (u : Core) :
    (∃ p, u.byte eof c = ({ u with pointer := p }, none)) ∨
      ∃ stop, u.byte eof c = (u, some stop) ∧ stop.leavesTape := by
  simp only [List.mem_cons, List.not_mem_nil, or_false] at hc
  rcases hc with rfl | rfl
  · rcases byte_executed (c := 0x3E) rfl eof u with ⟨m, _, he, hb⟩ | ⟨m, _, he, hb⟩ <;> cases he
    · exact .inl ⟨_, hb⟩
    · exact .inr ⟨_, hb, rfl⟩
    · next h => simp at h
  · rcases byte_executed (c := 0x3C) rfl eof u with ⟨m, _, he, hb⟩ | ⟨m, _, he, hb⟩ <;> cases he
    · exact .inl ⟨_, hb⟩
    · exact .inr ⟨_, hb, rfl⟩
    · next h => simp at h

/-- A count changes the cell under the pointer. -/
theorem byte_count (hc : c ∈ [0x2B, 0x2D]) (eof : EofMode) (u : Core) :
    u.byte eof c = (u.put (if c = 0x2B then u.current + 1 else u.current - 1), none) := by
  simp only [List.mem_cons, List.not_mem_nil, or_false] at hc
  rcases hc with rfl | rfl <;> rfl

/-- Tape text other than a bracket stops only at the end of the tape or when a device fails. -/
theorem byte_stop {stop : Stop} (ht : MacroOp.isTapeByte c) (hb : MacroOp.isBracket c = false)
    (h : u.byte eof c = (v, some stop)) : stop.leavesTape ∨ stop.isDevice := by
  by_cases hs : isSpace c
  · rw [byte_space hs] at h
    cases h
  · rw [Bool.not_eq_true] at hs
    rcases byte_executed hs eof u with ⟨m, _, he, hb'⟩ | ⟨m, _, he, hb'⟩ <;> rw [hb'] at h <;>
      cases h
    cases he with
    | overflow | underflow => exact .inl rfl
    | unwritten | unread => exact .inr rfl
    | unclosed | unopened => cases hb
    | unknown h =>
        -- every other byte of tape text is a space
        simp only [isSpace, Bool.or_eq_false_iff, decide_eq_false_iff_not] at hs
        simp only [MacroOp.isTapeByte, decide_eq_true_eq] at ht
        simp only [List.mem_cons, List.not_mem_nil, or_false] at h ht
        tauto

end

end Core

/-- The machine has the core `u` and remembers the text rightly. -/
structure Bears (text : Array UInt8) (m : Machine) (u : Core) : Prop where
  core : m.core = u
  remembers : Remembers text m

section

variable {o : Options} {eof : EofMode} {text : Array UInt8} {ip next : Nat} {c : UInt8}
  {m m' : Machine} {u : Core} {stop : Stop}

theorem core_traceAt (o : Options) (code : Bytes) (ip : Nat) (m : Machine) :
    (m.traceAt o code ip).core = m.core := by
  unfold traceAt
  split_ifs <;> rfl

theorem Bears.traceAt (h : Bears text m u) (o : Options) (code : Bytes) (ip : Nat) :
    Bears text (m.traceAt o code ip) u := by
  refine ⟨(core_traceAt ..).trans h.core, ?_⟩
  unfold Machine.traceAt
  split_ifs <;> exact h.remembers

/-- An instruction other than a bracket sees only the core. -/
theorem Executed.core_ok (hs : isSpace c = false) (h₁ : c ≠ 0x5B) (h₂ : c ≠ 0x5D)
    (h : Executed eof text ip m c m' (.ok next)) :
    m.core.byte eof c = (m'.core, none) ∧ next = ip + 1 ∧ m'.loops = m.loops ∧
      m'.skips = m.skips := by
  rw [Core.byte, hs]
  cases h with
  | enter | pass => exact absurd rfl h₁
  | back => exact absurd rfl h₂
  | right h => exact ⟨by simp [exec, core, Core.machine, h], rfl, rfl, rfl⟩
  | left h => exact ⟨by simp [exec, core, Core.machine, h], rfl, rfl, rfl⟩
  | up | down => exact ⟨rfl, rfl, rfl, rfl⟩
  | write h =>
      have h' : m.core.machine.output.write m.core.machine.current = some _ := h
      exact ⟨by simp [exec, h']; rfl, rfl, rfl, rfl⟩
  | read h | ended h =>
      have h' : m.core.machine.input.read = _ := h
      exact ⟨by simp [exec, h']; rfl, rfl, rfl, rfl⟩

theorem Executed.core_error (hs : isSpace c = false) (h₁ : c ≠ 0x5B) (h₂ : c ≠ 0x5D)
    (h : Executed eof text ip m c m' (.error stop)) :
    m.core.byte eof c = (m'.core, some stop.unplaced) := by
  rw [Core.byte, hs]
  cases h with
  | unclosed => exact absurd rfl h₁
  | unopened => exact absurd rfl h₂
  | overflow h => simp [exec, core, Core.machine, h, faultAt, Stop.unplaced]
  | underflow h => simp [exec, core, Core.machine, h, faultAt, Stop.unplaced]
  | unwritten h =>
      have h' : m.core.machine.output.write m.core.machine.current = none := h
      simp [exec, h', Stop.unplaced]
      rfl
  | unread h =>
      have h' : m.core.machine.input.read = _ := h
      simp only [exec, h']
      rfl
  | unknown h =>
      simp only [List.mem_cons, List.not_mem_nil, or_false, not_or] at h
      simp [exec, h, faultAt, Stop.unplaced, core, Core.machine]

/-- The step at a byte other than a bracket: on behind it, or the run stops. -/
theorem Bears.advance_byte (h : Bears text m u) (hip : ip < text.size)
    (hc : text.getD ip 0 = c) (h₁ : c ≠ 0x5B) (h₂ : c ≠ 0x5D) :
    (∃ m' u', advance o text ip m = some (ip + 1, m') ∧ u.byte o.eof c = (u', none) ∧
      Bears text m' u' ∧ m'.loops = m.loops) ∨
    ∃ stop, advance o text ip m = none ∧ (conclude o text ip m).stop = some stop ∧
      u.byte o.eof c = ((conclude o text ip m).machine.core, some stop.unplaced) := by
  obtain ⟨rfl, hr⟩ := h
  by_cases hs : isSpace c
  · refine .inl ⟨m, m.core, ?_, Core.byte_space hs _ _, ⟨rfl, hr⟩, rfl⟩
    rw [advance, if_pos hip, hc, if_pos hs]
  · rw [Bool.not_eq_true] at hs
    have ht : Bears text (m.traceAt o m.code ip) m.core :=
      Bears.traceAt ⟨rfl, hr⟩ o m.code ip
    have hl : (m.traceAt o m.code ip).loops = m.loops := Shows.loops_traceAt ..
    have he := executed_exec o.eof text ip c (m.traceAt o m.code ip)
    rw [Shows.advance_eq hip hc hs, conclude, if_pos hip, hc]
    generalize exec o.eof text ip c (m.traceAt o m.code ip) = x at he
    obtain ⟨m₁, stop | next⟩ := x
    · have hb := he.core_error hs h₁ h₂
      rw [ht.core] at hb
      exact .inr ⟨stop, rfl, rfl, hb⟩
    · obtain ⟨hb, rfl, hl', hsk⟩ := he.core_ok hs h₁ h₂
      rw [ht.core] at hb
      refine .inl ⟨m₁.tick, m₁.core, rfl, hb, ⟨rfl, ?_⟩, hl'.trans hl⟩
      intro i j hij
      exact ht.remembers i j (hsk ▸ hij)

/-- The step at a `[`: into the loop, or on behind it. -/
theorem Bears.advance_open (h : Bears text m u) {body : Bytes} (hb : Balanced body)
    (hs : Holds text ip (0x5B :: (body ++ [0x5D]))) :
    (u.current ≠ 0 ∧ ∃ m', advance o text ip m = some (ip + 1, m') ∧ Bears text m' u ∧
      m'.loops = ip :: m.loops) ∨
    u.current = 0 ∧ ∃ m', advance o text ip m = some (ip + 1 + body.length + 1, m') ∧
      Bears text m' u ∧ m'.loops = m.loops := by
  obtain ⟨⟨hip, hc⟩, -⟩ := holds_cons_iff.mp hs
  have ht := h.traceAt o m.code ip
  have hl : (m.traceAt o m.code ip).loops = m.loops := Shows.loops_traceAt ..
  rw [Shows.advance_eq hip hc (by decide)]
  generalize m.traceAt o m.code ip = t at ht hl
  have hcur : t.current = u.current := by rw [← ht.core]; rfl
  by_cases hz : u.current = 0
  · have hj := ht.remembers.skip ip
    obtain ⟨skips, hskip, hrem⟩ := ht.remembers.skip_snd ip
    rw [matchFrom_loop hb hs] at hj
    have he : exec o.eof text ip 0x5B t = ({ t with skips }, .ok (ip + 1 + body.length + 1)) := by
      rw [← hskip]
      generalize hsk : t.skip text ip = e at hj
      obtain ⟨j, m₁⟩ := e
      cases hj
      simp [exec, hcur.trans hz, hsk]
    exact .inr ⟨hz, tick { t with skips }, by rw [he], ⟨ht.core, hrem⟩, hl⟩
  · have hz' : t.current ≠ 0 := hcur ▸ hz
    have he : exec o.eof text ip 0x5B t = ({ t with loops := ip :: t.loops }, .ok (ip + 1)) := by
      simp [exec, hz']
    exact .inl ⟨hz, tick { t with loops := ip :: t.loops }, by rw [he],
      ⟨ht.core, ht.remembers⟩, congrArg _ hl⟩

/-- The step at a `]`: back to the innermost `[`. -/
theorem Bears.advance_close (h : Bears text m u) (hip : ip < text.size)
    (hc : text.getD ip 0 = 0x5D) {top : Nat} {rest : List Nat} (hl : m.loops = top :: rest) :
    ∃ m', advance o text ip m = some (top, m') ∧ Bears text m' u ∧ m'.loops = rest := by
  have ht := h.traceAt o m.code ip
  have hl' : (m.traceAt o m.code ip).loops = top :: rest := (Shows.loops_traceAt ..).trans hl
  rw [Shows.advance_eq hip hc (by decide)]
  generalize m.traceAt o m.code ip = t at ht hl'
  have he : exec o.eof text ip 0x5D t = ({ t with loops := rest }, .ok top) := by
    simp [exec, hl']
  exact ⟨tick { t with loops := rest }, by rw [he], ⟨ht.core, ht.remembers⟩, rfl⟩

end

/-! ### Evaluation -/

/-- The piece takes the core `u` to `v`, where it is at its end or an instruction stops. -/
inductive Evaluates (eof : EofMode) : Bytes → Core → Core → Option Stop → Prop where
  | nil (u : Core) : Evaluates eof [] u u none
  | instr {c : UInt8} {rest : Bytes} {u u₁ v : Core} {stop : Option Stop} (h₁ : c ≠ 0x5B)
      (h₂ : c ≠ 0x5D) (h : u.byte eof c = (u₁, none)) (t : Evaluates eof rest u₁ v stop) :
      Evaluates eof (c :: rest) u v stop
  | stops {c : UInt8} {rest : Bytes} {u v : Core} {stop : Stop} (h₁ : c ≠ 0x5B)
      (h₂ : c ≠ 0x5D) (h : u.byte eof c = (v, some stop)) :
      Evaluates eof (c :: rest) u v (some stop)
  | pass {body rest : Bytes} {u v : Core} {stop : Option Stop} (hb : Balanced body)
      (h : u.current = 0) (t : Evaluates eof rest u v stop) :
      Evaluates eof (0x5B :: (body ++ 0x5D :: rest)) u v stop
  | round {body rest : Bytes} {u u₁ v : Core} {stop : Option Stop} (hb : Balanced body)
      (h : u.current ≠ 0) (b : Evaluates eof body u u₁ none)
      (t : Evaluates eof (0x5B :: (body ++ 0x5D :: rest)) u₁ v stop) :
      Evaluates eof (0x5B :: (body ++ 0x5D :: rest)) u v stop
  | inside {body rest : Bytes} {u v : Core} {stop : Stop} (hb : Balanced body)
      (h : u.current ≠ 0) (b : Evaluates eof body u v (some stop)) :
      Evaluates eof (0x5B :: (body ++ 0x5D :: rest)) u v (some stop)

/-- A `[` has one match, so the text behind it is taken apart in one way. -/
theorem loop_unique {body body' rest rest' : Bytes} (hb : Balanced body) (hb' : Balanced body')
    (h : body ++ 0x5D :: rest = body' ++ 0x5D :: rest') : body = body' ∧ rest = rest' := by
  have holds : ∀ b r : Bytes, body ++ 0x5D :: rest = b ++ 0x5D :: r →
      Holds (0x5B :: (body ++ 0x5D :: rest)).toArray 0 (0x5B :: (b ++ [0x5D])) := by
    intro b r e
    refine ⟨r, ?_⟩
    simp [e]
  have h₁ := matchFrom_loop hb (holds body rest rfl)
  have h₂ := matchFrom_loop hb' (holds body' rest' h)
  rw [h₁] at h₂
  have hlen : body.length = body'.length := by
    have := Option.some.inj h₂
    omega
  obtain ⟨rfl, ht⟩ := List.append_inj h hlen
  exact ⟨rfl, (List.cons.inj ht).2⟩

/-- A balanced piece in front of an instruction is empty or begins with it. -/
theorem cut_instr {s t rest : Bytes} {c : UInt8} (hs : Balanced s) (hc : c ≠ 0x5B)
    (h : s ++ t = c :: rest) : s = [] ∨ ∃ s', s = c :: s' ∧ Balanced s' ∧ rest = s' ++ t := by
  cases hs with
  | nil => exact .inl rfl
  | instr _ _ hs =>
      obtain ⟨rfl, rfl⟩ := List.cons.inj h
      exact .inr ⟨_, rfl, hs, rfl⟩
  | loop => exact absurd (List.cons.inj h).1.symm hc

/-- A balanced piece in front of a loop is empty or begins with it. -/
theorem cut_loop {s t body rest : Bytes} (hs : Balanced s) (hb : Balanced body)
    (h : s ++ t = 0x5B :: (body ++ 0x5D :: rest)) :
    s = [] ∨ ∃ s', s = 0x5B :: (body ++ 0x5D :: s') ∧ Balanced s' ∧ rest = s' ++ t := by
  cases hs with
  | nil => exact .inl rfl
  | instr hc => exact absurd (List.cons.inj h).1 hc
  | @loop body' s' hb' hs =>
      have e : body' ++ 0x5D :: (s' ++ t) = body ++ 0x5D :: rest := by simpa using h
      obtain ⟨rfl, rfl⟩ := loop_unique hb' hb e
      exact .inr ⟨s', rfl, hs, rfl⟩

namespace Evaluates

variable {eof : EofMode} {s t body rest : Bytes} {u u₁ v : Core} {stop : Option Stop}

theorem loop_append (body rest t : Bytes) :
    0x5B :: (body ++ 0x5D :: rest) ++ t = 0x5B :: (body ++ 0x5D :: (rest ++ t)) := by
  simp

/-- A piece goes on with what is evaluated behind it, unless it stops. -/
theorem extend {first : Option Stop} (h : Evaluates eof s u u₁ first)
    (hnext : first = none → Evaluates eof t u₁ v stop)
    (hstop : ∀ e, first = some e → v = u₁ ∧ stop = some e) : Evaluates eof (s ++ t) u v stop := by
  induction h with
  | nil => exact hnext rfl
  | instr h₁ h₂ h _ ih => exact .instr h₁ h₂ h (ih hnext hstop)
  | stops h₁ h₂ h =>
      obtain ⟨rfl, rfl⟩ := hstop _ rfl
      exact .stops h₁ h₂ h
  | pass hb h _ ih =>
      rw [loop_append]
      exact .pass hb h (ih hnext hstop)
  | round hb h b _ _ ih =>
      have := ih hnext hstop
      rw [loop_append] at this ⊢
      exact .round hb h b this
  | inside hb h b =>
      obtain ⟨rfl, rfl⟩ := hstop _ rfl
      rw [loop_append]
      exact .inside hb h b

theorem append (h : Evaluates eof s u u₁ none) (h' : Evaluates eof t u₁ v stop) :
    Evaluates eof (s ++ t) u v stop :=
  h.extend (fun _ => h') fun _ he => by cases he

theorem append_stop {stop : Stop} (h : Evaluates eof s u v (some stop)) (t : Bytes) :
    Evaluates eof (s ++ t) u v (some stop) :=
  h.extend (fun he => by cases he) fun _ he => ⟨rfl, he⟩

/-- **An evaluation of two pieces** is one of the first and then one of the second, unless the
first stops. -/
theorem split (hs : Balanced s) (h : Evaluates eof (s ++ t) u v stop) :
    (∃ u₁, Evaluates eof s u u₁ none ∧ Evaluates eof t u₁ v stop) ∨
      ∃ e, stop = some e ∧ Evaluates eof s u v (some e) := by
  generalize hn : s ++ t = n at h
  induction h generalizing s with
  | nil =>
      obtain ⟨rfl, rfl⟩ := List.append_eq_nil_iff.mp hn
      exact .inl ⟨_, .nil _, .nil _⟩
  | instr h₁ h₂ h ht ih =>
      rcases cut_instr hs h₁ hn with rfl | ⟨s', rfl, hs', rfl⟩
      · obtain rfl : t = _ := hn
        exact .inl ⟨_, .nil _, .instr h₁ h₂ h ht⟩
      · rcases ih hs' rfl with ⟨u₁, ha, hb⟩ | ⟨e, rfl, ha⟩
        · exact .inl ⟨u₁, .instr h₁ h₂ h ha, hb⟩
        · exact .inr ⟨e, rfl, .instr h₁ h₂ h ha⟩
  | stops h₁ h₂ h =>
      rcases cut_instr hs h₁ hn with rfl | ⟨s', rfl, -, rfl⟩
      · obtain rfl : t = _ := hn
        exact .inl ⟨_, .nil _, .stops h₁ h₂ h⟩
      · exact .inr ⟨_, rfl, .stops h₁ h₂ h⟩
  | pass hb h ht ih =>
      rcases cut_loop hs hb hn with rfl | ⟨s', rfl, hs', rfl⟩
      · obtain rfl : t = _ := hn
        exact .inl ⟨_, .nil _, .pass hb h ht⟩
      · rcases ih hs' rfl with ⟨u₁, ha, hc⟩ | ⟨e, rfl, ha⟩
        · exact .inl ⟨u₁, .pass hb h ha, hc⟩
        · exact .inr ⟨e, rfl, .pass hb h ha⟩
  | round hb h b ht _ ih =>
      rcases cut_loop hs hb hn with rfl | ⟨s', rfl, hs', rfl⟩
      · obtain rfl : t = _ := hn
        exact .inl ⟨_, .nil _, .round hb h b ht⟩
      · rcases ih (.loop hb hs') hn with ⟨u₁, ha, hc⟩ | ⟨e, rfl, ha⟩
        · exact .inl ⟨u₁, .round hb h b ha, hc⟩
        · exact .inr ⟨e, rfl, .round hb h b ha⟩
  | inside hb h b =>
      rcases cut_loop hs hb hn with rfl | ⟨s', rfl, -, rfl⟩
      · obtain rfl : t = _ := hn
        exact .inl ⟨_, .nil _, .inside hb h b⟩
      · exact .inr ⟨_, rfl, .inside hb h b⟩

theorem onTape (h : Evaluates eof s u v stop) (hu : u.OnTape) : v.OnTape := by
  induction h with
  | nil => exact hu
  | instr _ _ h _ ih => exact ih (hu.byte h)
  | stops _ _ h => exact hu.byte h
  | pass _ _ _ ih => exact ih hu
  | round _ _ _ _ ihb iht => exact iht (ihb hu)
  | inside _ _ _ ih => exact ih hu

/-- At a byte other than a bracket the piece goes on behind it, or stops. -/
theorem cons_cases {c : UInt8} (hc : c ≠ 0x5B) (h : Evaluates eof (c :: s) u v stop) :
    (∃ u₁, u.byte eof c = (u₁, none) ∧ Evaluates eof s u₁ v stop) ∨
      ∃ e, stop = some e ∧ u.byte eof c = (v, some e) := by
  generalize hn : c :: s = n at h
  cases h with
  | nil => cases hn
  | instr _ _ h t =>
      cases hn
      exact .inl ⟨_, h, t⟩
  | stops _ _ h =>
      cases hn
      exact .inr ⟨_, rfl, h⟩
  | pass | round | inside => exact absurd (List.cons.inj hn).1 hc

/-- A run of moves changes only the pointer. -/
theorem moves {c : UInt8} (hc : c ∈ [0x3E, 0x3C]) {n : Nat}
    (h : Evaluates eof (List.replicate n c) u v none) :
    v = { u with pointer := v.pointer } ∧
      Int64.ofNat v.pointer = Int64.ofNat u.pointer + Int64.ofNat n * pace c := by
  induction n generalizing u with
  | zero =>
      cases h
      exact ⟨rfl, by simp⟩
  | succ n ih =>
      obtain ⟨hopen, -⟩ := ne_bracket hc (by decide) (by decide)
      obtain ⟨u₁, h₁, t⟩ | ⟨_, he, -⟩ := h.cons_cases hopen
      swap
      · cases he
      obtain ⟨hv, hp⟩ := ih t
      rcases Core.byte_move hc eof u with ⟨p, hb⟩ | ⟨e, hb, -⟩ <;> rw [hb] at h₁ <;> cases h₁
      refine ⟨hv, ?_⟩
      rw [hp, Core.byte_pointer hb, Int64.ofNat_add]
      grind

/-- A loop that comes to its end leaves a zero under the pointer. -/
theorem current_eq_zero (hb : Balanced body)
    (h : Evaluates eof (0x5B :: (body ++ [0x5D])) u v none) : v.current = 0 := by
  generalize hn : 0x5B :: (body ++ [0x5D]) = n at h
  generalize hs : (none : Option Stop) = stop at h
  induction h with
  | nil => cases hn
  | instr h₁ => exact absurd (List.cons.inj hn).1.symm h₁
  | stops | inside => cases hs
  | pass hb' h t =>
      obtain ⟨rfl, rfl⟩ := loop_unique hb hb' (List.cons.inj hn).2
      cases t
      exact h
  | round _ _ _ _ _ ih => exact ih hn hs

end Evaluates

/-! ### What is evaluated is what a run does -/

/-- The machine at `ip` comes to `target` and is then `v`, or it stops on the way. -/
def Arrives (o : Options) (text : Array UInt8) (ip : Nat) (m : Machine) (target : Nat)
    (v : Core) : Option Stop → Prop
  | none =>
    ∃ n m', Steps o text n ip m target m' ∧ Bears text m' v ∧ m'.loops = m.loops
  | some stop =>
    ∃ n ip' m', Steps o text n ip m ip' m' ∧ advance o text ip' m' = none ∧
      (conclude o text ip' m').machine.core = v ∧
      (conclude o text ip' m').stop.map Stop.unplaced = some stop

section

variable {o : Options} {text : Array UInt8} {k n ip ip₁ ip' target : Nat} {m m₁ m' : Machine}
  {u v : Core} {seg body : Bytes} {stop : Option Stop}

/-- Steps before the machine arrives; loops opened by them are closed again on the way. -/
theorem Arrives.prepend (hs : Steps o text k ip m ip₁ m₁) (hl : m₁.loops = m.loops)
    (h : Arrives o text ip₁ m₁ target v stop) : Arrives o text ip m target v stop := by
  cases stop with
  | none =>
      obtain ⟨n, m', ht, hm, hl'⟩ := h
      exact ⟨k + n, m', hs.trans ht, hm, hl'.trans hl⟩
  | some stop =>
      obtain ⟨n, ip', m', ht, hn, hv, hst⟩ := h
      exact ⟨k + n, ip', m', hs.trans ht, hn, hv, hst⟩

theorem Arrives.prepend_stop {stop : Stop} (hs : Steps o text k ip m ip₁ m₁)
    (h : Arrives o text ip₁ m₁ target v (some stop)) (target' : Nat) :
    Arrives o text ip m target' v (some stop) := by
  obtain ⟨n, ip', m', ht, hn, hv, hst⟩ := h
  exact ⟨k + n, ip', m', hs.trans ht, hn, hv, hst⟩

theorem holds_loop {rest : Bytes} (h : Holds text ip (0x5B :: (body ++ 0x5D :: rest))) :
    Holds text ip (0x5B :: (body ++ [0x5D])) ∧ Holds text (ip + 1) body ∧
      (ip + 1 + body.length < text.size ∧ text.getD (ip + 1 + body.length) 0 = 0x5D) ∧
      Holds text (ip + 1 + body.length + 1) rest := by
  have e : 0x5B :: (body ++ 0x5D :: rest) = 0x5B :: (body ++ [0x5D]) ++ rest := by simp
  have hloop := (holds_append_iff.mp (e ▸ h)).1
  obtain ⟨-, hin⟩ := holds_cons_iff.mp h
  obtain ⟨hbody, hout⟩ := holds_append_iff.mp hin
  obtain ⟨hclose, hrest⟩ := holds_cons_iff.mp hout
  exact ⟨hloop, hbody, hclose, hrest⟩

theorem length_instr (ip : Nat) (c : UInt8) (rest : Bytes) :
    ip + (c :: rest).length = ip + 1 + rest.length := by
  rw [List.length_cons]
  omega

theorem length_loop (ip : Nat) (body rest : Bytes) :
    ip + (0x5B :: (body ++ 0x5D :: rest)).length = ip + 1 + body.length + 1 + rest.length := by
  simp only [List.length_cons, List.length_append]
  omega

/-- **A machine at an evaluated piece** arrives at its end, or stops as the evaluation does. -/
theorem Evaluates.arrives (h : Evaluates o.eof seg u v stop) (hh : Holds text ip seg)
    (hm : Bears text m u) : Arrives o text ip m (ip + seg.length) v stop := by
  induction h generalizing ip m with
  | nil => exact ⟨0, m, .refl _ _, hm, rfl⟩
  | instr h₁ h₂ h _ ih =>
      obtain ⟨⟨hip, hc⟩, hrest⟩ := holds_cons_iff.mp hh
      rcases hm.advance_byte (o := o) hip hc h₁ h₂ with
          ⟨m', u', ha, he, hm', hl⟩ | ⟨stop, -, -, he⟩
      · rw [h] at he
        cases he
        rw [length_instr]
        exact (ih hrest hm').prepend (.one ha) hl
      · rw [h] at he
        cases he
  | stops h₁ h₂ h =>
      obtain ⟨⟨hip, hc⟩, -⟩ := holds_cons_iff.mp hh
      rcases hm.advance_byte (o := o) hip hc h₁ h₂ with
          ⟨m', u', ha, he, hm', hl⟩ | ⟨stop, ha, hs, he⟩
      · rw [h] at he
        cases he
      · rw [h] at he
        cases he
        exact ⟨0, ip, m, .refl _ _, ha, rfl, by rw [hs]; rfl⟩
  | pass hb h _ ih =>
      obtain ⟨hloop, -, -, hrest⟩ := holds_loop hh
      rcases hm.advance_open (o := o) hb hloop with ⟨hz, -⟩ | ⟨-, m', ha, hm', hl⟩
      · exact absurd h hz
      · rw [length_loop]
        exact (ih hrest hm').prepend (.one ha) hl
  | round hb h _ _ ihb iht =>
      obtain ⟨hloop, hbody, ⟨hj, hd⟩, -⟩ := holds_loop hh
      rcases hm.advance_open (o := o) hb hloop with ⟨-, m₁, ha, hm₁, hl₁⟩ | ⟨hz, -⟩
      · obtain ⟨n, m₂, hs, hm₂, hl₂⟩ := ihb hbody hm₁
        obtain ⟨m₃, hc, hm₃, hl₃⟩ := hm₂.advance_close (o := o) hj hd (hl₂.trans hl₁)
        exact (iht hh hm₃).prepend (.more ha (hs.trans (.one hc))) hl₃
      · exact absurd hz h
  | inside hb h _ ihb =>
      obtain ⟨hloop, hbody, -, -⟩ := holds_loop hh
      rcases hm.advance_open (o := o) hb hloop with ⟨-, m₁, ha, hm₁, -⟩ | ⟨hz, -⟩
      · exact (ihb hbody hm₁).prepend_stop (.one ha) _
      · exact absurd hz h

/-- A chain to where a run ends goes by the first step. -/
theorem Steps.after {ip₁ : Nat} {m₁ : Machine} (hs : Steps o text n ip m ip' m')
    (hn : advance o text ip' m' = none) (ha : advance o text ip m = some (ip₁, m₁)) :
    ∃ k, n = k + 1 ∧ Steps o text k ip₁ m₁ ip' m' := by
  cases hs with
  | refl =>
      rw [hn] at ha
      cases ha
  | more ha' ht =>
      rw [ha] at ha'
      cases ha'
      exact ⟨_, rfl, ht⟩

/-- A chain from where a run ends goes nowhere. -/
theorem Steps.at_end (hs : Steps o text n ip m ip' m') (ha : advance o text ip m = none) :
    ip = ip' ∧ m = m' := by
  cases hs with
  | refl => exact ⟨rfl, rfl⟩
  | more ha' =>
      rw [ha] at ha'
      cases ha'

/-- **A run that ends has an evaluation**: of every balanced piece it comes to, up to the end of
the piece or to where the run stops. -/
theorem evaluates_of_steps (hs : Steps o text n ip m ip' m') (hn : advance o text ip' m' = none)
    (hb : Balanced seg) (hh : Holds text ip seg) (hm : Bears text m u) :
    (∃ k ≤ n, ∃ m₁ u₁, Steps o text k ip m (ip + seg.length) m₁ ∧ Bears text m₁ u₁ ∧
      m₁.loops = m.loops ∧ Evaluates o.eof seg u u₁ none) ∨
    ∃ stop, (conclude o text ip' m').stop = some stop ∧
      Evaluates o.eof seg u (conclude o text ip' m').machine.core (some stop.unplaced) := by
  -- every byte of the piece takes a step, and a loop that is entered comes back with fewer left
  induction n using Nat.strong_induction_on generalizing ip m u seg with
  | _ n ih =>
      cases hb with
      | nil => exact .inl ⟨0, Nat.zero_le n, m, u, .refl _ _, hm, rfl, .nil u⟩
      | @instr c rest h₁ h₂ hb =>
          obtain ⟨⟨hip, hc⟩, hrest⟩ := holds_cons_iff.mp hh
          rcases hm.advance_byte (o := o) hip hc h₁ h₂ with
              ⟨m₁, u₁, ha, he, hm₁, hl⟩ | ⟨stop, ha, hstop, he⟩
          · obtain ⟨n, rfl, ht⟩ := hs.after hn ha
            rw [length_instr]
            rcases ih n (by omega) ht hb hrest hm₁ with
                ⟨k, hk, m₂, u₂, hs₂, hm₂, hl₂, hev⟩ | ⟨stop, hstop, hev⟩
            · exact .inl ⟨k + 1, by omega, m₂, u₂, .more ha hs₂, hm₂, hl₂.trans hl,
                .instr h₁ h₂ he hev⟩
            · exact .inr ⟨stop, hstop, .instr h₁ h₂ he hev⟩
          · obtain ⟨rfl, rfl⟩ := hs.at_end ha
            exact .inr ⟨stop, hstop, .stops h₁ h₂ he⟩
      | @loop body rest hbody hb =>
          obtain ⟨hloop, hin, ⟨hj, hd⟩, hrest⟩ := holds_loop hh
          rw [length_loop]
          rcases hm.advance_open (o := o) hbody hloop with
              ⟨hz, m₁, ha, hm₁, hl₁⟩ | ⟨hz, m₁, ha, hm₁, hl₁⟩
          · obtain ⟨n, rfl, ht⟩ := hs.after hn ha
            rcases ih n (by omega) ht hbody hin hm₁ with
                ⟨k, hk, m₂, u₂, hs₂, hm₂, hl₂, hev⟩ | ⟨stop, hstop, hev⟩
            · -- the round comes back to the bracket, and what is left of the run goes on there
              obtain ⟨m₃, hc, hm₃, hl₃⟩ := hm₂.advance_close (o := o) hj hd (hl₂.trans hl₁)
              obtain ⟨j, rfl⟩ := Nat.exists_eq_add_of_le hk
              obtain ⟨j, rfl, ht'⟩ := (hs₂.cancel ht).after hn hc
              rcases ih j (by omega) ht' (.loop hbody hb) hh hm₃ with
                  ⟨i, hi, m₄, u₄, hs₄, hm₄, hl₄, hev'⟩ | ⟨stop, hstop, hev'⟩
              · rw [length_loop] at hs₄
                exact .inl ⟨k + 1 + i + 1, by omega, m₄, u₄,
                  .more ha ((hs₂.trans (.one hc)).trans hs₄), hm₄, hl₄.trans hl₃,
                  .round hbody hz hev hev'⟩
              · exact .inr ⟨stop, hstop, .round hbody hz hev hev'⟩
            · exact .inr ⟨stop, hstop, .inside hbody hz hev⟩
          · obtain ⟨n, rfl, ht⟩ := hs.after hn ha
            rcases ih n (by omega) ht hb hrest hm₁ with
                ⟨k, hk, m₂, u₂, hs₂, hm₂, hl₂, hev⟩ | ⟨stop, hstop, hev⟩
            · exact .inl ⟨k + 1, by omega, m₂, u₂, .more ha hs₂, hm₂, hl₂.trans hl₁,
                .pass hbody hz hev⟩
            · exact .inr ⟨stop, hstop, .pass hbody hz hev⟩

end

/-! ### Whole runs -/

section

variable {o : Options} {code : Bytes} {m : Machine} {v : Core} {r : Finished Unit}
  {stop : Option Stop}

theorem Sound.core_onTape (hm : m.Sound) : m.core.OnTape := ⟨hm.onTape, hm.possible⟩

theorem Sound.bears (hm : m.Sound) (code : Bytes) :
    Bears code.toArray (m.load code) m.core := by
  obtain ⟨hl, hc⟩ := hm.load code
  have hr := hl.remembers
  rw [hc] at hr
  refine ⟨?_, hr⟩
  unfold Machine.load
  split_ifs <;> rfl

/-- The end of a text without open loops. -/
theorem conclude_core (text : Array UInt8) {m : Machine} (hl : m.loops = []) :
    advance o text text.size m = none ∧
      (conclude o text text.size m).machine.core = m.core ∧
      (conclude o text text.size m).stop = none := by
  have hl' : (m.traceAt o m.code text.size).loops = [] := (Shows.loops_traceAt ..).trans hl
  have hf : m.finish o text = (m.traceAt o m.code text.size, none) := by
    rw [finish, hl']
  rw [advance, if_neg (Nat.lt_irrefl _), conclude, if_neg (Nat.lt_irrefl _), hf]
  exact ⟨rfl, core_traceAt .., rfl⟩

/-- **What is evaluated is what a run answers.** -/
theorem Evaluates.ends (h : Evaluates o.eof code m.core v stop) (ho : o.maxSteps = 0)
    (hm : m.Sound) (hl : m.loops = []) :
    ∃ r, m.Ends o code r ∧ r.machine.core = v ∧ r.stop.map Stop.unplaced = stop := by
  have ha := h.arrives (o := o) (holds_whole code) (hm.bears code)
  rw [Nat.zero_add] at ha
  cases stop with
  | none =>
      obtain ⟨n, m', hs, hm', hl'⟩ := ha
      have hsize : code.toArray.size = code.length := List.size_toArray
      obtain ⟨hn, hb, hst⟩ := conclude_core (o := o) code.toArray
        (hl'.trans ((loops_load code m).trans hl))
      rw [hsize] at hn hb hst
      refine ⟨_, (ends_iff ho).mpr ⟨n, code.length, m', hs, hn, rfl⟩, hb.trans hm'.core, ?_⟩
      rw [hst]
      rfl
  | some stop =>
      obtain ⟨n, ip, m', hs, hn, hv, hst⟩ := ha
      exact ⟨_, (ends_iff ho).mpr ⟨n, ip, m', hs, hn, rfl⟩, hv, hst⟩

/-- **Every run of balanced text that ends has an evaluation.** -/
theorem Ends.evaluates (h : m.Ends o code r) (hb : Balanced code) (ho : o.maxSteps = 0)
    (hm : m.Sound) (hl : m.loops = []) :
    Evaluates o.eof code m.core r.machine.core (r.stop.map Stop.unplaced) := by
  obtain ⟨n, ip, m', hs, hn, rfl⟩ := (ends_iff ho).mp h
  rcases evaluates_of_steps hs hn hb (holds_whole code) (hm.bears code) with
      ⟨k, hk, m₁, u₁, hs₁, hm₁, hl₁, hev⟩ | ⟨stop, hstop, hev⟩
  · -- at the end of the text there is no further step
    rw [Nat.zero_add, ← List.size_toArray] at hs₁
    obtain ⟨hn₁, hb₁, hst₁⟩ := conclude_core (o := o) code.toArray
      (hl₁.trans ((loops_load code m).trans hl))
    obtain rfl : k = n := Nat.le_antisymm hk (hs₁.le_of_stopped hn₁ hs)
    obtain ⟨rfl, rfl⟩ := hs.functional hs₁
    rw [hst₁, hb₁, hm₁.core]
    exact hev
  · rw [hstop]
    exact hev

end

end Machine

end StackTape
