import StackTape.Proofs.Machine.Brackets

/-!
# Runs under a hook, turn by turn

A run with any options and any hook is a chain of turns: at each `Point` it either goes on at
another point or ends with an answer, and `turn` says which.  `Visits` is the chain;
`run_iff_visits` says that the answers of `Machine.run` are those of the turns at the points that
the run visits.

`Executed` says once what an instruction can do, one rule for each outcome (`executed_exec`);
`turn_eq_ok` and `TurnEnd` say what a turn can do.  A property of machines that the instructions of
a text keep and that no bookkeeping touches (`KeptIn`) holds along its whole run (`KeptIn.run`);
`Kept` is the same for properties that do not ask which instructions stand in the text.
-/

namespace StackTape

namespace Machine

/-! ### What an instruction can do -/

/-- The instruction `c` at `ip` takes the machine `m` to another one, and goes on or stops. -/
inductive Executed (eof : EofMode) (text : Array UInt8) (ip : Nat) (m : Machine) :
    UInt8 → Machine → Except Stop Nat → Prop where
  | right (h : m.pointer + 1 < m.capacity) :
      Executed eof text ip m 0x3E { m with pointer := m.pointer + 1 } (.ok (ip + 1))
  | overflow (h : ¬ m.pointer + 1 < m.capacity) :
      Executed eof text ip m 0x3E m (.error (m.faultAt .pointerOverflow ip 0x3E))
  | left (h : m.pointer ≠ 0) :
      Executed eof text ip m 0x3C { m with pointer := m.pointer - 1 } (.ok (ip + 1))
  | underflow (h : m.pointer = 0) :
      Executed eof text ip m 0x3C m (.error (m.faultAt .pointerUnderflow ip 0x3C))
  | up : Executed eof text ip m 0x2B (m.put m.pointer (m.current + 1)) (.ok (ip + 1))
  | down : Executed eof text ip m 0x2D (m.put m.pointer (m.current - 1)) (.ok (ip + 1))
  | enter (h : m.current ≠ 0) :
      Executed eof text ip m 0x5B { m with loops := ip :: m.loops } (.ok (ip + 1))
  | pass {j : Nat} (h : m.current = 0) (hj : (m.skip text ip).1 = some j) :
      Executed eof text ip m 0x5B (m.skip text ip).2 (.ok (j + 1))
  | unclosed (h : m.current = 0) (hj : (m.skip text ip).1 = none) :
      Executed eof text ip m 0x5B (m.skip text ip).2
        (.error ((m.skip text ip).2.faultAt .unbalancedLoop ip 0x5B))
  | back {top : Nat} {rest : List Nat} (h : m.loops = top :: rest) :
      Executed eof text ip m 0x5D { m with loops := rest } (.ok top)
  | unopened (h : m.loops = []) :
      Executed eof text ip m 0x5D m (.error (m.faultAt .unbalancedLoop ip 0x5D))
  | write {output : Sink} (h : m.output.write m.current = some output) :
      Executed eof text ip m 0x2E { m with output } (.ok (ip + 1))
  | unwritten (h : m.output.write m.current = none) :
      Executed eof text ip m 0x2E m (.error (.outputFailed ip))
  | read {b : UInt8} {input : Source} (h : m.input.read = (.byte b, input)) :
      Executed eof text ip m 0x2C ({ m with input }.put m.pointer b) (.ok (ip + 1))
  | ended {input : Source} (h : m.input.read = (.ended, input)) :
      Executed eof text ip m 0x2C ({ m with input }.put m.pointer (eof.store m.current))
        (.ok (ip + 1))
  | unread {input : Source} (h : m.input.read = (.failed, input)) :
      Executed eof text ip m 0x2C { m with input } (.error (.inputFailed ip))
  | unknown {c : UInt8} (h : c ∉ [0x3E, 0x3C, 0x2B, 0x2D, 0x5B, 0x5D, 0x2E, 0x2C]) :
      Executed eof text ip m c m (.error (m.faultAt .unrecognized ip c))

/-- **An instruction does nothing else.** -/
theorem executed_exec (eof : EofMode) (text : Array UInt8) (ip : Nat) (c : UInt8) (m : Machine) :
    Executed eof text ip m c (exec eof text ip c m).1 (exec eof text ip c m).2 := by
  unfold exec
  by_cases h₁ : c = 0x3E
  · subst h₁
    rw [if_pos rfl]
    split_ifs with h
    · exact .right h
    · exact .overflow h
  rw [if_neg h₁]
  by_cases h₂ : c = 0x3C
  · subst h₂
    rw [if_pos rfl]
    split_ifs with h
    · exact .underflow h
    · exact .left h
  rw [if_neg h₂]
  by_cases h₃ : c = 0x2B
  · subst h₃
    rw [if_pos rfl]
    exact .up
  rw [if_neg h₃]
  by_cases h₄ : c = 0x2D
  · subst h₄
    rw [if_pos rfl]
    exact .down
  rw [if_neg h₄]
  by_cases h₅ : c = 0x5B
  · subst h₅
    rw [if_pos rfl]
    split_ifs with h
    · cases hs : m.skip text ip with
      | mk j m₁ =>
          have hm : m₁ = (m.skip text ip).2 := by rw [hs]
          cases j with
          | some j => exact hm ▸ .pass h (by rw [hs])
          | none => exact hm ▸ .unclosed h (by rw [hs])
    · exact .enter h
  rw [if_neg h₅]
  by_cases h₆ : c = 0x5D
  · subst h₆
    rw [if_pos rfl]
    cases hl : m.loops with
    | nil => exact .unopened hl
    | cons top rest => exact .back hl
  rw [if_neg h₆]
  by_cases h₇ : c = 0x2E
  · subst h₇
    rw [if_pos rfl]
    cases hw : m.output.write m.current with
    | some output => exact .write hw
    | none => exact .unwritten hw
  rw [if_neg h₇]
  by_cases h₈ : c = 0x2C
  · subst h₈
    rw [if_pos rfl]
    cases hr : m.input.read with
    | mk answer input =>
        cases answer with
        | byte b => exact .read hr
        | ended => exact .ended hr
        | failed => exact .unread hr
  rw [if_neg h₈]
  exact .unknown (by simp [h₁, h₂, h₃, h₄, h₅, h₆, h₇, h₈])

section

variable {eof : EofMode} {text : Array UInt8} {ip : Nat} {c : UInt8} {m m' : Machine}
  {x : Except Stop Nat}

/-- What an instruction can do it does. -/
theorem Executed.exec_eq (h : Executed eof text ip m c m' x) :
    exec eof text ip c m = (m', x) := by
  cases h with
  | right h => simp [exec, h]
  | overflow h => simp [exec, h]
  | left h => simp [exec, h]
  | underflow h => simp [exec, h]
  | up | down => rfl
  | enter h => simp [exec, h]
  | pass h hj | unclosed h hj =>
      generalize hs : m.skip text ip = s at hj
      obtain ⟨_, m₁⟩ := s
      cases hj
      simp [exec, h, hs]
  | back h | unopened h => simp [exec, h]
  | write h | unwritten h => simp [exec, h]
  | read h | ended h | unread h => simp [exec, h]
  | unknown h =>
      simp only [List.mem_cons, List.not_mem_nil, or_false, not_or] at h
      simp [exec, h]

/-- Searching for a match changes nothing but what is remembered. -/
theorem skip_snd (m : Machine) (text : Array UInt8) (ip : Nat) :
    ∃ skips, (m.skip text ip).2 = { m with skips } := by
  unfold skip
  split
  · exact ⟨m.skips, rfl⟩
  · split
    · exact ⟨_, rfl⟩
    · exact ⟨m.skips, rfl⟩

/-- The bookkeeping is not done by the instructions. -/
theorem Executed.keeps (h : Executed eof text ip m c m' x) :
    m'.code = m.code ∧ m'.trace = m.trace ∧ m'.steps = m.steps := by
  obtain ⟨skips, hs⟩ := skip_snd m text ip
  cases h with
  | pass | unclosed =>
      rw [hs]
      exact ⟨rfl, rfl, rfl⟩
  | _ => exact ⟨rfl, rfl, rfl⟩

/-- **An instruction that stops changes nothing** but the source that it failed to read. -/
theorem Executed.unchanged {stop : Stop} (h : Executed eof text ip m c m' (.error stop)) :
    ∃ input, m' = { m with input } := by
  cases h with
  | unread => exact ⟨_, rfl⟩
  | unclosed _ hj =>
      refine ⟨m.input, ?_⟩
      unfold skip at hj ⊢
      split at hj
      · cases hj
      · split at hj
        · cases hj
        · simp [*]
  | overflow | underflow | unopened | unwritten | unknown => exact ⟨m.input, rfl⟩

end

/-! ### Points and turns -/

/-- A point of a run: the position in the text, the state of the hook and the machine. -/
structure Point (σ : Type) where
  ip : Nat
  state : σ
  machine : Machine

/-- Where the run of a text starts. -/
def start {σ : Type} (code : Bytes) (s : σ) (m : Machine) : Point σ := ⟨0, s, m.load code⟩

/-- What a run does at a point: it goes on at another one, or ends. -/
def turn {σ : Type} (o : Options) (hook : Hook σ) (text : Array UInt8) (p : Point σ) :
    Except (Finished σ) (Point σ) :=
  if p.ip < text.size then
    if isSpace (text.getD p.ip 0) then .ok { p with ip := p.ip + 1 }
    else if p.machine.spent o then
      .error ⟨p.machine, p.state, some (.stepLimit p.machine.steps p.ip)⟩
    else
      match exec o.eof text p.ip (text.getD p.ip 0)
        (p.machine.traceAt o p.machine.code p.ip) with
      | (m, .error stop) => .error ⟨m, p.state, some stop⟩
      | (m, .ok next) =>
        let r := hook.react p.state m.tick p.ip
        if r.aborts then .error ⟨m.tick.heed r, r.state, some .aborted⟩
        else .ok ⟨next, r.state, m.tick.heed r⟩
  else .error ⟨(p.machine.finish o text).1, p.state, (p.machine.finish o text).2⟩

section

variable {σ : Type} {o : Options} {hook : Hook σ} {text : Array UInt8} {p q r : Point σ}
  {e : Finished σ}

/-- A run takes a turn, and goes on where it leads. -/
theorem runFrom_succ (o : Options) (hook : Hook σ) (text : Array UInt8) (p : Point σ)
    (fuel : Nat) :
    runFrom o hook text (fuel + 1) p.ip p.state p.machine =
      match turn o hook text p with
      | .ok q => runFrom o hook text fuel q.ip q.state q.machine
      | .error e => some e := by
  rw [runFrom, turn]
  by_cases hip : p.ip < text.size
  · rw [if_pos hip, if_pos hip]
    dsimp only
    by_cases hsp : isSpace (text.getD p.ip 0)
    · rw [if_pos hsp, if_pos hsp]
    rw [if_neg hsp, if_neg hsp]
    by_cases hs : p.machine.spent o
    · rw [if_pos hs, if_pos hs]
    rw [if_neg hs, if_neg hs]
    generalize exec o.eof text p.ip _ (p.machine.traceAt o p.machine.code p.ip) = x
    obtain ⟨m, stop | next⟩ := x
    · rfl
    · dsimp only
      split_ifs <;> rfl
  · rw [if_neg hip, if_neg hip]

/-- A run takes one turn and goes on. -/
theorem runFrom_of_turn (h : turn o hook text p = .ok q) (fuel : Nat) :
    runFrom o hook text (fuel + 1) p.ip p.state p.machine =
      runFrom o hook text fuel q.ip q.state q.machine := by
  rw [runFrom_succ, h]

/-- It ends with the turn that fails. -/
theorem runFrom_of_turn_end (h : turn o hook text p = .error e) (fuel : Nat) :
    runFrom o hook text (fuel + 1) p.ip p.state p.machine = some e := by
  rw [runFrom_succ, h]

/-- The run that is at the point `p` comes to another one. -/
inductive Visits (o : Options) (hook : Hook σ) (text : Array UInt8) : Point σ → Point σ → Prop
  | refl (p : Point σ) : Visits o hook text p p
  | more {p q r : Point σ} (h : turn o hook text p = .ok q) (t : Visits o hook text q r) :
      Visits o hook text p r

/-- A run goes on from every point that it visits, and ends at one of them. -/
theorem runFrom_iff_visits :
    (∃ fuel, runFrom o hook text fuel p.ip p.state p.machine = some e) ↔
      ∃ q, Visits o hook text p q ∧ turn o hook text q = .error e := by
  constructor
  · rintro ⟨fuel, h⟩
    induction fuel generalizing p with
    | zero => cases h
    | succ fuel ih =>
        cases ht : turn o hook text p with
        | error e' =>
            rw [runFrom_of_turn_end ht] at h
            cases h
            exact ⟨p, .refl p, ht⟩
        | ok q =>
            rw [runFrom_of_turn ht] at h
            obtain ⟨r, hv, hr⟩ := ih h
            exact ⟨r, .more ht hv, hr⟩
  · rintro ⟨q, hv, hq⟩
    induction hv with
    | refl p => exact ⟨1, runFrom_of_turn_end hq 0⟩
    | more ht _ ih =>
        obtain ⟨fuel, h⟩ := ih hq
        exact ⟨fuel + 1, by rw [runFrom_of_turn ht, h]⟩

/-- **The answers of a run** are those of the turns at the points that it visits. -/
theorem run_iff_visits {m : Machine} {code : Bytes} {s : σ} :
    (∃ fuel, m.run o hook fuel code s = some e) ↔
      ∃ q, Visits o hook code.toArray (m.start code s) q ∧
        turn o hook code.toArray q = .error e :=
  runFrom_iff_visits (p := m.start code s)

/-! ### What a turn can do -/

/-- The machines that differ at most in what was counted, traced, read and written. -/
def Alike (m m' : Machine) : Prop :=
  ∃ trace steps input output, m' = { m with trace, steps, input, output }

theorem Alike.refl (m : Machine) : Alike m m := ⟨m.trace, m.steps, m.input, m.output, rfl⟩

theorem Alike.traceAt (o : Options) (code : Bytes) (ip : Nat) (m : Machine) :
    Alike m (m.traceAt o code ip) := by
  unfold Machine.traceAt
  split_ifs
  · exact ⟨_, _, _, _, rfl⟩
  · exact .refl m

theorem Alike.heed (m : Machine) (r : Reaction σ) : Alike m (m.tick.heed r) := ⟨_, _, _, _, rfl⟩

/-- A turn that goes on: white space is passed over, or an instruction is executed between two
pieces of bookkeeping. -/
theorem turn_eq_ok (h : turn o hook text p = .ok q) :
    p.ip < text.size ∧
      ((isSpace (text.getD p.ip 0) ∧ q.ip = p.ip + 1 ∧ q.machine = p.machine) ∨
        ∃ u m, Alike p.machine u ∧ Alike m q.machine ∧
          Executed o.eof text p.ip u (text.getD p.ip 0) m (.ok q.ip)) := by
  rw [turn] at h
  by_cases hip : p.ip < text.size
  swap
  · rw [if_neg hip] at h
    cases h
  rw [if_pos hip] at h
  refine ⟨hip, ?_⟩
  by_cases hsp : isSpace (text.getD p.ip 0)
  · rw [if_pos hsp] at h
    cases h
    exact .inl ⟨hsp, rfl, rfl⟩
  rw [if_neg hsp] at h
  by_cases hs : p.machine.spent o
  · rw [if_pos hs] at h
    cases h
  rw [if_neg hs] at h
  have he := executed_exec o.eof text p.ip (text.getD p.ip 0)
    (p.machine.traceAt o p.machine.code p.ip)
  generalize exec o.eof text p.ip _ (p.machine.traceAt o p.machine.code p.ip) = x at h he
  obtain ⟨m, stop | next⟩ := x
  · cases h
  · dsimp only at h
    split_ifs at h
    cases h
    exact .inr ⟨_, m, .traceAt .., .heed .., he⟩

/-- A turn that ends the run: the budget is spent, an instruction stops, the hook aborts, or the
text is at its end. -/
inductive TurnEnd (o : Options) (text : Array UInt8) (p : Point σ) : Finished σ → Prop
  | spent (hip : p.ip < text.size) :
      TurnEnd o text p ⟨p.machine, p.state, some (.stepLimit p.machine.steps p.ip)⟩
  | stopped {u m : Machine} {stop : Stop} (hip : p.ip < text.size) (hu : Alike p.machine u)
      (h : Executed o.eof text p.ip u (text.getD p.ip 0) m (.error stop)) :
      TurnEnd o text p ⟨m, p.state, some stop⟩
  | aborted {u m m' : Machine} {s : σ} {next : Nat} (hip : p.ip < text.size)
      (hu : Alike p.machine u)
      (h : Executed o.eof text p.ip u (text.getD p.ip 0) m (.ok next)) (hm : Alike m m') :
      TurnEnd o text p ⟨m', s, some .aborted⟩
  | halted {m : Machine} (hip : ¬ p.ip < text.size) (hm : Alike p.machine m)
      (h : p.machine.loops = []) : TurnEnd o text p ⟨m, p.state, none⟩
  | leftOpen {m : Machine} (hip : ¬ p.ip < text.size) (hm : Alike p.machine m)
      (h : p.machine.loops ≠ []) :
      TurnEnd o text p ⟨m, p.state, some (m.faultAt .unbalancedLoop text.size 0)⟩

theorem turnEnd_of_turn (h : turn o hook text p = .error e) : TurnEnd o text p e := by
  rw [turn] at h
  by_cases hip : p.ip < text.size
  · rw [if_pos hip] at h
    by_cases hsp : isSpace (text.getD p.ip 0)
    · rw [if_pos hsp] at h
      cases h
    rw [if_neg hsp] at h
    by_cases hs : p.machine.spent o
    · rw [if_pos hs] at h
      cases h
      exact .spent hip
    rw [if_neg hs] at h
    have he := executed_exec o.eof text p.ip (text.getD p.ip 0)
      (p.machine.traceAt o p.machine.code p.ip)
    generalize exec o.eof text p.ip _ (p.machine.traceAt o p.machine.code p.ip) = x at h he
    obtain ⟨m, stop | next⟩ := x
    · cases h
      exact .stopped hip (.traceAt ..) he
    · dsimp only at h
      split_ifs at h
      cases h
      exact .aborted hip (.traceAt ..) he (.heed ..)
  · rw [if_neg hip] at h
    cases h
    have ha := Alike.traceAt o p.machine.code text.size p.machine
    have hl : (p.machine.traceAt o p.machine.code text.size).loops = p.machine.loops := by
      obtain ⟨_, _, _, _, he⟩ := ha
      rw [he]
    unfold finish
    dsimp only
    split
    · next h => exact .halted hip ha (hl ▸ h)
    · next h => exact .leftOpen hip ha (by rw [← hl, h]; exact List.cons_ne_nil _ _)

/-! ### What a run keeps -/

/-- The instructions of the text keep the property, and no bookkeeping touches it. -/
structure KeptIn (text : Array UInt8) (P : Machine → Prop) : Prop where
  executed {eof : EofMode} {ip : Nat} {m m' : Machine} {x : Except Stop Nat}
    (hip : ip < text.size) (h : Executed eof text ip m (text.getD ip 0) m' x) (hm : P m) : P m'
  alike {m m' : Machine} (h : Alike m m') (hm : P m) : P m'

/-- Every instruction keeps the property, and no bookkeeping touches it. -/
structure Kept (text : Array UInt8) (P : Machine → Prop) : Prop where
  executed {eof : EofMode} {ip : Nat} {c : UInt8} {m m' : Machine} {x : Except Stop Nat}
    (h : Executed eof text ip m c m' x) (hm : P m) : P m'
  alike {m m' : Machine} (h : Alike m m') (hm : P m) : P m'

variable {P : Machine → Prop}

namespace KeptIn

/-- A property that instructions and tracing keep holds after a turn. -/
theorem turn (k : KeptIn text P) (h : turn o hook text p = .ok q) (hp : P p.machine) :
    P q.machine := by
  obtain ⟨hip, ⟨-, -, he⟩ | ⟨u, m, hu, hm, he⟩⟩ := turn_eq_ok h
  · exact he ▸ hp
  · exact k.alike hm (k.executed hip he (k.alike hu hp))

theorem turnEnd (k : KeptIn text P) (h : TurnEnd o text p e) (hp : P p.machine) :
    P e.machine := by
  cases h with
  | spent => exact hp
  | stopped hip hu h => exact k.executed hip h (k.alike hu hp)
  | aborted hip hu h hm => exact k.alike hm (k.executed hip h (k.alike hu hp))
  | halted _ hm => exact k.alike hm hp
  | leftOpen _ hm => exact k.alike hm hp

/-- It holds at every point that is visited. -/
theorem visits (k : KeptIn text P) (h : Visits o hook text p q) (hp : P p.machine) :
    P q.machine := by
  induction h with
  | refl => exact hp
  | more h _ ih => exact ih (k.turn h hp)

/-- **What the instructions of a text keep, its runs keep**, however they end. -/
theorem run {m : Machine} {code : Bytes} {s : σ} {fuel : Nat} (k : KeptIn code.toArray P)
    (h : m.run o hook fuel code s = some e) (hm : P (m.load code)) : P e.machine := by
  obtain ⟨q, hv, hq⟩ := run_iff_visits.mp ⟨fuel, h⟩
  exact k.turnEnd (turnEnd_of_turn hq) (k.visits hv hm)

end KeptIn

namespace Kept

theorem keptIn (k : Kept text P) : KeptIn text P := ⟨fun _ => k.executed, k.alike⟩

theorem turn (k : Kept text P) (h : turn o hook text p = .ok q) (hp : P p.machine) :
    P q.machine :=
  k.keptIn.turn h hp

/-- **What every instruction keeps, every run keeps**, however it ends. -/
theorem run {m : Machine} {code : Bytes} {s : σ} {fuel : Nat} (k : Kept code.toArray P)
    (h : m.run o hook fuel code s = some e) (hm : P (m.load code)) : P e.machine :=
  k.keptIn.run h hm

end Kept

end

end Machine

end StackTape
