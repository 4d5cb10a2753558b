import StackTape.Machine.Basic

/-!
# Runs

`Machine.run` drives a machine through a text.  A hook is told of every instruction after it was
executed; it may keep a state of its own, take bytes from the machine's source, add text to the
machine's output and trace, and stop the run.
-/

namespace StackTape

/-- What a hook does after an instruction. -/
structure Reaction (σ : Type) where
  state : σ
  input : Source
  /-- Text for the machine's output. -/
  prints : Bytes := []
  /-- Text for the machine's trace. -/
  notes : Bytes := []
  aborts : Bool := false

/-- A watcher of a run, with a state of type `σ`: given its state, the machine and the position of
the instruction that was executed. -/
structure Hook (σ : Type) where
  react : σ → Machine → Nat → Reaction σ

/-- The hook that does nothing. -/
def Hook.silent : Hook Unit := ⟨fun _ m _ => { state := (), input := m.input }⟩

/-- A run that ended. -/
structure Finished (σ : Type) where
  machine : Machine
  state : σ
  /-- Why it stopped; `none` when the text ended. -/
  stop : Option Stop

namespace Machine

/-- Writes the state to the trace. -/
def traceAt (o : Options) (code : Bytes) (ip : Nat) (m : Machine) : Machine :=
  if o.tracing then
    let text := m.stateText code ip
    { m with trace := m.trace.appendList text }
  else m

/-- The budget is spent. -/
def spent (o : Options) (m : Machine) : Bool := 0 < o.maxSteps && o.maxSteps ≤ m.steps

/-- Counts an instruction. -/
def tick (m : Machine) : Machine := { m with steps := m.steps + 1 }

/-- Takes over what a hook did. -/
def heed {σ : Type} (m : Machine) (r : Reaction σ) : Machine :=
  { m with
    input := r.input
    output := m.output.append r.prints
    trace := m.trace.appendList r.notes }

/-- The end of the text: a loop that is still open is a fault. -/
def finish (o : Options) (text : Array UInt8) (m : Machine) : Machine × Option Stop :=
  let m := m.traceAt o m.code text.size
  match m.loops with
  | [] => (m, none)
  | _ :: _ => (m, some (m.faultAt .unbalancedLoop text.size 0))

/-- Runs from a position of the text on. -/
def runFrom {σ : Type} (o : Options) (hook : Hook σ) (text : Array UInt8) :
    (fuel ip : Nat) → σ → Machine → Option (Finished σ)
  | 0, _, _, _ => none
  | fuel + 1, ip, h, m =>
    if ip < text.size then
      let c := text.getD ip 0
      if isSpace c then runFrom o hook text fuel (ip + 1) h m
      else if m.spent o then
        let stop := Stop.stepLimit m.steps ip
        some ⟨m, h, some stop⟩
      else
        match exec o.eof text ip c (m.traceAt o m.code ip) with
        | (m, .error stop) => some ⟨m, h, some stop⟩
        | (m, .ok next) =>
          let m := m.tick
          let r := hook.react h m ip
          let m := m.heed r
          if r.aborts then some ⟨m, r.state, some .aborted⟩
          else runFrom o hook text fuel next r.state m
    else
      let (m, stop) := m.finish o text
      some ⟨m, h, stop⟩

/-- Takes up a text; what is remembered of another one is dropped. -/
def load (code : Bytes) (m : Machine) : Machine :=
  if m.code = code then m else { m with code, skips := {} }

/-- Runs a text on the tape as it is. -/
def run {σ : Type} (o : Options) (hook : Hook σ) (fuel : Nat) (code : Bytes) (h : σ)
    (m : Machine) : Option (Finished σ) :=
  runFrom o hook code.toArray fuel 0 h (m.load code)

end Machine

/-! ### A recording hook -/

/-- The positions of the first instructions, last one first, and how many more to record. -/
structure Recorder where
  seen : List Nat := []
  room : Nat := 0
deriving DecidableEq, Repr, Inhabited

/-- Records positions while there is room, and stops the run when the step count reaches
`abortAt`. -/
def Recorder.hook (abortAt : Option UInt64) : Hook Recorder :=
  ⟨fun r m ip =>
    { state := match r.room with
        | 0 => r
        | room + 1 => ⟨ip :: r.seen, room⟩
      input := m.input
      aborts := abortAt = some m.steps }⟩

end StackTape
