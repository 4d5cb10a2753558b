import StackTape.Proofs.Machine.Performs

/-!
# Runs of a whole text

A text that performs an action, run from its start by a machine without open loops, ends if the
action is done, and then shows the view of the action (`Performs.ends`); while the action only ever
runs out of fuel the run goes on for ever (`Performs.endless`).  So the run of an action that is
never stuck ends just when the action is done (`Performs.ends_iff_done`).
-/

namespace StackTape

namespace Machine

/-- The run of a text without a hook ends with an answer. -/
def Ends (o : Options) (code : Bytes) (m : Machine) (r : Finished Unit) : Prop :=
  ∃ fuel, m.run o Hook.silent fuel code () = some r

/-- The run of a text does not end with the pointer leaving the tape. -/
def StaysOnTape (o : Options) (code : Bytes) (m : Machine) : Prop :=
  ∀ r stop, m.Ends o code r → r.stop = some stop → stop.leavesTape = false

/-- The machine as a view, with nothing written yet. -/
def view (m : Machine) : View where
  cells a := m.cell a.toInt.toNat
  pointer := Int64.ofNat m.pointer
  input := m.input.remaining
  output := []

/-- The setting of a run. -/
def setting (o : Options) (code : Bytes) (m : Machine) : Setting where
  options := o
  text := code.toArray
  size := m.capacity
  sink := m.output

/-- The run came to the end of its text, with no loop open, and the machine shows a view. -/
structure Halted (s : Setting) (r : Finished Unit) (v : View) : Prop where
  stop : r.stop = none
  loops : r.machine.loops = []
  shows : Shows s r.machine v

variable {o : Options} {code : Bytes} {m : Machine}

theorem Sound.shows (hm : m.Sound) (hi : m.input.allowance = none) (hk : m.output.Tireless)
    (o : Options) (code : Bytes) : Shows (setting o code m) (m.load code) m.view := by
  have hcells : ∀ i < m.capacity, m.view.cells (Int64.ofNat i) = m.cell i := by
    intro i hlt
    have hle := hm.possible
    unfold largestCapacity at hle
    show m.cell (Int64.ofNat i).toInt.toNat = m.cell i
    rw [Int64.toInt_ofNat_of_lt (by omega), Int.toNat_natCast]
  obtain ⟨hl, hc⟩ := hm.load code
  have hr := hl.remembers
  rw [hc] at hr
  unfold Machine.load at hr ⊢
  split_ifs at hr ⊢ <;>
    exact ⟨rfl, hm.possible, hm.onTape, hr, rfl, hcells, rfl, hi, (Sink.after_nil _).symm, hk⟩

theorem loops_load (code : Bytes) (m : Machine) : (m.load code).loops = m.loops := by
  unfold Machine.load
  split_ifs <;> rfl

theorem ends_iff (ho : o.maxSteps = 0) {r : Finished Unit} :
    m.Ends o code r ↔ ∃ n ip m', Steps o code.toArray n 0 (m.load code) ip m' ∧
      advance o code.toArray ip m' = none ∧ r = conclude o code.toArray ip m' :=
  runFrom_eq_some_iff ho

/-- A run has one answer. -/
theorem Ends.unique (ho : o.maxSteps = 0) {r r' : Finished Unit} (h : m.Ends o code r)
    (h' : m.Ends o code r') : r = r' := by
  obtain ⟨n, ip, m₁, hs, hn, rfl⟩ := (ends_iff ho).mp h
  obtain ⟨n', ip', m₂, hs', hn', rfl⟩ := (ends_iff ho).mp h'
  obtain rfl : n = n' := Nat.le_antisymm (hs'.le_of_stopped hn' hs) (hs.le_of_stopped hn hs')
  obtain ⟨rfl, rfl⟩ := hs.functional hs'
  rfl

/-- A budget only cuts a run short. -/
theorem runFrom_unlimited {α : Type} {hook : Hook α} {text : Array UInt8} {fuel ip : Nat} {a : α}
    {m : Machine} {r : Finished α} (h : runFrom o hook text fuel ip a m = some r) :
    (∃ steps ip', r.stop = some (.stepLimit steps ip')) ∨
      runFrom { o with maxSteps := 0 } hook text fuel ip a m = some r := by
  induction fuel generalizing ip a m with
  | zero => cases h
  | succ fuel ih =>
      rw [runFrom] at h ⊢
      have hspent : m.spent { o with maxSteps := 0 } = false := by simp [spent]
      by_cases hip : ip < text.size
      · rw [if_pos hip] at h ⊢
        dsimp only at h ⊢
        by_cases hsp : isSpace (text.getD ip 0)
        · rw [if_pos hsp] at h ⊢
          exact ih h
        · rw [if_neg hsp] at h ⊢
          rw [hspent, if_neg Bool.false_ne_true]
          -- until the budget is spent both do the same
          by_cases hs : m.spent o
          · rw [if_pos hs] at h
            cases h
            exact .inl ⟨_, _, rfl⟩
          · have htrace : m.traceAt { o with maxSteps := 0 } m.code ip = m.traceAt o m.code ip :=
              rfl
            rw [if_neg hs] at h
            rw [htrace]
            generalize exec o.eof text ip _ (m.traceAt o m.code ip) = e at h ⊢
            obtain ⟨m₁, stop | next⟩ := e
            · exact .inr h
            · dsimp only at h ⊢
              split_ifs at h ⊢
              · exact .inr h
              · exact ih h
      · rw [if_neg hip] at h ⊢
        exact .inr h

/-- A run that stays on the tape stays there with every budget. -/
theorem StaysOnTape.of_unlimited (h : m.StaysOnTape { o with maxSteps := 0 } code) :
    m.StaysOnTape o code := by
  rintro r stop ⟨fuel, hr⟩ hstop
  rcases runFrom_unlimited hr with ⟨steps, ip, hlimit⟩ | hr
  · rw [hlimit] at hstop
    cases hstop
    rfl
  · exact h r stop ⟨fuel, hr⟩ hstop

theorem StaysOnTape.safe (ho : o.maxSteps = 0) (h : m.StaysOnTape o code) :
    Safe o code.toArray 0 (m.load code) := by
  rintro n ip m' hs ⟨hn, stop, hstop, hl⟩
  have := h _ stop ((ends_iff ho).mpr ⟨n, ip, m', hs, hn, rfl⟩) hstop
  rw [this] at hl
  cases hl

/-- The end of the text. -/
theorem conclude_end {s : Setting} {m' : Machine} {v : View} (hm : Shows s m' v)
    (hl : m'.loops = []) :
    advance s.options s.text s.text.size m' = none ∧
      Halted s (conclude s.options s.text s.text.size m') v := by
  constructor
  · rw [advance, if_neg (Nat.lt_irrefl _)]
  · have ht := hm.traceAt s.options m'.code s.text.size
    have hl' : (m'.traceAt s.options m'.code s.text.size).loops = [] :=
      (Shows.loops_traceAt ..).trans hl
    have hf : m'.finish s.options s.text = (m'.traceAt s.options m'.code s.text.size, none) := by
      rw [finish, hl']
    rw [conclude, if_neg (Nat.lt_irrefl _), hf]
    exact ⟨rfl, hl', ht⟩

namespace Performs

variable {fuel : Nat} {act : View → Ending} {u : View}

theorem whole (h : Performs o.eof fuel code act) (ho : o.maxSteps = 0) (hm : m.Sound)
    (hi : m.input.allowance = none) (hk : m.output.Tireless) (hs : m.StaysOnTape o code) :
    Reaches (setting o code m) fuel 0 (m.load code) code.length (act m.view) := by
  have := h.reaches (s := setting o code m) rfl (holds_whole code) (hm.shows hi hk o code)
    (hs.safe ho)
  rwa [Nat.zero_add] at this

/-- **A run ends if the action is done**, and the machine then shows the view of the action. -/
theorem ends (h : Performs o.eof fuel code act) (ho : o.maxSteps = 0) (hm : m.Sound)
    (hl : m.loops = []) (hi : m.input.allowance = none) (hk : m.output.Tireless)
    (hs : m.StaysOnTape o code) (hu : act m.view = .done u) :
    ∃ r, m.Ends o code r ∧ Halted (setting o code m) r u := by
  have hr := h.whole ho hm hi hk hs
  rw [hu] at hr
  obtain ⟨n, m', hst, hm', hl'⟩ := hr
  obtain ⟨hn, hh⟩ := conclude_end hm' (hl'.trans ((loops_load code m).trans hl))
  exact ⟨_, (ends_iff ho).mpr ⟨n, code.length, m', hst, hn, rfl⟩, hh⟩

/-- A run goes on for ever if the action runs out of every fuel. -/
theorem endless {act : Nat → View → Ending} (h : ∀ fuel, Performs o.eof fuel code (act fuel))
    (ho : o.maxSteps = 0) (hm : m.Sound) (hi : m.input.allowance = none) (hk : m.output.Tireless)
    (hs : m.StaysOnTape o code) (hu : ∀ fuel, ∃ u, act fuel m.view = .more u)
    (r : Finished Unit) : ¬ m.Ends o code r := by
  intro he
  obtain ⟨n, ip, m₁, hst, hn, -⟩ := (ends_iff ho).mp he
  obtain ⟨u, hu⟩ := hu (n + 1)
  have hr := (h (n + 1)).whole ho hm hi hk hs
  rw [hu] at hr
  obtain ⟨k, ip', m', hk, hst', -, -⟩ := hr
  have := hst.le_of_stopped hn hst'
  omega

/-- A run of an action that is never stuck ends just when the action is done. -/
theorem ends_iff_done {act : Nat → View → Ending}
    (h : ∀ fuel, Performs o.eof fuel code (act fuel)) (ho : o.maxSteps = 0) (hm : m.Sound)
    (hl : m.loops = []) (hi : m.input.allowance = none) (hk : m.output.Tireless)
    (hs : m.StaysOnTape o code) (hstuck : ∀ fuel, act fuel m.view ≠ .stuck) :
    (∃ r, m.Ends o code r) ↔ ∃ fuel u, act fuel m.view = .done u := by
  refine ⟨fun ⟨r, hr⟩ => ?_, fun ⟨fuel, u, hu⟩ => ?_⟩
  · by_contra hnone
    refine endless h ho hm hi hk hs (fun fuel => ?_) r hr
    cases hx : act fuel m.view with
    | done u => exact absurd ⟨fuel, u, hx⟩ hnone
    | more u => exact ⟨u, rfl⟩
    | stuck => exact absurd hx (hstuck fuel)
  · obtain ⟨r, hr, -⟩ := (h fuel).ends ho hm hl hi hk hs hu
    exact ⟨r, hr⟩

end Performs

end Machine

end StackTape
