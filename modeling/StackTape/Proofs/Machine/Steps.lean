import Mathlib
import StackTape.Machine.Run

/-!
# Runs, step by step

A run without a hook and without a budget is a chain of steps: a byte of white space is passed
over, any other byte is executed and counted.  `advance` is one step, `Steps` a chain of them with
its length.  A run that ends has gone through a chain of steps to a position where no step is left,
and what it answers there is `conclude` (`run_eq_some_iff`); steps are a function, so a chain is
determined by its length (`Steps.functional`).

`Safe` says that no step ahead moves the pointer off the tape.
-/

namespace StackTape

/-- The stop of a run whose pointer would leave the tape. -/
def Stop.leavesTape : Stop → Bool
  | .fault f => f.kind = .pointerUnderflow || f.kind = .pointerOverflow
  | _ => false

namespace Machine

/-! ### One step -/

/-- One step at a position of the text; `none` where the run ends. -/
def advance (o : Options) (text : Array UInt8) (ip : Nat) (m : Machine) : Option (Nat × Machine) :=
  if ip < text.size then
    if isSpace (text.getD ip 0) then some (ip + 1, m)
    else
      match exec o.eof text ip (text.getD ip 0) (m.traceAt o m.code ip) with
      | (m, .ok next) => some (next, m.tick)
      | (_, .error _) => none
  else none

/-- What a run answers at a position where no step is left. -/
def conclude (o : Options) (text : Array UInt8) (ip : Nat) (m : Machine) : Finished Unit :=
  if ip < text.size then
    match exec o.eof text ip (text.getD ip 0) (m.traceAt o m.code ip) with
    | (m, .error stop) => ⟨m, (), some stop⟩
    | (m, .ok _) => ⟨m, (), none⟩
  else ⟨(m.finish o text).1, (), (m.finish o text).2⟩

theorem heed_silent (m : Machine) (ip : Nat) : m.heed (Hook.silent.react () m ip) = m := by
  simp [heed, Hook.silent, Sink.append]

theorem spent_eq_false {o : Options} (ho : o.maxSteps = 0) (m : Machine) : m.spent o = false := by
  simp [spent, ho]

/-- A run goes on where a step leads. -/
theorem runFrom_of_advance {o : Options} (ho : o.maxSteps = 0) {text : Array UInt8}
    {ip ip' : Nat} {m m' : Machine} (h : advance o text ip m = some (ip', m')) (fuel : Nat) :
    runFrom o Hook.silent text (fuel + 1) ip () m = runFrom o Hook.silent text fuel ip' () m' := by
  rw [advance] at h
  rw [runFrom]
  by_cases hip : ip < text.size
  · rw [if_pos hip] at h ⊢
    generalize text.getD ip 0 = c at h
    by_cases hsp : isSpace c
    · rw [if_pos hsp] at h
      cases h
      exact if_pos hsp
    · simp only [hsp, if_false, Bool.false_eq_true, spent_eq_false ho] at h ⊢
      generalize exec o.eof text ip c (m.traceAt o m.code ip) = e at h
      obtain ⟨m₁, stop | next⟩ := e
      · cases h
      · cases h
        simp only [heed_silent]
        rfl
  · rw [if_neg hip] at h
    cases h

/-- A run ends where no step is left. -/
theorem runFrom_of_advance_none {o : Options} (ho : o.maxSteps = 0) {text : Array UInt8}
    {ip : Nat} {m : Machine} (h : advance o text ip m = none) (fuel : Nat) :
    runFrom o Hook.silent text (fuel + 1) ip () m = some (conclude o text ip m) := by
  rw [advance] at h
  rw [runFrom, conclude]
  by_cases hip : ip < text.size
  · rw [if_pos hip] at h
    rw [if_pos hip, if_pos hip]
    generalize text.getD ip 0 = c at h
    by_cases hsp : isSpace c
    · rw [if_pos hsp] at h
      cases h
    · simp only [hsp, if_false, Bool.false_eq_true, spent_eq_false ho] at h ⊢
      generalize exec o.eof text ip c (m.traceAt o m.code ip) = e at h
      obtain ⟨m₁, stop | next⟩ := e
      · rfl
      · cases h
  · rw [if_neg hip, if_neg hip]

/-! ### Chains of steps -/

/-- A chain of `n` steps. -/
inductive Steps (o : Options) (text : Array UInt8) : Nat → Nat → Machine → Nat → Machine → Prop
  | refl (ip : Nat) (m : Machine) : Steps o text 0 ip m ip m
  | more {n ip ip₁ ip' : Nat} {m m₁ m' : Machine} (h : advance o text ip m = some (ip₁, m₁))
      (t : Steps o text n ip₁ m₁ ip' m') : Steps o text (n + 1) ip m ip' m'

namespace Steps

variable {o : Options} {text : Array UInt8} {a b ip ip₁ ip₂ : Nat} {m m₁ m₂ : Machine}

theorem one (h : advance o text ip m = some (ip₁, m₁)) : Steps o text 1 ip m ip₁ m₁ :=
  .more h (.refl _ _)

/-- Steps in a row add up. -/
theorem trans (h₁ : Steps o text a ip m ip₁ m₁) (h₂ : Steps o text b ip₁ m₁ ip₂ m₂) :
    Steps o text (a + b) ip m ip₂ m₂ := by
  induction h₁ with
  | refl => rwa [Nat.zero_add]
  | more h _ ih => rw [Nat.add_right_comm]; exact .more h (ih h₂)

/-- A chain is determined by its length. -/
theorem functional (h₁ : Steps o text a ip m ip₁ m₁) (h₂ : Steps o text a ip m ip₂ m₂) :
    ip₁ = ip₂ ∧ m₁ = m₂ := by
  induction h₁ with
  | refl => cases h₂; exact ⟨rfl, rfl⟩
  | more h _ ih =>
      cases h₂ with
      | more h' t =>
          rw [h] at h'
          cases h'
          exact ih t

/-- Of two chains from one place the longer goes on where the shorter ends. -/
theorem cancel (h₁ : Steps o text a ip m ip₁ m₁) (h₂ : Steps o text (a + b) ip m ip₂ m₂) :
    Steps o text b ip₁ m₁ ip₂ m₂ := by
  induction h₁ with
  | refl => rwa [Nat.zero_add] at h₂
  | more h _ ih =>
      rw [Nat.add_right_comm] at h₂
      cases h₂ with
      | more h' t =>
          rw [h] at h'
          cases h'
          exact ih t

/-- No chain is longer than one that ends where no step is left. -/
theorem le_of_stopped (h₁ : Steps o text a ip m ip₁ m₁) (hs : advance o text ip₁ m₁ = none)
    (h₂ : Steps o text b ip m ip₂ m₂) : b ≤ a := by
  by_contra hlt
  obtain ⟨c, rfl⟩ : ∃ c, b = a + (c + 1) := ⟨b - a - 1, by omega⟩
  cases h₁.cancel h₂ with
  | more h _ => rw [hs] at h; cases h

/-- A run with enough fuel takes the steps and goes on from there. -/
theorem runFrom (ho : o.maxSteps = 0) (h : Steps o text a ip m ip₁ m₁) (fuel : Nat) :
    Machine.runFrom o Hook.silent text (fuel + a) ip () m =
      Machine.runFrom o Hook.silent text fuel ip₁ () m₁ := by
  induction h with
  | refl => rfl
  | more h _ ih => rw [← ih, ← Nat.add_assoc, runFrom_of_advance ho h]

end Steps

/-- A run that ends has come to a place where no step is left, and answers `conclude` there. -/
theorem runFrom_eq_some_iff {o : Options} (ho : o.maxSteps = 0) {text : Array UInt8}
    {ip : Nat} {m : Machine} {r : Finished Unit} :
    (∃ fuel, runFrom o Hook.silent text fuel ip () m = some r) ↔
      ∃ n ip' m', Steps o text n ip m ip' m' ∧ advance o text ip' m' = none ∧
        r = conclude o text ip' m' := by
  constructor
  · rintro ⟨fuel, h⟩
    induction fuel generalizing ip m with
    | zero => cases h
    | succ fuel ih =>
        cases ha : advance o text ip m with
        | none =>
            rw [runFrom_of_advance_none ho ha] at h
            exact ⟨0, ip, m, .refl _ _, ha, (Option.some.inj h).symm⟩
        | some c =>
            rw [runFrom_of_advance ho ha] at h
            obtain ⟨n, ip', m', hs, hn, hr⟩ := ih h
            exact ⟨n + 1, ip', m', .more ha hs, hn, hr⟩
  · rintro ⟨n, ip', m', hs, hn, rfl⟩
    exact ⟨0 + 1 + n, by rw [hs.runFrom ho, runFrom_of_advance_none ho hn]⟩

/-! ### Runs that stay on the tape -/

/-- The step here would move the pointer off the tape. -/
def Leaves (o : Options) (text : Array UInt8) (ip : Nat) (m : Machine) : Prop :=
  advance o text ip m = none ∧ ∃ stop, (conclude o text ip m).stop = some stop ∧ stop.leavesTape

/-- No step ahead moves the pointer off the tape. -/
def Safe (o : Options) (text : Array UInt8) (ip : Nat) (m : Machine) : Prop :=
  ∀ n ip' m', Steps o text n ip m ip' m' → ¬ Leaves o text ip' m'

/-- A safe point is on the tape. -/
theorem Safe.here {o : Options} {text : Array UInt8} {ip : Nat} {m : Machine}
    (h : Safe o text ip m) : ¬ Leaves o text ip m :=
  h 0 ip m (.refl _ _)

/-- What is reached from a safe point is safe. -/
theorem Safe.steps {o : Options} {text : Array UInt8} {n ip ip' : Nat} {m m' : Machine}
    (h : Safe o text ip m) (hs : Steps o text n ip m ip' m') : Safe o text ip' m' :=
  fun _ _ _ ht => h _ _ _ (hs.trans ht)

end Machine

end StackTape
