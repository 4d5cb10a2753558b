import StackTape.Proofs.Machine.Turns
import StackTape.Proofs.Machine.Whole

/-!
# The step budget

A budget is looked at before every instruction and never at white space.  So a run with a budget
goes through the chain of steps of the run without one (`ends_iff_steps`), up to the first place
where an instruction is next and the budget is spent (`Exhausted`); there it stops and changes
nothing.  It always ends (`exists_turn_error`): every instruction uses up some budget, and white
space some text.

`run_budget` puts this together, with what follows for the count of steps, for larger budgets and
for the machine that a stopped run leaves behind.
-/

namespace StackTape

/-- The same options with another budget; zero is no limit. -/
def Options.within (o : Options) (n : UInt64) : Options := { o with maxSteps := n }

/-- The position that a stop reports. -/
def Stop.position? : Stop → Option Nat
  | .fault f => some f.ip
  | .stepLimit _ ip | .outputFailed ip | .inputFailed ip => some ip
  | .aborted => none

namespace Machine

/-- An instruction is next, and at least `n` were counted. -/
def Exhausted (n : UInt64) (text : Array UInt8) (ip : Nat) (m : Machine) : Prop :=
  ip < text.size ∧ isSpace (text.getD ip 0) = false ∧ n ≤ m.steps

/-- The budget of the options stops the run. -/
def AtLimit (o : Options) (text : Array UInt8) (ip : Nat) (m : Machine) : Prop :=
  o.maxSteps ≠ 0 ∧ Exhausted o.maxSteps text ip m

instance (o : Options) (text : Array UInt8) (ip : Nat) (m : Machine) :
    Decidable (AtLimit o text ip m) :=
  inferInstanceAs (Decidable (_ ∧ _ ∧ _ ∧ _))

variable {o : Options} {text : Array UInt8} {n : UInt64} {k ip ip' : Nat} {m m' : Machine}
  {r r' : Finished Unit} {code : Bytes}

theorem spent_iff : m.spent o ↔ o.maxSteps ≠ 0 ∧ o.maxSteps ≤ m.steps := by
  rw [spent, Bool.and_eq_true, decide_eq_true_iff, decide_eq_true_iff, UInt64.pos_iff_ne_zero]

/-! ### One step -/

/-- A turn without a hook is a step, unless the budget stops it. -/
theorem turn_silent (o : Options) (text : Array UInt8) (p : Point Unit) :
    turn o Hook.silent text p =
      if AtLimit o text p.ip p.machine then
        .error ⟨p.machine, (), some (.stepLimit p.machine.steps p.ip)⟩
      else
        match advance o text p.ip p.machine with
        | some (ip', m') => .ok ⟨ip', (), m'⟩
        | none => .error (conclude o text p.ip p.machine) := by
  obtain ⟨ip, ⟨⟩, m⟩ := p
  rw [turn, advance, conclude]
  by_cases hip : ip < text.size
  swap
  · rw [if_neg hip, if_neg hip, if_neg hip, if_neg fun h => hip h.2.1]
  rw [if_pos hip, if_pos hip, if_pos hip]
  by_cases hs : isSpace (text.getD ip 0)
  · rw [if_pos hs, if_pos hs, if_neg fun h => by rw [h.2.2.1] at hs; cases hs]
  rw [if_neg hs, if_neg hs]
  have hlimit : m.spent o ↔ AtLimit o text ip m := by
    rw [spent_iff]
    exact ⟨fun h => ⟨h.1, hip, by simpa using hs, h.2⟩, fun h => ⟨h.1, h.2.2.2⟩⟩
  dsimp only
  by_cases hl : AtLimit o text ip m
  · rw [if_pos (hlimit.mpr hl), if_pos hl]
  · rw [if_neg fun h => hl (hlimit.mp h), if_neg hl]
    generalize exec o.eof text ip _ (m.traceAt o m.code ip) = x
    obtain ⟨u, stop | next⟩ := x
    · rfl
    · simp only [heed_silent]
      rfl

/-- A turn that goes on is a step. -/
theorem turn_ok_iff {p q : Point Unit} : turn o Hook.silent text p = .ok q ↔
    ¬ AtLimit o text p.ip p.machine ∧ advance o text p.ip p.machine = some (q.ip, q.machine) := by
  rw [turn_silent]
  constructor
  · intro h
    split_ifs at h with hl
    refine ⟨hl, ?_⟩
    cases ha : advance o text p.ip p.machine with
    | none =>
        rw [ha] at h
        cases h
    | some c =>
        rw [ha] at h
        cases h
        rfl
  · rintro ⟨hl, ha⟩
    rw [if_neg hl, ha]

/-- A turn ends the run at its limit, or where no step is left. -/
theorem turn_error_iff {p : Point Unit} : turn o Hook.silent text p = .error r ↔
    AtLimit o text p.ip p.machine ∧
        r = ⟨p.machine, (), some (.stepLimit p.machine.steps p.ip)⟩ ∨
      ¬ AtLimit o text p.ip p.machine ∧ advance o text p.ip p.machine = none ∧
        r = conclude o text p.ip p.machine := by
  rw [turn_silent]
  constructor
  · intro h
    split_ifs at h with hl
    · cases h
      exact .inl ⟨hl, rfl⟩
    · cases ha : advance o text p.ip p.machine with
      | none =>
          rw [ha] at h
          cases h
          exact .inr ⟨hl, rfl, rfl⟩
      | some c =>
          rw [ha] at h
          cases h
  · rintro (⟨hl, rfl⟩ | ⟨hl, ha, rfl⟩)
    · rw [if_pos hl]
    · rw [if_neg hl, ha]

/-- A step passes over white space, or executes an instruction and counts it. -/
theorem advance_eq_some (h : advance o text ip m = some (ip', m')) :
    ip < text.size ∧
      ((isSpace (text.getD ip 0) ∧ ip' = ip + 1 ∧ m' = m) ∨
        isSpace (text.getD ip 0) = false ∧ ∃ u,
          Executed o.eof text ip (m.traceAt o m.code ip) (text.getD ip 0) u (.ok ip') ∧
            m' = u.tick) := by
  rw [advance] at h
  by_cases hip : ip < text.size
  swap
  · rw [if_neg hip] at h
    cases h
  rw [if_pos hip] at h
  refine ⟨hip, ?_⟩
  by_cases hs : isSpace (text.getD ip 0)
  · rw [if_pos hs] at h
    cases h
    exact .inl ⟨hs, rfl, rfl⟩
  · rw [if_neg hs] at h
    have he := executed_exec o.eof text ip (text.getD ip 0) (m.traceAt o m.code ip)
    generalize exec o.eof text ip _ (m.traceAt o m.code ip) = x at h he
    obtain ⟨u, stop | next⟩ := x
    · cases h
    · cases h
      exact .inr ⟨by simpa using hs, u, he, rfl⟩

/-- No step is left behind the text and at an instruction that stops. -/
theorem advance_eq_none (h : advance o text ip m = none) :
    text.size ≤ ip ∨ ip < text.size ∧ isSpace (text.getD ip 0) = false ∧ ∃ u stop,
      Executed o.eof text ip (m.traceAt o m.code ip) (text.getD ip 0) u (.error stop) ∧
        conclude o text ip m = ⟨u, (), some stop⟩ := by
  rw [advance] at h
  rw [conclude]
  by_cases hip : ip < text.size
  swap
  · exact .inl (Nat.le_of_not_lt hip)
  rw [if_pos hip] at h ⊢
  refine .inr ⟨hip, ?_⟩
  by_cases hs : isSpace (text.getD ip 0)
  · rw [if_pos hs] at h
    cases h
  · rw [if_neg hs] at h
    have he := executed_exec o.eof text ip (text.getD ip 0) (m.traceAt o m.code ip)
    generalize exec o.eof text ip _ (m.traceAt o m.code ip) = x at h he
    obtain ⟨u, stop | next⟩ := x
    · exact ⟨by simpa using hs, u, stop, he, rfl⟩
    · cases h

theorem traceAt_eq (o : Options) (code : Bytes) (ip : Nat) (m : Machine) :
    ∃ trace, m.traceAt o code ip = { m with trace } := by
  unfold traceAt
  split_ifs
  · exact ⟨_, rfl⟩
  · exact ⟨m.trace, rfl⟩

/-- A step counts an instruction and no white space. -/
theorem steps_of_advance (h : advance o text ip m = some (ip', m')) :
    m'.steps = m.steps ∧ ip' = ip + 1 ∧ ip < text.size ∨
      isSpace (text.getD ip 0) = false ∧ ip < text.size ∧ m'.steps = m.steps + 1 := by
  obtain ⟨hip, ⟨-, rfl, rfl⟩ | ⟨hs, u, he, rfl⟩⟩ := advance_eq_some h
  · exact .inl ⟨rfl, rfl, hip⟩
  · obtain ⟨trace, ht⟩ := traceAt_eq o m.code ip m
    rw [ht] at he
    exact .inr ⟨hs, hip, congrArg (· + 1) he.keeps.2.2⟩

/-- **A run that is stopped changes nothing** but the source that an instruction failed to read,
and the trace. -/
theorem conclude_unchanged (h : advance o text ip m = none) :
    ∃ input trace, (conclude o text ip m).machine = { m with input, trace } := by
  rcases advance_eq_none h with hip | ⟨-, -, u, stop, he, hc⟩
  · obtain ⟨trace, ht⟩ := traceAt_eq o m.code text.size m
    rw [conclude, if_neg (Nat.not_lt.mpr hip), finish, ht]
    refine ⟨m.input, trace, ?_⟩
    dsimp only
    split <;> rfl
  · obtain ⟨trace, ht⟩ := traceAt_eq o m.code ip m
    obtain ⟨input, hu⟩ := he.unchanged
    rw [hc, hu, ht]
    exact ⟨input, trace, rfl⟩

/-- The stop of a run reports the instruction that stops, or the end of the text. -/
theorem position?_conclude {stop : Stop} (h : advance o text ip m = none)
    (hs : (conclude o text ip m).stop = some stop) : stop.position? = some (min ip text.size) := by
  rcases advance_eq_none h with hip | ⟨hip, -, u, stop', he, hc⟩
  · rw [conclude, if_neg (Nat.not_lt.mpr hip), finish] at hs
    rw [Nat.min_eq_right hip]
    dsimp only at hs
    split at hs
    · cases hs
    · cases hs
      rfl
  · rw [hc] at hs
    cases hs
    rw [Nat.min_eq_left (Nat.le_of_lt hip)]
    generalize text.getD ip 0 = c at he
    cases he <;> rfl

/-! ### The chain of a run -/

/-- Two ends of a run are one. -/
theorem visits_unique {σ : Type} {hook : Hook σ} {p q q' : Point σ} {e e' : Finished σ}
    (h : Visits o hook text p q) (he : turn o hook text q = .error e)
    (h' : Visits o hook text p q') (he' : turn o hook text q' = .error e') : e = e' := by
  induction h with
  | refl =>
      cases h' with
      | refl =>
          rw [he] at he'
          cases he'
          rfl
      | more ht =>
          rw [he] at ht
          cases ht
  | more ht _ ih =>
      cases h' with
      | refl =>
          rw [ht] at he'
          cases he'
      | more ht' hv =>
          rw [ht] at ht'
          cases ht'
          exact ih he hv

/-- A run has one answer, whatever its budget. -/
theorem ends_unique (h : m.Ends o code r) (h' : m.Ends o code r') : r = r' := by
  obtain ⟨q, hv, he⟩ := run_iff_visits.mp h
  obtain ⟨q', hv', he'⟩ := run_iff_visits.mp h'
  exact visits_unique hv he hv' he'

/-- The budget is not spent on the way. -/
def Ample (o : Options) (text : Array UInt8) (k ip : Nat) (m : Machine) : Prop :=
  ∀ j < k, ∀ ip' m', Steps o text j ip m ip' m' → ¬ AtLimit o text ip' m'

theorem Ample.tail {ip₁ : Nat} {m₁ : Machine} (h : Ample o text (k + 1) ip m)
    (ha : advance o text ip m = some (ip₁, m₁)) : Ample o text k ip₁ m₁ :=
  fun j hj _ _ hs => h (j + 1) (Nat.succ_lt_succ hj) _ _ (.more ha hs)

theorem Steps.visits (h : Steps o text k ip m ip' m') (ha : Ample o text k ip m) :
    Visits o Hook.silent text ⟨ip, (), m⟩ ⟨ip', (), m'⟩ := by
  induction h with
  | refl => exact .refl _
  | more hstep _ ih =>
      exact .more (turn_ok_iff.mpr ⟨ha 0 (Nat.succ_pos _) _ _ (.refl _ _), hstep⟩)
        (ih (ha.tail hstep))

theorem steps_of_visits {p q : Point Unit} (h : Visits o Hook.silent text p q) :
    ∃ k, Steps o text k p.ip p.machine q.ip q.machine ∧ Ample o text k p.ip p.machine := by
  induction h with
  | refl p => exact ⟨0, .refl _ _, fun _ hj => absurd hj (Nat.not_lt_zero _)⟩
  | @more p q _ ht _ ih =>
      obtain ⟨k, hs, ha⟩ := ih
      obtain ⟨hl, hstep⟩ := turn_ok_iff.mp ht
      refine ⟨k + 1, .more hstep hs, fun j hj ip' m' hs' => ?_⟩
      cases hs' with
      | refl => exact hl
      | more hstep' hs' =>
          rw [hstep] at hstep'
          cases hstep'
          exact ha _ (Nat.lt_of_succ_lt_succ hj) _ _ hs'

/-- **A run with a budget** goes through the steps of the run without one, and ends where the
budget is spent or no step is left. -/
theorem ends_iff_steps : m.Ends o code r ↔
    ∃ k ip u, Steps o code.toArray k 0 (m.load code) ip u ∧
      Ample o code.toArray k 0 (m.load code) ∧
      turn o Hook.silent code.toArray ⟨ip, (), u⟩ = .error r := by
  constructor
  · intro h
    obtain ⟨q, hv, he⟩ := run_iff_visits.mp h
    obtain ⟨k, hs, ha⟩ := steps_of_visits hv
    exact ⟨k, q.ip, q.machine, hs, ha, he⟩
  · rintro ⟨k, ip, u, hs, ha, he⟩
    exact run_iff_visits.mpr ⟨_, hs.visits ha, he⟩

theorem toNat_add_one {a b : UInt64} (h : a < b) : (a + 1).toNat = a.toNat + 1 := by
  have hb := b.toNat_lt
  rw [UInt64.lt_iff_toNat_lt] at h
  rw [UInt64.toNat_add, UInt64.toNat_one]
  omega

/-- **A run with a budget ends.** -/
theorem exists_turn_error (ho : o.maxSteps ≠ 0) (text : Array UInt8) (ip : Nat) (m : Machine) :
    ∃ q r, Visits o Hook.silent text ⟨ip, (), m⟩ q ∧
      turn o Hook.silent text q = .error r := by
  by_cases hl : AtLimit o text ip m
  · exact ⟨_, _, .refl _, turn_error_iff.mpr (.inl ⟨hl, rfl⟩)⟩
  cases ha : advance o text ip m with
  | none => exact ⟨_, _, .refl _, turn_error_iff.mpr (.inr ⟨hl, ha, rfl⟩)⟩
  | some c =>
      obtain ⟨ip₁, m₁⟩ := c
      obtain ⟨q, r, hv, hr⟩ := exists_turn_error ho text ip₁ m₁
      exact ⟨q, r, .more (turn_ok_iff.mpr ⟨hl, ha⟩) hv, hr⟩
termination_by (o.maxSteps.toNat - m.steps.toNat, text.size - ip)
decreasing_by
  rcases steps_of_advance ha with ⟨hm, rfl, hip⟩ | ⟨hs, hip, hm⟩
  · -- white space uses up text
    rw [hm]
    exact .right _ (by omega)
  · -- an instruction uses up budget
    have hlt : m.steps < o.maxSteps := UInt64.not_le.mp fun hle => hl ⟨ho, hip, hs, hle⟩
    refine .left _ _ ?_
    rw [hm, toNat_add_one hlt]
    rw [UInt64.lt_iff_toNat_lt] at hlt
    omega

/-- The count of steps does not go beyond the budget. -/
theorem Steps.steps_le (h : Steps o text k ip m ip' m') (ho : o.maxSteps ≠ 0)
    (ha : Ample o text k ip m) : m'.steps.toNat ≤ max o.maxSteps.toNat m.steps.toNat := by
  induction h with
  | refl => exact Nat.le_max_right _ _
  | @more _ ip _ _ m _ _ hstep _ ih =>
      have hle := ih (ha.tail hstep)
      rcases steps_of_advance hstep with ⟨hm, -, -⟩ | ⟨hs, hip, hm⟩
      · rwa [hm] at hle
      · have hl := ha 0 (Nat.succ_pos _) _ _ (.refl _ _)
        have hlt : m.steps < o.maxSteps := UInt64.not_le.mp fun hle => hl ⟨ho, hip, hs, hle⟩
        rw [hm, toNat_add_one hlt] at hle
        rw [UInt64.lt_iff_toNat_lt] at hlt
        omega

/-! ### With a budget and without -/

/-- The run of a text without a budget is, after `k` steps, at the position `ip` with the machine
`u`. -/
def Passes (o : Options) (code : Bytes) (m : Machine) (k ip : Nat) (u : Machine) : Prop :=
  Steps (o.within 0) code.toArray k 0 (m.load code) ip u

theorem steps_within (n : UInt64) (h : Steps o text k ip m ip' m') :
    Steps (o.within n) text k ip m ip' m' := by
  induction h with
  | refl => exact .refl _ _
  | more hstep _ ih => exact .more hstep ih

theorem passes_iff : m.Passes o code k ip m' ↔
    Steps (o.within n) code.toArray k 0 (m.load code) ip m' :=
  ⟨steps_within n, steps_within 0⟩

/-- **What each end of a run means**: either the budget is spent here and was not before, or no
step is left. -/
theorem ends_within_iff : m.Ends (o.within n) code r ↔
    ∃ k ip u, m.Passes o code k ip u ∧
      (∀ j < k, ∀ ip' u', m.Passes o code j ip' u' →
        ¬ AtLimit (o.within n) code.toArray ip' u') ∧
      (AtLimit (o.within n) code.toArray ip u ∧ r = ⟨u, (), some (.stepLimit u.steps ip)⟩ ∨
        ¬ AtLimit (o.within n) code.toArray ip u ∧ advance o code.toArray ip u = none ∧
          r = conclude o code.toArray ip u) := by
  rw [ends_iff_steps]
  constructor
  · rintro ⟨k, ip, u, hs, ha, he⟩
    exact ⟨k, ip, u, passes_iff.mpr hs, fun j hj _ _ hp => ha j hj _ _ (passes_iff.mp hp),
      turn_error_iff.mp he⟩
  · rintro ⟨k, ip, u, hp, ha, he⟩
    exact ⟨k, ip, u, passes_iff.mp hp, fun j hj _ _ hs => ha j hj _ _ (passes_iff.mpr hs),
      turn_error_iff.mpr he⟩

theorem exists_ends (hn : n ≠ 0) (o : Options) (code : Bytes) (m : Machine) :
    ∃ r, m.Ends (o.within n) code r := by
  obtain ⟨q, r, hv, he⟩ :=
    exists_turn_error (o := o.within n) hn code.toArray 0 (m.load code)
  exact ⟨r, run_iff_visits.mpr ⟨q, hv, he⟩⟩

/-- A run that did not spend its budget does the same with a larger one. -/
theorem Ends.raise {n' : UInt64} (hn : n ≠ 0) (h : m.Ends (o.within n) code r)
    (hr : ∀ steps ip, r.stop ≠ some (.stepLimit steps ip)) (hle : n ≤ n' ∨ n' = 0) :
    m.Ends (o.within n') code r := by
  have raise {ip : Nat} {u : Machine} (hl : ¬ AtLimit (o.within n) code.toArray ip u) :
      ¬ AtLimit (o.within n') code.toArray ip u := by
    rintro ⟨hn', hip, hs, hu⟩
    exact hl ⟨hn, hip, hs, UInt64.le_trans (hle.resolve_right hn') hu⟩
  obtain ⟨k, ip, u, hp, ha, ⟨-, rfl⟩ | ⟨hl, hnone, rfl⟩⟩ := ends_within_iff.mp h
  · exact absurd rfl (hr _ _)
  · exact ends_within_iff.mpr ⟨k, ip, u, hp, fun j hj _ _ hj' => raise (ha j hj _ _ hj'),
      .inr ⟨raise hl, hnone, rfl⟩⟩

/-- A run leaves a count of steps that is not beyond its budget, or not beyond what it was. -/
theorem Ends.steps_le (hn : n ≠ 0) (h : m.Ends (o.within n) code r) :
    r.machine.steps.toNat ≤ max n.toNat m.steps.toNat := by
  have hload : (m.load code).steps = m.steps := by
    unfold load
    split_ifs <;> rfl
  obtain ⟨k, ip, u, hp, ha, he⟩ := ends_within_iff.mp h
  have hle := (passes_iff.mp hp).steps_le hn fun j hj _ _ hs => ha j hj _ _ (passes_iff.mpr hs)
  rw [hload] at hle
  rcases he with ⟨-, rfl⟩ | ⟨-, hnone, rfl⟩
  · exact hle
  · obtain ⟨input, trace, hc⟩ := conclude_unchanged hnone
    rw [hc]
    exact hle

/-- What a stopped run leaves behind. -/
theorem Ends.unchanged {stop : Stop} (h : m.Ends (o.within n) code r) (hs : r.stop = some stop) :
    ∃ k ip u input trace, m.Passes o code k ip u ∧
      stop.position? = some (min ip code.length) ∧ r.machine = { u with input, trace } := by
  obtain ⟨k, ip, u, hp, -, ⟨hl, rfl⟩ | ⟨-, hnone, rfl⟩⟩ := ends_within_iff.mp h
  · cases hs
    refine ⟨k, ip, u, u.input, u.trace, hp, ?_, rfl⟩
    rw [Nat.min_eq_left (by simpa using Nat.le_of_lt hl.2.1)]
    rfl
  · obtain ⟨input, trace, hc⟩ := conclude_unchanged hnone
    exact ⟨k, ip, u, input, trace, hp, by simpa using position?_conclude hnone hs, hc⟩

/-- **The law of the step budget.**  If the run without a budget comes to an instruction with at
least `n` counted, the run with the budget `n` stops at the first such place, with the machine as it
is there; if not, both runs end, and alike.  So the count of steps goes beyond neither the budget
nor what it was, a larger budget changes nothing for a run that did not spend its own, and a run
that is stopped leaves the machine as it was before the instruction, but for the source that the
instruction failed to read and the trace. -/
theorem run_budget (hn : n ≠ 0) (o : Options) (code : Bytes) (m : Machine) :
    ((∃ k ip u, m.Passes o code k ip u ∧ Exhausted n code.toArray ip u) →
      ∃ k ip u, m.Passes o code k ip u ∧ Exhausted n code.toArray ip u ∧
        (∀ j < k, ∀ ip' u', m.Passes o code j ip' u' → ¬ Exhausted n code.toArray ip' u') ∧
        m.Ends (o.within n) code ⟨u, (), some (.stepLimit u.steps ip)⟩) ∧
    ((∀ k ip u, m.Passes o code k ip u → ¬ Exhausted n code.toArray ip u) →
      ∃ r, m.Ends (o.within n) code r ∧ m.Ends (o.within 0) code r) ∧
    (∀ m', Relation.ReflTransGen
        (fun a b => ∃ text r, a.Ends (o.within n) text r ∧ r.machine = b) m m' →
      m'.steps.toNat ≤ max n.toNat m.steps.toNat) ∧
    (∀ n' r, n ≤ n' ∨ n' = 0 → m.Ends (o.within n) code r →
      (∀ steps ip, r.stop ≠ some (.stepLimit steps ip)) → m.Ends (o.within n') code r) ∧
    ∀ b r stop, m.Ends (o.within b) code r → r.stop = some stop →
      ∃ k ip u input trace, m.Passes o code k ip u ∧
        stop.position? = some (min ip code.length) ∧ r.machine = { u with input, trace } := by
  obtain ⟨r, hr⟩ := exists_ends hn o code m
  obtain ⟨k, ip, u, hp, ha, he⟩ := ends_within_iff.mp hr
  have ample : ∀ j < k, ∀ ip' u', m.Passes o code j ip' u' →
      ¬ Exhausted n code.toArray ip' u' := fun j hj _ _ hp' hx => ha j hj _ _ hp' ⟨hn, hx⟩
  refine ⟨fun hex => ?_, fun hno => ?_, fun m' hruns => ?_,
    fun n' r hle hr hs => hr.raise hn hs hle, fun b r stop hr hs => hr.unchanged hs⟩
  · rcases he with ⟨hl, rfl⟩ | ⟨hl, hnone, -⟩
    · exact ⟨k, ip, u, hp, hl.2, ample, hr⟩
    · -- no chain goes beyond the place where no step is left
      obtain ⟨k', ip', u', hp', hx⟩ := hex
      have hle : k' ≤ k := hp.le_of_stopped hnone hp'
      rcases Nat.lt_or_eq_of_le hle with hlt | rfl
      · exact absurd hx (ample k' hlt _ _ hp')
      · obtain ⟨rfl, rfl⟩ := hp.functional hp'
        exact absurd ⟨hn, hx⟩ hl
  · rcases he with ⟨hl, -⟩ | ⟨hl, hnone, rfl⟩
    · exact absurd hl.2 (hno k ip u hp)
    · exact ⟨_, hr, ends_within_iff.mpr ⟨k, ip, u, hp, fun _ _ _ _ _ h => h.1 rfl,
        .inr ⟨fun h => h.1 rfl, hnone, rfl⟩⟩⟩
  · induction hruns with
    | refl => exact Nat.le_max_right _ _
    | tail _ hrun ih =>
        obtain ⟨text, r, hr, rfl⟩ := hrun
        exact hr.steps_le hn |>.trans (max_le (Nat.le_max_left _ _) ih)

/-- A budget of one stops a text at its second instruction, not at the space before it.  The budget
is spent then, but white space still passes, as without a budget. -/
theorem run_budget_space : ∃ m r₁ r₂, Machine.new? 1 {} {} = some m ∧
    m.Ends (Options.within {} 1) (Bytes.ascii "+ +") r₁ ∧ r₁.stop = some (.stepLimit 1 2) ∧
    (∃ k ip u, m.Passes {} (Bytes.ascii "+ +") k ip u ∧ r₁.machine = u) ∧
    r₁.machine.steps.toNat ≤ max 1 0 ∧ r₁.machine.Ends (Options.within {} 1) (Bytes.ascii " ") r₂ ∧
    r₂.stop = none ∧ r₁.machine.Ends (Options.within {} 0) (Bytes.ascii " ") r₂ ∧
    r₁.machine.Ends (Options.within {} 7) (Bytes.ascii " ") r₂ := by
  obtain ⟨m, r₁, r₂, hm, hr₁, hs₁, hz, hr₂, hs₂, hex⟩ : ∃ m r₁ r₂,
      Machine.new? 1 {} {} = some m ∧ m.Ends (Options.within {} 1) (Bytes.ascii "+ +") r₁ ∧
      r₁.stop = some (.stepLimit 1 2) ∧ m.steps = 0 ∧
      r₁.machine.Ends (Options.within {} 1) (Bytes.ascii " ") r₂ ∧ r₂.stop = none ∧
      ∃ k ip u, m.Passes {} (Bytes.ascii "+ +") k ip u ∧
        Exhausted 1 (Bytes.ascii "+ +").toArray ip u :=
    ⟨_, _, _, rfl, ⟨4, rfl⟩, rfl, rfl, ⟨2, rfl⟩, rfl, 2, 2, _, .more rfl (.more rfl (.refl _ _)),
      by decide, by decide, by decide⟩
  obtain ⟨hfirst, -, hsteps, -⟩ :=
    run_budget (n := 1) (by decide) {} (Bytes.ascii "+ +") m
  obtain ⟨-, hall, -, hraise, -⟩ := run_budget (n := 1) (by decide) {} (Bytes.ascii " ") r₁.machine
  obtain ⟨k, ip, u, hp, -, -, he⟩ := hfirst hex
  have hu : r₁.machine = u := congrArg Finished.machine (ends_unique hr₁ he)
  have hle := hsteps r₁.machine (.single ⟨_, _, hr₁, rfl⟩)
  rw [hz] at hle
  -- the only byte is white space
  obtain ⟨r, h₁, h₀⟩ := hall fun k ip u _ ⟨hip, hs, _⟩ => by
    obtain rfl : ip = 0 := Nat.lt_one_iff.mp hip
    cases hs
  obtain rfl := ends_unique h₁ hr₂
  exact ⟨m, r₁, r, hm, hr₁, hs₁, ⟨k, ip, u, hp, hu⟩, hle, hr₂, hs₂, h₀,
    hraise 7 r (.inl (by decide)) hr₂ fun _ _ hs => by rw [hs₂] at hs; cases hs⟩

end Machine

end StackTape
