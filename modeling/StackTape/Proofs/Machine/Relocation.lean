import StackTape.Proofs.Machine.Budget
import StackTape.Proofs.Machine.Loops

/-!
# A text inside another text

`Relocates text text' f`: every instruction of `text` stands in `text'` at its position sent along
`f`, and between two of them `text'` has nothing but white space, and no more of it than `text`.  A
machine in `text` and its counterpart in `text'` then do the same: one instruction
(`Executed.relocate`, `Executed.relocate_error`), one turn (`Relocates.turn`) and all of them
(`Relocates.visits`).  The counterpart differs in what it knows of its text only: its positions of
open loops are those of the other sent along `f` (`Machine.elsewhere`).

If `text'` ends where `text` does (`Covers`), the two runs end together (`Covers.ends`, and
`Covers.ends_of` for the other direction, where the run of `text` may have white space to pass
over that `text'` does not have).
-/

namespace StackTape

/-- The same stop with its position sent along `f`. -/
def Stop.relocate (f : Nat → Nat) : Stop → Stop
  | .fault e => .fault { e with ip := f e.ip }
  | .stepLimit steps ip => .stepLimit steps (f ip)
  | .outputFailed ip => .outputFailed (f ip)
  | .inputFailed ip => .inputFailed (f ip)
  | .aborted => .aborted

namespace Machine

/-- The machine in another text, which has its own trace and memory: the positions of the open loops
are sent along `f`. -/
def elsewhere (f : Nat → Nat) (code : Bytes) (trace : Array UInt8) (skips : Std.HashMap Nat Nat)
    (m : Machine) : Machine :=
  { m with loops := m.loops.map f, code, trace, skips }

variable {o : Options} {eof : EofMode} {text text' : Array UInt8} {f : Nat → Nat} {ip next : Nat}
  {c : UInt8} {m u : Machine} {code : Bytes} {trace : Array UInt8} {skips : Std.HashMap Nat Nat}

/-! ### One instruction -/

/-- **An instruction that goes on does the same elsewhere**, if the skip does. -/
theorem Executed.relocate (h : Executed eof text ip m c u (.ok next))
    (hip : f (ip + 1) = f ip + 1)
    (hskip : ∀ j, (m.skip text ip).1 = some j →
      ((m.elsewhere f code trace skips).skip text' (f ip)).1 = some (f j) ∧
        f (j + 1) = f j + 1) :
    ∃ skips', Executed eof text' (f ip) (m.elsewhere f code trace skips) c
      (u.elsewhere f code trace skips') (.ok (f next)) := by
  cases h with
  | right h => exact ⟨skips, hip ▸ .right h⟩
  | left h => exact ⟨skips, hip ▸ .left h⟩
  | up => exact ⟨skips, hip ▸ .up⟩
  | down => exact ⟨skips, hip ▸ .down⟩
  | enter h => exact ⟨skips, hip ▸ .enter h⟩
  | pass h hj =>
      obtain ⟨hj', hnext⟩ := hskip _ hj
      obtain ⟨_, hs⟩ := skip_snd m text ip
      obtain ⟨skips', hs'⟩ := skip_snd (m.elsewhere f code trace skips) text' (f ip)
      refine ⟨skips', ?_⟩
      have hpass : Executed eof text' (f ip) (m.elsewhere f code trace skips) _ _ _ := .pass h hj'
      rw [hs'] at hpass
      rw [hnext, hs]
      exact hpass
  | back h =>
      have hl : (m.elsewhere f code trace skips).loops = f next :: _ := congrArg (List.map f) h
      exact ⟨skips, .back hl⟩
  | write h => exact ⟨skips, hip ▸ .write h⟩
  | read h => exact ⟨skips, hip ▸ .read h⟩
  | ended h => exact ⟨skips, hip ▸ .ended h⟩

/-- **An instruction that stops does the same elsewhere**, if the skip does. -/
theorem Executed.relocate_error {stop : Stop} (h : Executed eof text ip m c u (.error stop))
    (hskip : (m.skip text ip).1 = none →
      ((m.elsewhere f code trace skips).skip text' (f ip)).1 = none) :
    ∃ skips', Executed eof text' (f ip) (m.elsewhere f code trace skips) c
      (u.elsewhere f code trace skips') (.error (stop.relocate f)) := by
  cases h with
  | overflow h => exact ⟨skips, .overflow h⟩
  | underflow h => exact ⟨skips, .underflow h⟩
  | unclosed h hj =>
      obtain ⟨_, hs⟩ := skip_snd m text ip
      obtain ⟨skips', hs'⟩ := skip_snd (m.elsewhere f code trace skips) text' (f ip)
      refine ⟨skips', ?_⟩
      have hunclosed : Executed eof text' (f ip) (m.elsewhere f code trace skips) _ _ _ :=
        .unclosed h (hskip hj)
      rw [hs'] at hunclosed
      rw [hs]
      exact hunclosed
  | unopened h => exact ⟨skips, .unopened (congrArg (List.map f) h)⟩
  | unwritten h => exact ⟨skips, .unwritten h⟩
  | unread h => exact ⟨skips, .unread h⟩
  | unknown h => exact ⟨skips, .unknown h⟩

/-! ### Positions -/

/-- The instructions of `text` stand in `text'` at their positions sent along `f`, with at most as
much white space between them. -/
structure Relocates (text text' : Array UInt8) (f : Nat → Nat) : Prop where
  instr {i : Nat} (hi : i < text.size) (hs : isSpace (text.getD i 0) = false) :
    f i < text'.size ∧ text'.getD (f i) 0 = text.getD i 0 ∧ f (i + 1) = f i + 1
  space {i : Nat} (hi : i < text.size) (hs : isSpace (text.getD i 0)) :
    f (i + 1) = f i ∨ f i < text'.size ∧ isSpace (text'.getD (f i) 0) ∧ f (i + 1) = f i + 1

/-- Moreover both texts end at the same place. -/
structure Covers (text text' : Array UInt8) (f : Nat → Nat) : Prop
    extends Relocates text text' f where
  size : f text.size = text'.size
  beyond {i : Nat} (hi : text.size ≤ i) : text'.size ≤ f i

theorem matchFrom_space {depth i : Nat} (hi : i < text.size) (hs : isSpace (text.getD i 0)) :
    matchFrom text depth i = matchFrom text depth (i + 1) := by
  have h₁ : text.getD i 0 ≠ 0x5B := fun h => by rw [h] at hs; exact absurd hs (by decide)
  have h₂ : text.getD i 0 ≠ 0x5D := fun h => by rw [h] at hs; exact absurd hs (by decide)
  rw [matchFrom_eq hi, if_neg h₁, if_neg h₂]

/-- A scan finds the same elsewhere, or comes to the end of its text. -/
theorem Relocates.matchFrom (h : Relocates text text' f) (depth i : Nat) :
    (∃ j, Machine.matchFrom text depth i = some j ∧
      Machine.matchFrom text' depth (f i) = some (f j)) ∨
    Machine.matchFrom text depth i = none ∧ ∃ depth' k, text.size ≤ k ∧
      Machine.matchFrom text' depth (f i) = Machine.matchFrom text' depth' (f k) := by
  induction hd : text.size - i generalizing depth i with
  | zero =>
      refine .inr ⟨?_, depth, i, by omega, rfl⟩
      rw [matchFrom.eq_def, dif_neg (by omega)]
  | succ d ih =>
      have hi : i < text.size := by omega
      have ih (depth : Nat) := ih depth (i + 1) (by omega)
      by_cases hs : isSpace (text.getD i 0)
      · rw [matchFrom_space hi hs]
        rcases h.space hi hs with hf | ⟨hi', hs', hf⟩
        · exact hf ▸ ih depth
        · rw [matchFrom_space hi' hs', ← hf]
          exact ih depth
      · obtain ⟨hi', hc, hf⟩ := h.instr hi (by simpa using hs)
        rw [matchFrom_eq hi, matchFrom_eq hi', hc, ← hf]
        by_cases h₁ : text.getD i 0 = 0x5B
        · simp only [if_pos h₁]
          exact ih (depth + 1)
        by_cases h₂ : text.getD i 0 = 0x5D
        · simp only [if_neg h₁, if_pos h₂]
          cases depth with
          | zero => exact .inl ⟨i, rfl, rfl⟩
          | succ depth => exact ih depth
        · simp only [if_neg h₁, if_neg h₂]
          exact ih depth

/-- The end of a loop is found at its place elsewhere. -/
theorem Relocates.matchFrom_some (h : Relocates text text' f) {depth i j : Nat}
    (hj : Machine.matchFrom text depth i = some j) :
    Machine.matchFrom text' depth (f i) = some (f j) ∧ f (j + 1) = f j + 1 := by
  obtain ⟨seg, hh, rfl, -⟩ := level_of_matchFrom hj
  obtain ⟨-, hclose⟩ := holds_append_iff.mp hh
  obtain ⟨⟨hlt, hc⟩, -⟩ := holds_cons_iff.mp hclose
  refine ⟨?_, (h.instr hlt (by rw [hc]; decide)).2.2⟩
  rcases h.matchFrom depth i with ⟨j, hj', hf⟩ | ⟨hnone, -⟩
  · rw [hj] at hj'
    cases hj'
    exact hf
  · rw [hj] at hnone
    cases hnone

/-- A loop without an end has none elsewhere. -/
theorem Covers.matchFrom_none (h : Covers text text' f) {depth i : Nat}
    (hn : Machine.matchFrom text depth i = none) : Machine.matchFrom text' depth (f i) = none := by
  rcases h.matchFrom depth i with ⟨j, hj, -⟩ | ⟨-, depth', k, hk, he⟩
  · rw [hn] at hj
    cases hj
  · rw [he, matchFrom.eq_def, dif_neg (Nat.not_lt.mpr (h.beyond hk))]

/-! ### One turn -/

/-- The same place of two runs: the machines remember their texts rightly and differ in nothing
else but the positions. -/
structure Counterpart (text text' : Array UInt8) (f : Nat → Nat) (p p' : Point Unit) : Prop where
  position : p'.ip = f p.ip
  machine : ∃ code trace skips, p'.machine = p.machine.elsewhere f code trace skips
  fst : Remembers text p.machine
  snd : Remembers text' p'.machine

/-- The same end of two runs. -/
structure Relocated (f : Nat → Nat) (r r' : Finished Unit) : Prop where
  stop : r'.stop = r.stop.map (Stop.relocate f)
  machine : ∃ code trace skips, r'.machine = r.machine.elsewhere f code trace skips

theorem advance_of_executed (hip : ip < text.size) (hs : isSpace (text.getD ip 0) = false)
    (h : Executed o.eof text ip (m.traceAt o m.code ip) (text.getD ip 0) u (.ok next)) :
    advance o text ip m = some (next, u.tick) := by
  rw [advance, if_pos hip, hs, h.exec_eq]
  rfl

theorem conclude_of_executed {stop : Stop} (hip : ip < text.size)
    (hs : isSpace (text.getD ip 0) = false)
    (h : Executed o.eof text ip (m.traceAt o m.code ip) (text.getD ip 0) u (.error stop)) :
    advance o text ip m = none ∧ conclude o text ip m = ⟨u, (), some stop⟩ := by
  rw [advance, conclude, if_pos hip, if_pos hip, hs, h.exec_eq]
  exact ⟨rfl, rfl⟩

/-- Behind the text only the trace changes. -/
theorem conclude_beyond (hip : text.size ≤ ip) :
    advance o text ip m = none ∧ ∃ trace, conclude o text ip m =
      ⟨{ m with trace }, (), match m.loops with
        | [] => none
        | _ :: _ => some (m.faultAt .unbalancedLoop text.size 0)⟩ := by
  rw [advance, conclude, if_neg (Nat.not_lt.mpr hip), if_neg (Nat.not_lt.mpr hip)]
  refine ⟨rfl, ?_⟩
  obtain ⟨trace, ht⟩ := traceAt_eq o m.code text.size m
  refine ⟨trace, ?_⟩
  rw [finish, ht]
  cases hl : m.loops <;> rfl

theorem remembers_advance {q : Nat} (ha : advance o text ip m = some (q, u))
    (hm : Remembers text m) : Remembers text u := by
  obtain ⟨-, ⟨-, -, rfl⟩ | ⟨-, u, he, rfl⟩⟩ := advance_eq_some ha
  · exact hm
  · have k := kept_remembers text
    have hu := k.executed he (k.alike (.traceAt o m.code ip m) hm)
    exact k.alike ⟨_, _, _, _, rfl⟩ hu

section

variable {p q p' q' : Point Unit} {r r' : Finished Unit}

/-- Where an instruction is next, one is next elsewhere, and the budgets stop both or none. -/
theorem Counterpart.atLimit_iff (hc : Counterpart text text' f p p') (h : Relocates text text' f)
    (hip : p.ip < text.size) (hs : isSpace (text.getD p.ip 0) = false) :
    AtLimit o text' p'.ip p'.machine ↔ AtLimit o text p.ip p.machine := by
  obtain ⟨hip', hbyte, -⟩ := h.instr hip hs
  obtain ⟨code, trace, skips, hm⟩ := hc.machine
  have hsteps : p'.machine.steps = p.machine.steps := by rw [hm]; rfl
  rw [AtLimit, AtLimit, Exhausted, Exhausted, hc.position, hbyte, hsteps]
  simp only [hip, hip', true_and]

/-- Tracing does not tell the machines apart. -/
theorem Counterpart.traced (hc : Counterpart text text' f p p') (o : Options) :
    ∃ v v', p.machine.traceAt o p.machine.code p.ip = v ∧
      p'.machine.traceAt o p'.machine.code p'.ip = v' ∧
      (∃ code trace skips, v' = v.elsewhere f code trace skips) ∧
      Remembers text v ∧ Remembers text' v' := by
  obtain ⟨-, ⟨code, trace, skips, hm⟩, hfst, hsnd⟩ := hc
  obtain ⟨t, ht⟩ := traceAt_eq o p.machine.code p.ip p.machine
  obtain ⟨t', ht'⟩ := traceAt_eq o p'.machine.code p'.ip p'.machine
  refine ⟨_, _, ht, ht', ⟨code, t', skips, ?_⟩, hfst, hsnd⟩
  rw [hm]
  rfl

/-- **A turn that goes on** goes on elsewhere, or is white space that is not there. -/
theorem Counterpart.turn (hc : Counterpart text text' f p p') (h : Relocates text text' f)
    (ht : Machine.turn o Hook.silent text p = .ok q) :
    (p.ip < text.size ∧ q.ip = p.ip + 1 ∧ Counterpart text text' f q p') ∨
      ∃ q', Machine.turn o Hook.silent text' p' = .ok q' ∧ Counterpart text text' f q q' := by
  obtain ⟨hl, ha⟩ := turn_ok_iff.mp ht
  have hq := remembers_advance ha hc.fst
  obtain ⟨hip, ⟨hs, hnext, hsame⟩ | ⟨hs, u, he, hu⟩⟩ := advance_eq_some ha
  · have hmachine := hsame ▸ hc.machine
    rcases h.space hip hs with hf | ⟨hip', hs', hf⟩
    · refine .inl ⟨hip, hnext, ?_, hmachine, hq, hc.snd⟩
      rw [hc.position, hnext, hf]
    · rw [← hc.position] at hip' hs'
      refine .inr ⟨⟨p'.ip + 1, (), p'.machine⟩, turn_ok_iff.mpr ⟨?_, ?_⟩, ?_, hmachine, hq, hc.snd⟩
      · rintro ⟨-, -, hsolid, -⟩
        rw [hs'] at hsolid
        cases hsolid
      · rw [advance, if_pos hip', if_pos hs']
      · show p'.ip + 1 = f q.ip
        rw [hc.position, hnext, hf]
  · obtain ⟨hip', hbyte, hf⟩ := h.instr hip hs
    obtain ⟨v, v', hv, hv', ⟨code, trace, skips, rfl⟩, hr, hr'⟩ := hc.traced o
    rw [hv] at he
    obtain ⟨skips', he'⟩ := he.relocate hf fun j hj => by
      rw [hr.skip] at hj
      rw [hr'.skip, ← hf]
      exact h.matchFrom_some hj
    rw [← hv', ← hbyte, ← hc.position] at he'
    rw [← hc.position] at hip' hbyte
    have ha' := advance_of_executed hip' (by rw [hbyte, hs]) he'
    refine .inr ⟨⟨f q.ip, (), _⟩, turn_ok_iff.mpr ⟨fun hl' => hl ?_, ha'⟩, rfl,
      ⟨code, trace, skips', ?_⟩, hq, remembers_advance ha' hc.snd⟩
    · exact (hc.atLimit_iff h hip hs).mp hl'
    · rw [hu]
      rfl

/-- **A turn that ends the run** ends it elsewhere. -/
theorem Counterpart.turn_error (hc : Counterpart text text' f p p') (h : Covers text text' f)
    (ht : Machine.turn o Hook.silent text p = .error r) :
    ∃ r', Machine.turn o Hook.silent text' p' = .error r' ∧ Relocated f r r' := by
  rcases turn_error_iff.mp ht with ⟨hl, rfl⟩ | ⟨hl, ha, rfl⟩
  · have hl' := (hc.atLimit_iff h.toRelocates hl.2.1 hl.2.2.1).mpr hl
    obtain ⟨code, trace, skips, hm⟩ := hc.machine
    refine ⟨_, turn_error_iff.mpr (.inl ⟨hl', rfl⟩), ?_, code, trace, skips, hm⟩
    rw [hc.position, hm]
    rfl
  rcases advance_eq_none ha with hip | ⟨hip, hs, u, stop, he, hend⟩
  · obtain ⟨code, trace, skips, hm⟩ := hc.machine
    have hip' : text'.size ≤ p'.ip := hc.position ▸ h.beyond hip
    obtain ⟨-, t, ht⟩ := conclude_beyond (o := o) (m := p.machine) hip
    obtain ⟨hn, t', ht'⟩ := conclude_beyond (o := o) (m := p'.machine) hip'
    have hl' : ¬ AtLimit o text' p'.ip p'.machine := fun h => Nat.not_lt.mpr hip' h.2.1
    refine ⟨_, turn_error_iff.mpr (.inr ⟨hl', hn, rfl⟩), ?_⟩
    rw [ht, ht', hm, ← h.size]
    refine ⟨?_, code, t', skips, rfl⟩
    show (match p.machine.loops.map f with | [] => none | _ :: _ => _) = _
    cases p.machine.loops <;> rfl
  · obtain ⟨hip', hbyte, hf⟩ := h.instr hip hs
    obtain ⟨v, v', hv, hv', ⟨code, trace, skips, rfl⟩, hr, hr'⟩ := hc.traced o
    rw [hv] at he
    obtain ⟨skips', he'⟩ := he.relocate_error fun hj => by
      rw [hr.skip] at hj
      rw [hr'.skip, ← hf]
      exact h.matchFrom_none hj
    rw [← hv', ← hbyte, ← hc.position] at he'
    rw [← hc.position] at hip' hbyte
    obtain ⟨hn, hend'⟩ := conclude_of_executed hip' (by rw [hbyte, hs]) he'
    have hl' := fun hl' => hl ((hc.atLimit_iff h.toRelocates hip hs).mp hl')
    refine ⟨_, turn_error_iff.mpr (.inr ⟨hl', hn, rfl⟩), ?_⟩
    rw [hend, hend']
    exact ⟨rfl, code, trace, skips', rfl⟩

/-! ### Whole runs -/

theorem Visits.trans {s : Point Unit} (h : Visits o Hook.silent text p q)
    (h' : Visits o Hook.silent text q s) : Visits o Hook.silent text p s := by
  induction h with
  | refl => exact h'
  | more ht _ ih => exact .more ht (ih h')

/-- A run that ends goes on to its end from every point that it visits. -/
theorem Visits.cancel {s : Point Unit} (h : Visits o Hook.silent text p q)
    (h' : Visits o Hook.silent text p s) (hs : Machine.turn o Hook.silent text s = .error r) :
    Visits o Hook.silent text q s := by
  induction h with
  | refl => exact h'
  | more ht _ ih =>
      cases h' with
      | refl =>
          rw [ht] at hs
          cases hs
      | more ht' hv =>
          rw [ht] at ht'
          cases ht'
          exact ih hv

/-- **What a run visits**, its counterpart visits elsewhere. -/
theorem Counterpart.visits (hc : Counterpart text text' f p p') (h : Relocates text text' f)
    (hv : Visits o Hook.silent text p q) :
    ∃ q', Visits o Hook.silent text' p' q' ∧ Counterpart text text' f q q' := by
  induction hv generalizing p' with
  | refl => exact ⟨p', .refl _, hc⟩
  | more ht _ ih =>
      rcases hc.turn h ht with ⟨-, -, hc'⟩ | ⟨q', ht', hc'⟩
      · exact ih hc'
      · obtain ⟨s', hv', hs'⟩ := ih hc'
        exact ⟨s', .more ht' hv', hs'⟩

/-- **A run that ends** ends elsewhere. -/
theorem Counterpart.ends (hc : Counterpart text text' f p p') (h : Covers text text' f)
    (hv : Visits o Hook.silent text p q) (ht : Machine.turn o Hook.silent text q = .error r) :
    ∃ q' r', Visits o Hook.silent text' p' q' ∧
      Machine.turn o Hook.silent text' q' = .error r' ∧ Relocated f r r' := by
  obtain ⟨q', hv', hq⟩ := hc.visits h.toRelocates hv
  obtain ⟨r', ht', hr⟩ := hq.turn_error h ht
  exact ⟨q', r', hv', ht', hr⟩

/-- Behind some white space that is not there both take a turn, and alike. -/
theorem Counterpart.settles {p : Point Unit} (hc : Counterpart text text' f p p')
    (h : Covers text text' f) (o : Options) :
    ∃ s, Visits o Hook.silent text p s ∧
      ((∃ r r', Machine.turn o Hook.silent text s = .error r ∧
          Machine.turn o Hook.silent text' p' = .error r' ∧ Relocated f r r') ∨
        ∃ q q', Machine.turn o Hook.silent text s = .ok q ∧
          Machine.turn o Hook.silent text' p' = .ok q' ∧ Counterpart text text' f q q') := by
  cases ht : Machine.turn o Hook.silent text p with
  | error r =>
      obtain ⟨r', ht', hr⟩ := hc.turn_error h ht
      exact ⟨p, .refl _, .inl ⟨r, r', ht, ht', hr⟩⟩
  | ok q =>
      rcases hc.turn h.toRelocates ht with ⟨hip, hnext, hc'⟩ | ⟨q', ht', hq⟩
      · have hless : text.size - q.ip < text.size - p.ip := by omega
        obtain ⟨s, hv, hs⟩ := hc'.settles h o
        exact ⟨s, .more ht hv, hs⟩
      · exact ⟨p, .refl _, .inr ⟨q, q', ht, ht', hq⟩⟩
termination_by text.size - p.ip

/-- **A run that ends elsewhere** ends here. -/
theorem Counterpart.ends_of (hc : Counterpart text text' f p p') (h : Covers text text' f)
    (hv : Visits o Hook.silent text' p' q') (ht : Machine.turn o Hook.silent text' q' = .error r') :
    ∃ q r, Visits o Hook.silent text p q ∧ Machine.turn o Hook.silent text q = .error r ∧
      Relocated f r r' := by
  induction hv generalizing p with
  | refl =>
      obtain ⟨s, hs, ⟨r, _, hr, hr', hrel⟩ | ⟨_, _, _, hq', _⟩⟩ := hc.settles h o
      · rw [ht] at hr'
        cases hr'
        exact ⟨s, r, hs, hr, hrel⟩
      · rw [ht] at hq'
        cases hq'
  | more hnext _ ih =>
      obtain ⟨s, hs, ⟨_, _, _, hr', _⟩ | ⟨q, _, hq, hq', hc'⟩⟩ := hc.settles h o
      · rw [hnext] at hr'
        cases hr'
      · rw [hnext] at hq'
        cases hq'
        obtain ⟨z, r, hz, hr, hrel⟩ := ih hc' ht
        exact ⟨z, r, hs.trans (.more hq hz), hr, hrel⟩

end

theorem load_eq (code : Bytes) (m : Machine) : ∃ skips, m.load code = { m with code, skips } := by
  unfold load
  split_ifs with h
  · exact ⟨m.skips, h ▸ rfl⟩
  · exact ⟨{}, rfl⟩

theorem Sound.remembers_load (hm : m.Sound) (code : Bytes) :
    Remembers code.toArray (m.load code) := by
  obtain ⟨hload, hcode⟩ := hm.load code
  have hr := hload.remembers
  rwa [hcode] at hr

/-- The start of two runs of a machine without open loops. -/
theorem counterpart_start (hm : m.Sound) (hl : m.loops = []) (code code' : Bytes) (hf : f 0 = 0) :
    Counterpart code.toArray code'.toArray f (m.start code ()) (m.start code' ()) := by
  obtain ⟨_, h⟩ := load_eq code m
  obtain ⟨skips, h'⟩ := load_eq code' m
  refine ⟨hf.symm, ⟨code', m.trace, skips, ?_⟩, hm.remembers_load code, hm.remembers_load code'⟩
  show m.load code' = (m.load code).elsewhere f code' m.trace skips
  rw [h, h', elsewhere, hl]
  rfl

end Machine

end StackTape
