import StackTape.Compile
import StackTape.Proofs.Expansion.Walk

/-!
# Runs of expanded operations

`generate_meaning`: the text of validated operations, run by any machine, ends as the operations
mean to, and goes on for ever if they do.  `staysOnTape_of_fits` is how a run is known to stay on
the tape.
-/

namespace StackTape

open Machine MacroOp

/-- An output that is known by one of its parts. -/
theorem exists_ok_of_map_eq_some {α β ε : Type} {x : Except ε α} {f : α → β} {b : β}
    (h : x.toOption.map f = some b) : ∃ a, x = .ok a ∧ f a = b := by
  cases x with
  | error e => cases h
  | ok a => exact ⟨a, rfl, Option.some.inj h⟩

/-- What is generated is the text of the trees, and can be held. -/
theorem MacroOp.generate_eq_ok {ops : List MacroOp} {nodes : List Node} {code : Bytes}
    (h : MacroOp.generate ops = .ok (nodes, code)) :
    expandAll ops = .ok nodes ∧ code = Node.flattenAll nodes ∧
      (code.length : Int) ≤ longestText.toInt := by
  unfold MacroOp.generate at h
  cases hx : expandAll ops with
  | error e =>
      rw [hx] at h
      cases h
  | ok ns =>
      rw [hx] at h
      change (joined (Node.flattenAll ns) >>= fun text => pure (ns, text)) = .ok (nodes, code) at h
      rcases joined_cases (Node.flattenAll ns) with ⟨hj, hlen⟩ | ⟨hj, -⟩ <;> rw [hj] at h
      · cases h
        exact ⟨rfl, rfl, hlen⟩
      · cases h

/-- Generation fails as the expansion does, or because the text is too long. -/
theorem MacroOp.generate_eq_error {ops : List MacroOp} {e : ExpandError}
    (h : MacroOp.generate ops = .error e) :
    expandAll ops = .error e ∨ ∃ count, e = .overlong count := by
  unfold MacroOp.generate at h
  cases hx : expandAll ops with
  | error e' =>
      rw [hx] at h
      cases h
      exact .inl rfl
  | ok ns =>
      rw [hx] at h
      change (joined (Node.flattenAll ns) >>= fun text => pure (ns, text)) = .error e at h
      rcases joined_cases (Node.flattenAll ns) with ⟨hj, -⟩ | ⟨hj, -⟩ <;> rw [hj] at h <;> cases h
      exact .inr ⟨_, rfl⟩

theorem Output.generate_eq_ok {ops : List MacroOp} {extent : Int64} {out : Output}
    (h : Output.generate ops extent = .ok out) :
    out.extent = extent ∧
      ∃ nodes, expandAll ops = .ok nodes ∧ out.code = Node.flattenAll nodes := by
  unfold Output.generate at h
  split at h
  · cases h
  · next nodes code hx =>
      cases h
      obtain ⟨hn, hc, -⟩ := MacroOp.generate_eq_ok hx
      exact ⟨rfl, nodes, hn, hc⟩

/-- Proper operations are refused only for the length of their text. -/
theorem Output.generate_ne_refused {ops : List MacroOp} (hp : ProperAll ops) (extent : Int64)
    (op : MacroOp) (fault : ExpandFault) :
    Output.generate ops extent ≠ .error (.expansion (.refused op fault)) := by
  have hw : Writes .unchanged 0 Node.flattenAll (meaningAll .unchanged 0 ops) (expandAll ops) :=
    writes_expandAll hp
  intro h
  unfold Output.generate at h
  split at h
  · next e hx =>
      cases h
      rcases MacroOp.generate_eq_error hx with he | ⟨count, he⟩
      · rw [he] at hw
        exact hw
      · cases he
  · cases h

/-- The text of proper operations performs their meaning. -/
theorem Output.performs_of_generate {ops : List MacroOp} (hp : ProperAll ops) {extent : Int64}
    {out : Output} (h : Output.generate ops extent = .ok out) (eof : EofMode) (fuel : Nat) :
    Performs eof fuel out.code (meaningAll eof fuel ops) := by
  obtain ⟨-, nodes, hx, hc⟩ := Output.generate_eq_ok h
  have hw : Writes eof fuel Node.flattenAll (meaningAll eof fuel ops) (expandAll ops) :=
    writes_expandAll hp
  rw [hx] at hw
  rw [hc]
  exact hw

/-- The text of operations that fit stays on the tape. -/
theorem Output.staysOnTape_of_fits {ops : List MacroOp} {m : Machine} (hm : m.Sound)
    (h : FitsAll m.capacity m.pointer 0 ops) {o : Options} (ho : o.maxSteps = 0) {extent : Int64}
    {out : Output} (he : Output.generate ops extent = .ok out) : m.StaysOnTape o out.code := by
  obtain ⟨-, nodes, hx, hc⟩ := Output.generate_eq_ok he
  have hp : On m.capacity m.pointer := ⟨Int.natCast_nonneg _, by exact_mod_cast hm.onTape⟩
  rw [hc]
  exact (walks_expandAll hm.possible hp h hx).staysOnTape hm ho

/-- **The text of validated operations does what they mean.**  It is refused for no operation, only
for a text that is too long to be held.  On any machine without open loops whose devices do not
fail, if the pointer stays on the tape and every precondition holds where it is reached, the run
ends just when the meaning is done, and then with the cells, the pointer, the input and the output
of the meaning; whatever fuel the meaning runs out of, the run goes on for at least as many steps,
and reads and writes the same. -/
theorem Output.generate_meaning {ops : List MacroOp} (hv : validateAll ops = .ok ())
    (hp : plainAll ops) {m : Machine} (hm : Reachable m) (hl : m.loops = [])
    (hi : m.input.allowance = none) (hk : m.output.Tireless) {o : Options} (ho : o.maxSteps = 0)
    (extent : Int64) :
    (∀ op fault, Output.generate ops extent ≠ .error (.expansion (.refused op fault))) ∧
    ∀ out, Output.generate ops extent = .ok out → m.StaysOnTape o out.code →
      (∀ fuel, meaningAll o.eof fuel ops m.view ≠ .stuck) →
      ((∃ r, m.Ends o out.code r) ↔ ∃ fuel u, meaningAll o.eof fuel ops m.view = .done u) ∧
      (∀ r fuel u, m.Ends o out.code r → meaningAll o.eof fuel ops m.view = .done u →
        Halted (setting o out.code m) r u) ∧
      ∀ fuel u, meaningAll o.eof fuel ops m.view = .more u →
        ∃ n ip m', fuel ≤ n ∧ Steps o out.code.toArray n 0 (m.load out.code) ip m' ∧
          m'.input.remaining = u.input ∧ m'.output = m.output.after u.output := by
  have hprop := properAll_of_validateAll hv hp
  refine ⟨Output.generate_ne_refused hprop extent, fun out h hs hstuck => ?_⟩
  have hperf := Output.performs_of_generate hprop h o.eof
  refine ⟨Performs.ends_iff_done hperf ho hm.sound hl hi hk hs hstuck, fun r fuel u hr hu => ?_,
    fun fuel u hu => ?_⟩
  · obtain ⟨r', hr', hh⟩ := (hperf fuel).ends ho hm.sound hl hi hk hs hu
    rwa [hr.unique ho hr']
  · have hr := (hperf fuel).whole ho hm.sound hi hk hs
    rw [hu] at hr
    exact hr

/-- Three is counted up, copied by way of the cell after the next, and written. -/
theorem Output.generate_meaning_copy :
    ∃ m out r, Reachable m ∧
      Output.generate [.add 0 3, .copy 1 0 2, .literal [0x2E] 0] 3 = .ok out ∧
      m.Ends {} out.code r ∧ r.stop = none ∧ r.machine.output.written = #[3] := by
  have hm : Reachable { capacity := 4 } := .new (show Machine.new? 4 {} {} = some _ from rfl)
  have hv : validateAll [.add 0 3, .copy 1 0 2, .literal [0x2E] 0] = .ok () := by
    simp [validateAll, firstFault?, fault?, ownFault, distinct, firstRepeat, isTapeByte]
  have hmean : ∀ (v : View), v.get 2 = 0 → ∀ fuel,
      meaningAll .unchanged fuel [.add 0 3, .copy 1 0 2, .literal [0x2E] 0] v =
        .done (((v.plus 0 3).plus 1 (v.get 0 + 3)).emit) := by
    intro v hz fuel
    have h₁ : UInt8.ofInt 3 = 3 := by decide
    simp [meaningAll, meaning, h₁, hz, View.get_plus, View.bytes, isBracket]
  have hfits : FitsAll 4 0 0 [.add 0 3, .copy 1 0 2, .literal [0x2E] 0] := by
    simp [FitsAll, Fits, used, On, moved]
  have hok : (Output.generate [.add 0 3, .copy 1 0 2, .literal [0x2E] 0] 3).toOption.isSome := by
    decide +kernel
  obtain ⟨-, hrun⟩ := Output.generate_meaning hv (by decide) hm rfl rfl (.inr rfl) (o := {}) rfl 3
  cases hg : Output.generate [.add 0 3, .copy 1 0 2, .literal [0x2E] 0] 3 with
  | error e => rw [hg] at hok; cases hok
  | ok out =>
      have hz : (Machine.view { capacity := 4 }).get 2 = 0 := by rfl
      have hu := hmean _ hz
      obtain ⟨hends, hhalt, -⟩ := hrun out hg (Output.staysOnTape_of_fits hm.sound hfits rfl hg)
        fun fuel => by
          rw [hu fuel]
          intro h
          cases h
      obtain ⟨r, hr⟩ := hends.mpr ⟨0, _, hu 0⟩
      have hh := hhalt r 0 _ hr (hu 0)
      refine ⟨_, out, r, hm, rfl, hr, hh.stop, ?_⟩
      have h₀ : (Machine.view { capacity := 4 }).get 0 = 0 := by rfl
      have hout : (Machine.view { capacity := 4 }).output = [] := rfl
      rw [hh.shows.output]
      simp [Sink.after, setting, View.emit, View.get_plus, h₀, hout]

end StackTape
