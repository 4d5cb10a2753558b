import StackTape.Proofs.Machine.Whole

/-!
# Walks on the tape

`Walks size x seg y`: the text `seg`, started with the pointer at `x`, keeps it on a tape of `size`
cells whatever the cells hold, and ends at `y`.  The body of a loop has to come back to where it
started, so where the pointer stands depends on the position in the text alone.

`Walks.staysOnTape`: a run of such a text never leaves the tape.  A run need not end, so the proof
is by the number of steps: for every `n`, either the machine has come to the end of the piece
within `n` steps, or none of the first `n` steps leaves the tape (`Walks.guarded`).
-/

namespace StackTape

/-- The text keeps the pointer on the tape. -/
inductive Walks (size : Nat) : Int → Bytes → Int → Prop where
  | nil (x : Int) : Walks size x [] x
  | right {x y : Int} {rest : Bytes} (h : x + 1 < size) (t : Walks size (x + 1) rest y) :
      Walks size x (0x3E :: rest) y
  | left {x y : Int} {rest : Bytes} (h : 0 < x) (t : Walks size (x - 1) rest y) :
      Walks size x (0x3C :: rest) y
  | still {x y : Int} {c : UInt8} {rest : Bytes} (h : c ∉ [0x3E, 0x3C, 0x5B, 0x5D])
      (t : Walks size x rest y) : Walks size x (c :: rest) y
  | loop {x y : Int} {body rest : Bytes} (b : Walks size x body x) (t : Walks size x rest y) :
      Walks size x (0x5B :: (body ++ 0x5D :: rest)) y

namespace Walks

variable {size : Nat} {x y z : Int} {s t : Bytes}

theorem append (hs : Walks size x s y) (ht : Walks size y t z) : Walks size x (s ++ t) z := by
  induction hs with
  | nil => exact ht
  | right h _ ih => exact .right h (ih ht)
  | left h _ ih => exact .left h (ih ht)
  | still h _ ih => exact .still h (ih ht)
  | @loop x y body rest b _ _ ih =>
      have e : 0x5B :: (body ++ 0x5D :: rest) ++ t = 0x5B :: (body ++ 0x5D :: (rest ++ t)) := by
        simp
      rw [e]
      exact .loop b (ih ht)

theorem enclose (h : Walks size x s x) : Walks size x (0x5B :: (s ++ [0x5D])) x :=
  .loop h (.nil x)

theorem balanced (h : Walks size x s y) : Balanced s := by
  induction h with
  | nil => exact .nil
  | right _ _ ih => exact .instr (by decide) (by decide) ih
  | left _ _ ih => exact .instr (by decide) (by decide) ih
  | still h _ ih =>
      simp only [List.mem_cons, not_or] at h
      exact .instr h.2.2.1 h.2.2.2.1 ih
  | loop _ _ ihb iht => exact .loop ihb iht

end Walks

namespace Machine

/-- The pointer stands at `x` of a tape of `size` cells, and what is remembered is right. -/
structure Stands (text : Array UInt8) (size : Nat) (m : Machine) (x : Int) : Prop where
  size : m.capacity = size
  pointer : (m.pointer : Int) = x
  remembers : Remembers text m

namespace Stands

variable {o : Options} {text : Array UInt8} {size ip : Nat} {m : Machine} {x : Int} {c : UInt8}

theorem traceAt (h : Stands text size m x) (o : Options) (code : Bytes) (ip : Nat) :
    Stands text size (m.traceAt o code ip) x := by
  unfold Machine.traceAt
  split_ifs
  · exact ⟨h.size, h.pointer, h.remembers⟩
  · exact h

/-- An instruction that neither moves nor jumps. -/
theorem exec_still (h : Stands text size m x) (eof : EofMode)
    (hc : c ∉ [0x3E, 0x3C, 0x5B, 0x5D]) :
    (∃ m', exec eof text ip c m = (m', .ok (ip + 1)) ∧ Stands text size m' x ∧
      m'.loops = m.loops) ∨
    ∃ m' stop, exec eof text ip c m = (m', .error stop) ∧ stop.leavesTape = false := by
  simp only [List.mem_cons, List.not_mem_nil, or_false, not_or] at hc
  obtain ⟨h₁, h₂, h₃, h₄⟩ := hc
  unfold exec
  simp only [h₁, h₂, h₃, h₄, if_false]
  by_cases h₅ : c = 0x2B
  · rw [if_pos h₅]
    exact .inl ⟨_, rfl, ⟨h.size, h.pointer, h.remembers⟩, rfl⟩
  rw [if_neg h₅]
  by_cases h₆ : c = 0x2D
  · rw [if_pos h₆]
    exact .inl ⟨_, rfl, ⟨h.size, h.pointer, h.remembers⟩, rfl⟩
  rw [if_neg h₆]
  by_cases h₇ : c = 0x2E
  · rw [if_pos h₇]
    cases m.output.write m.current with
    | some output => exact .inl ⟨_, rfl, ⟨h.size, h.pointer, h.remembers⟩, rfl⟩
    | none => exact .inr ⟨_, _, rfl, rfl⟩
  rw [if_neg h₇]
  by_cases h₈ : c = 0x2C
  · rw [if_pos h₈]
    rcases m.input.read with ⟨_ | _ | _, _⟩
    · exact .inl ⟨_, rfl, ⟨h.size, h.pointer, h.remembers⟩, rfl⟩
    · exact .inl ⟨_, rfl, ⟨h.size, h.pointer, h.remembers⟩, rfl⟩
    · exact .inr ⟨_, _, rfl, rfl⟩
  · rw [if_neg h₈]
    exact .inr ⟨_, _, rfl, rfl⟩

/-- Tracing and counting around an instruction move nothing. -/
theorem advance_of_exec (h : Stands text size m x) (hip : ip < text.size)
    (hc : text.getD ip 0 = c) (hs : isSpace c = false) {next : Nat} {loops : List Nat} {y : Int}
    (he : ∀ u : Machine, Stands text size u x → u.loops = m.loops →
      ∃ m', exec o.eof text ip c u = (m', .ok next) ∧ Stands text size m' y ∧ m'.loops = loops) :
    ∃ m', advance o text ip m = some (next, m') ∧ Stands text size m' y ∧ m'.loops = loops := by
  obtain ⟨m', he, hm, hl⟩ := he _ (h.traceAt o m.code ip) (Shows.loops_traceAt ..)
  refine ⟨m'.tick, ?_, ⟨hm.size, hm.pointer, hm.remembers⟩, hl⟩
  rw [Shows.advance_eq hip hc hs, he]

theorem still (h : Stands text size m x) (hip : ip < text.size) (hc : text.getD ip 0 = c)
    (hstill : c ∉ [0x3E, 0x3C, 0x5B, 0x5D]) :
    (∃ m', advance o text ip m = some (ip + 1, m') ∧ Stands text size m' x ∧
      m'.loops = m.loops) ∨ advance o text ip m = none ∧ ¬ Leaves o text ip m := by
  by_cases hs : isSpace c
  · refine .inl ⟨m, ?_, h, rfl⟩
    rw [advance, if_pos hip, hc, hs]
    rfl
  rw [Bool.not_eq_true] at hs
  rcases (h.traceAt o m.code ip).exec_still o.eof hstill with
      ⟨m', he, hm, hl⟩ | ⟨m', stop, he, hstop⟩
  · refine .inl ⟨m'.tick, ?_, ⟨hm.size, hm.pointer, hm.remembers⟩,
      hl.trans (Shows.loops_traceAt ..)⟩
    rw [Shows.advance_eq hip hc hs, he]
  · refine .inr ⟨by rw [Shows.advance_eq hip hc hs, he], ?_⟩
    rintro ⟨-, stop', hs', hl⟩
    rw [conclude, if_pos hip, hc, he] at hs'
    cases hs'
    rw [hstop] at hl
    cases hl

theorem right (h : Stands text size m x) (hip : ip < text.size) (hc : text.getD ip 0 = 0x3E)
    (hx : x + 1 < size) :
    ∃ m', advance o text ip m = some (ip + 1, m') ∧ Stands text size m' (x + 1) ∧
      m'.loops = m.loops := by
  refine h.advance_of_exec hip hc (by decide) fun u hu hl => ?_
  have hp : u.pointer + 1 < u.capacity := by
    have := hu.pointer
    rw [hu.size]
    omega
  have hadd : ((u.pointer + 1 : Nat) : Int) = x + 1 := by rw [← hu.pointer, Nat.cast_add_one]
  exact ⟨{ u with pointer := u.pointer + 1 }, by simp [exec, hp],
    ⟨hu.size, hadd, hu.remembers⟩, hl⟩

theorem left (h : Stands text size m x) (hip : ip < text.size) (hc : text.getD ip 0 = 0x3C)
    (hx : 0 < x) :
    ∃ m', advance o text ip m = some (ip + 1, m') ∧ Stands text size m' (x - 1) ∧
      m'.loops = m.loops := by
  refine h.advance_of_exec hip hc (by decide) fun u hu hl => ?_
  have hp := hu.pointer
  have hz : u.pointer ≠ 0 := by omega
  have hsub : ((u.pointer - 1 : Nat) : Int) = x - 1 := by omega
  exact ⟨{ u with pointer := u.pointer - 1 }, by simp [exec, hz],
    ⟨hu.size, hsub, hu.remembers⟩, hl⟩

/-- A `[` is entered or passed over. -/
theorem bracket (h : Stands text size m x) {body : Bytes} (hb : Balanced body)
    (hs : Holds text ip (0x5B :: (body ++ [0x5D]))) :
    (∃ m', advance o text ip m = some (ip + 1, m') ∧ Stands text size m' x ∧
      m'.loops = ip :: m.loops) ∨
    ∃ m', advance o text ip m = some (ip + 1 + body.length + 1, m') ∧ Stands text size m' x ∧
      m'.loops = m.loops := by
  obtain ⟨⟨hip, hc⟩, -⟩ := holds_cons_iff.mp hs
  have hu := h.traceAt o m.code ip
  have hl : (m.traceAt o m.code ip).loops = m.loops := Shows.loops_traceAt ..
  rw [Shows.advance_eq hip hc (by decide)]
  generalize m.traceAt o m.code ip = u at hu hl
  by_cases hz : u.current = 0
  · have hj := hu.remembers.skip ip
    obtain ⟨skips, hskip, hrem⟩ := hu.remembers.skip_snd ip
    rw [matchFrom_loop hb hs] at hj
    have he : exec o.eof text ip 0x5B u = ({ u with skips }, .ok (ip + 1 + body.length + 1)) := by
      rw [← hskip]
      generalize hsk : u.skip text ip = e at hj
      obtain ⟨j, m₁⟩ := e
      cases hj
      simp [exec, hz, hsk]
    refine .inr ⟨tick { u with skips }, by rw [he], ⟨hu.size, hu.pointer, hrem⟩, hl⟩
  · have he : exec o.eof text ip 0x5B u = ({ u with loops := ip :: u.loops }, .ok (ip + 1)) := by
      simp [exec, hz]
    exact .inl ⟨tick { u with loops := ip :: u.loops }, by rw [he],
      ⟨hu.size, hu.pointer, hu.remembers⟩, congrArg _ hl⟩

theorem close (h : Stands text size m x) (hip : ip < text.size) (hc : text.getD ip 0 = 0x5D)
    {top : Nat} {rest : List Nat} (hl : m.loops = top :: rest) :
    ∃ m', advance o text ip m = some (top, m') ∧ Stands text size m' x ∧ m'.loops = rest := by
  refine h.advance_of_exec hip hc (by decide) fun u hu hu' => ?_
  refine ⟨{ u with loops := rest }, ?_, ⟨hu.size, hu.pointer, hu.remembers⟩, rfl⟩
  simp [exec, hu', hl]

end Stands

/-! ### So many steps -/

section

variable {o : Options} {text : Array UInt8} {size n ip ip₁ target : Nat} {m m₁ : Machine}
  {x y z : Int}

/-- None of the first `n` steps leaves the tape. -/
def SafeFor (o : Options) (text : Array UInt8) (n ip : Nat) (m : Machine) : Prop :=
  ∀ k ≤ n, ∀ ip' m', Steps o text k ip m ip' m' → ¬ Leaves o text ip' m'

/-- Within `n` steps the machine comes to `target` with the pointer at `y`, or none of the first
`n` steps leaves the tape. -/
def Guarded (o : Options) (text : Array UInt8) (size n ip : Nat) (m : Machine) (target : Nat)
    (y : Int) : Prop :=
  (∃ k ≤ n, ∃ m', Steps o text k ip m target m' ∧ Stands text size m' y ∧ m'.loops = m.loops) ∨
    SafeFor o text n ip m

theorem not_leaves_of_advance (h : advance o text ip m = some (ip₁, m₁)) :
    ¬ Leaves o text ip m := by
  rintro ⟨hn, -⟩
  rw [h] at hn
  cases hn

theorem SafeFor.zero (ha : advance o text ip m = some (ip₁, m₁)) : SafeFor o text 0 ip m := by
  intro k hk ip' m' hs
  obtain rfl := Nat.le_zero.mp hk
  cases hs
  exact not_leaves_of_advance ha

theorem SafeFor.stopped (hn : advance o text ip m = none) (hl : ¬ Leaves o text ip m) (n : Nat) :
    SafeFor o text n ip m := by
  intro k _ ip' m' hs
  cases hs with
  | refl => exact hl
  | more h _ => rw [hn] at h; cases h

/-- Safe steps behind a chain of steps. -/
theorem SafeFor.prepend {k : Nat} (hs : Steps o text k ip m ip₁ m₁)
    (h : SafeFor o text n ip₁ m₁) : SafeFor o text (k + n) ip m := by
  induction hs with
  | refl => rwa [Nat.zero_add]
  | more ha _ ih =>
      intro j hj ip' m' hs'
      cases hs' with
      | refl => exact not_leaves_of_advance ha
      | more ha' t =>
          rw [ha] at ha'
          cases ha'
          exact ih h _ (by omega) _ _ t

/-- Going on after some steps. -/
theorem Guarded.prepend {k : Nat} (hs : Steps o text k ip m ip₁ m₁) (hl : m₁.loops = m.loops)
    (h : Guarded o text size n ip₁ m₁ target y) : Guarded o text size (k + n) ip m target y := by
  rcases h with ⟨j, hj, m', ht, hm, hl'⟩ | h
  · exact .inl ⟨k + j, by omega, m', hs.trans ht, hm, hl'.trans hl⟩
  · exact .inr (.prepend hs h)

/-- Going on after one step, for any number of steps. -/
theorem Guarded.step (ha : advance o text ip m = some (ip₁, m₁)) (hl : m₁.loops = m.loops)
    (h : ∀ n, Guarded o text size n ip₁ m₁ target y) (n : Nat) :
    Guarded o text size n ip m target y := by
  cases n with
  | zero => exact .inr (.zero ha)
  | succ n =>
      rw [Nat.add_comm]
      exact (h n).prepend (.one ha) hl

/-- One piece after another. -/
theorem Guarded.trans (h : Guarded o text size n ip m ip₁ y)
    (h' : ∀ n m₁, Stands text size m₁ y → m₁.loops = m.loops →
      Guarded o text size n ip₁ m₁ target z) : Guarded o text size n ip m target z := by
  rcases h with ⟨k, hk, m₁, hs, hm, hl⟩ | h
  · obtain ⟨j, rfl⟩ := Nat.exists_eq_add_of_le hk
    exact (h' j m₁ hm hl).prepend hs hl
  · exact .inr h

/-- A loop whose body comes back to where it started. -/
theorem guarded_loop {body : Bytes} (hb : Balanced body)
    (hh : Holds text ip (0x5B :: (body ++ [0x5D])))
    (hbody : ∀ n m, Stands text size m x →
      Guarded o text size n (ip + 1) m (ip + 1 + body.length) x)
    (n : Nat) (m : Machine) (hm : Stands text size m x) :
    Guarded o text size n ip m (ip + 1 + body.length + 1) x := by
  induction n using Nat.strong_induction_on generalizing m with
  | _ n ih =>
      rcases hm.bracket (o := o) hb hh with ⟨m₁, ha, hm₁, hl₁⟩ | ⟨m₁, ha, hm₁, hl₁⟩
      swap
      · exact .step ha hl₁ (fun n => .inl ⟨0, Nat.zero_le n, m₁, .refl _ _, hm₁, rfl⟩) n
      cases n with
      | zero => exact .inr (.zero ha)
      | succ n =>
          rcases hbody n m₁ hm₁ with ⟨k, hk, m₂, hs, hm₂, hl₂⟩ | hsafe
          swap
          · have := hsafe.prepend (.one ha)
            rw [Nat.add_comm] at this
            exact .inr this
          obtain ⟨-, hrest⟩ := holds_cons_iff.mp hh
          obtain ⟨-, hend⟩ := holds_append_iff.mp hrest
          obtain ⟨⟨hj, hd⟩, -⟩ := holds_cons_iff.mp hend
          obtain ⟨m₃, hc, hm₃, hl₃⟩ := hm₂.close (o := o) hj hd (hl₂.trans hl₁)
          -- a round took `k + 2` steps; what is left of `n + 1` is for the next rounds
          by_cases hlt : k + 1 ≤ n
          · have hnext := ih (n - (k + 1)) (by omega) m₃ hm₃
            have := hnext.prepend (.more ha (hs.trans (.one hc))) hl₃
            rwa [show k + 1 + 1 + (n - (k + 1)) = n + 1 by omega] at this
          · obtain rfl : k = n := by omega
            exact .inr (SafeFor.prepend (n := 0) (.more ha hs) (.zero hc))

end

end Machine

namespace Walks

open Machine

variable {o : Options} {text : Array UInt8} {size ip : Nat} {m : Machine} {x y : Int}
  {seg code : Bytes}

/-- **The pointer of a walk is guarded** for any number of steps. -/
theorem guarded (hw : Walks size x seg y) (hh : Holds text ip seg) (hm : Stands text size m x)
    (n : Nat) : Guarded o text size n ip m (ip + seg.length) y := by
  induction hw generalizing ip m n with
  | nil => exact .inl ⟨0, Nat.zero_le n, m, .refl _ _, hm, rfl⟩
  | right hx _ ih =>
      obtain ⟨⟨hip, hc⟩, hrest⟩ := holds_cons_iff.mp hh
      obtain ⟨m₁, ha, hm₁, hl⟩ := hm.right (o := o) hip hc hx
      rw [List.length_cons, Nat.add_comm _ 1, ← Nat.add_assoc]
      exact .step ha hl (fun n => ih hrest hm₁ n) n
  | left hx _ ih =>
      obtain ⟨⟨hip, hc⟩, hrest⟩ := holds_cons_iff.mp hh
      obtain ⟨m₁, ha, hm₁, hl⟩ := hm.left (o := o) hip hc hx
      rw [List.length_cons, Nat.add_comm _ 1, ← Nat.add_assoc]
      exact .step ha hl (fun n => ih hrest hm₁ n) n
  | still hc _ ih =>
      obtain ⟨⟨hip, he⟩, hrest⟩ := holds_cons_iff.mp hh
      rw [List.length_cons, Nat.add_comm _ 1, ← Nat.add_assoc]
      rcases hm.still (o := o) hip he hc with ⟨m₁, ha, hm₁, hl⟩ | ⟨hn, hl⟩
      · exact .step ha hl (fun n => ih hrest hm₁ n) n
      · exact .inr (.stopped hn hl n)
  | @loop x y body rest hb _ ihb iht =>
      have e : 0x5B :: (body ++ 0x5D :: rest) = 0x5B :: (body ++ [0x5D]) ++ rest := by simp
      rw [e, holds_append_iff] at hh
      obtain ⟨hloop, hrest⟩ := hh
      have hbody := (holds_append_iff.mp (holds_cons_iff.mp hloop).2).1
      have hlen : ip + (0x5B :: (body ++ [0x5D])).length = ip + 1 + body.length + 1 := by
        simp only [List.length_cons, List.length_append, List.length_nil]
        omega
      rw [hlen] at hrest
      rw [e, List.length_append, ← Nat.add_assoc, hlen]
      exact (guarded_loop hb.balanced hloop (fun n m hm => ihb hbody hm n) n m hm).trans
        fun n m₁ hm₁ _ => iht hrest hm₁ n

/-- **A run of a walk stays on the tape.** -/
theorem staysOnTape (hw : Walks m.capacity m.pointer code y) (hm : m.Sound)
    (ho : o.maxSteps = 0) : m.StaysOnTape o code := by
  intro r stop hr hstop
  obtain ⟨n, ip, m', hs, hn, rfl⟩ := (ends_iff ho).mp hr
  obtain ⟨hl, hc⟩ := hm.load code
  have hp : Stands code.toArray m.capacity (m.load code) m.pointer := by
    have hrem := hl.remembers
    rw [hc] at hrem
    refine ⟨?_, ?_, hrem⟩
    · unfold Machine.load
      split_ifs <;> rfl
    · unfold Machine.load
      split_ifs <;> rfl
  rw [← Bool.not_eq_true]
  intro hleave
  rcases hw.guarded (o := o) (holds_whole code) hp n with ⟨k, hk, m₁, hs₁, -, -⟩ | hsafe
  · -- at the end of the text there is no further step
    rw [Nat.zero_add] at hs₁
    have hend : advance o code.toArray code.length m₁ = none := by
      rw [advance, if_neg (by simp)]
    obtain rfl : n = k := Nat.le_antisymm (hs₁.le_of_stopped hend hs) hk
    obtain ⟨rfl, rfl⟩ := hs.functional hs₁
    rw [conclude, if_neg (by simp), finish] at hstop
    dsimp only at hstop
    split at hstop
    · cases hstop
    · cases hstop
      cases hleave
  · exact hsafe n (Nat.le_refl n) ip m' hs ⟨hn, stop, hstop, hleave⟩

end Walks

end StackTape
