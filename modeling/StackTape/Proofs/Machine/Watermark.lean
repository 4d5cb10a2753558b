import StackTape.Proofs.Machine.Shows
import StackTape.Proofs.Machine.Turns

/-!
# The watermark

A machine keeps the largest index of a nonzero cell up to date without looking at the whole tape:
only when the topmost nonzero cell becomes zero does it search below (`Tape.lastNonzero`).

`Marked` is what every cell that is set keeps (`Marked.put`), and with it every instruction
(`kept_marked`), every run and every other call.  `Call` is one call of a machine's user;
`calls_marked` says that after any number of them the pointer is on the tape, the tape has as many
cells as at first, and the watermark is exact.
-/

namespace StackTape

/-! ### The search below a cell -/

namespace Tape

variable {t : Tape} {i j : Nat}

/-- Looking down from a cell, the last nonzero one is not above it. -/
theorem lastNonzero_le (t : Tape) (i : Nat) : t.lastNonzero i ≤ i := by
  induction i with
  | zero => exact Nat.le_refl 0
  | succ i ih =>
      rw [lastNonzero]
      split_ifs
      · exact ih.trans (Nat.le_succ i)
      · exact Nat.le_refl _

/-- No nonzero cell is missed. -/
theorem le_lastNonzero (hj : j ≤ i) (h : t.get j ≠ 0) : j ≤ t.lastNonzero i := by
  induction i with
  | zero => exact hj
  | succ i ih =>
      rw [lastNonzero]
      split_ifs with hz
      · refine ih (Nat.le_of_lt_succ (Nat.lt_of_le_of_ne hj ?_))
        rintro rfl
        exact h hz
      · exact hj

/-- The search ends at a nonzero cell or at the first one. -/
theorem get_lastNonzero (t : Tape) (i : Nat) :
    t.lastNonzero i = 0 ∨ t.get (t.lastNonzero i) ≠ 0 := by
  induction i with
  | zero => exact .inl rfl
  | succ i ih =>
      rw [lastNonzero]
      split_ifs with hz
      · exact ih
      · exact .inr hz

end Tape

namespace Machine

variable {σ : Type} {m m' : Machine} {text : Array UInt8} {i : Nat}

theorem cell_put (m : Machine) (i j : Nat) (v : UInt8) :
    (m.put i v).cell j = if j = i then v else m.cell j :=
  m.tape.get_set i j v

/-! ### What one call keeps -/

/-- The pointer and the watermark are on the tape, and the watermark is that of the cells. -/
structure Marked (m : Machine) : Prop where
  onTape : m.pointer < m.capacity
  farthest_lt : m.farthest < m.capacity
  le_farthest (i : Nat) (h : m.cell i ≠ 0) : i ≤ m.farthest
  farthest_cell : m.farthest = 0 ∨ m.cell m.farthest ≠ 0

namespace Marked

/-- **The watermark after a cell is set**: the cell is above it, or it was the topmost and became
zero, or nothing changes. -/
theorem put (h : m.Marked) (hi : i < m.capacity) (v : UInt8) : (m.put i v).Marked := by
  have hcell (j : Nat) := cell_put m i j v
  by_cases hv : v = 0
  · subst hv
    -- no cell but `i` has changed, and that one is zero
    have hold (j : Nat) (hj : (m.put i 0).cell j ≠ 0) : j ≤ m.farthest := by
      rw [hcell] at hj
      split_ifs at hj
      · exact absurd rfl hj
      · exact h.le_farthest j hj
    by_cases hf : i = m.farthest
    · have he : (m.put i 0).farthest = (m.put i 0).tape.lastNonzero i := by
        simp [Machine.put, hf]
      refine ⟨h.onTape, ?_, fun j hj => ?_, ?_⟩
      · rw [he]
        exact Nat.lt_of_le_of_lt (Tape.lastNonzero_le _ i) hi
      · rw [he]
        exact Tape.le_lastNonzero (hf ▸ hold j hj) hj
      · rw [he]
        exact Tape.get_lastNonzero _ i
    · have he : (m.put i 0).farthest = m.farthest := by
        simp [Machine.put, hf]
      refine ⟨h.onTape, he ▸ h.farthest_lt, fun j hj => he ▸ hold j hj, ?_⟩
      rw [he, hcell, if_neg (Ne.symm hf)]
      exact h.farthest_cell
  · have he : (m.put i v).farthest = max i m.farthest := by
      simp [Machine.put, hv]
    refine ⟨h.onTape, ?_, fun j hj => ?_, ?_⟩
    · rw [he]
      exact Nat.max_lt.mpr ⟨hi, h.farthest_lt⟩
    · rw [hcell] at hj
      rw [he]
      split_ifs at hj with hji
      · exact hji ▸ Nat.le_max_left ..
      · exact (h.le_farthest j hj).trans (Nat.le_max_right ..)
    · rw [he, hcell]
      split_ifs with hmax
      · exact .inr hv
      · -- the maximum is not `i`, so it is the old watermark
        have hm : max i m.farthest = m.farthest := by omega
        rw [hm]
        exact h.farthest_cell

/-- Nothing else matters. -/
theorem congr (h : m.Marked) (hc : m'.capacity = m.capacity) (hp : m'.pointer = m.pointer)
    (ht : m'.tape = m.tape) (hf : m'.farthest = m.farthest) : m'.Marked := by
  have hcell (i : Nat) : m'.cell i = m.cell i := by rw [cell, ht, cell]
  refine ⟨?_, ?_, fun i hi => ?_, ?_⟩
  · rw [hp, hc]
    exact h.onTape
  · rw [hf, hc]
    exact h.farthest_lt
  · rw [hf]
    exact h.le_farthest i (hcell i ▸ hi)
  · rw [hf, hcell]
    exact h.farthest_cell

theorem moved (h : m.Marked) {p : Nat} (hp : p < m.capacity) : Marked { m with pointer := p } :=
  { h with onTape := hp }

theorem zero {m : Machine} (hc : 0 < m.capacity) (hp : m.pointer = 0) (ht : m.tape = {})
    (hf : m.farthest = 0) : m.Marked := by
  have hz (i : Nat) : m.cell i = 0 := by
    rw [cell, ht]
    rfl
  exact ⟨hp ▸ hc, hf ▸ hc, fun i hi => absurd (hz i) hi, .inl hf⟩

/-- **The watermark is exact**: it is the largest index of a nonzero cell, or zero if there is
none. -/
theorem isGreatest (h : m.Marked) :
    IsGreatest {i | i < m.capacity ∧ m.cell i ≠ 0} m.farthest ∨
      m.farthest = 0 ∧ ∀ i < m.capacity, m.cell i = 0 := by
  by_cases hf : m.cell m.farthest = 0
  · refine .inr ⟨h.farthest_cell.resolve_right (not_not_intro hf), fun i _ => ?_⟩
    by_contra hi
    have hle := h.le_farthest i hi
    rw [h.farthest_cell.resolve_right (not_not_intro hf)] at hle hf
    obtain rfl := Nat.le_zero.mp hle
    exact hi hf
  · exact .inl ⟨⟨h.farthest_lt, hf⟩, fun i hi => h.le_farthest i hi.2⟩

end Marked

/-- **No instruction and no tracing breaks the marks**, and the capacity stays. -/
theorem kept_marked (text : Array UInt8) (n : Nat) :
    Kept text fun m => m.Marked ∧ m.capacity = n where
  executed {_ ip _ m m' _} h hm := by
    obtain ⟨hm, hn⟩ := hm
    have hskip : ((m.skip text ip).2.Marked) ∧ (m.skip text ip).2.capacity = n := by
      unfold skip
      split
      · exact ⟨hm, hn⟩
      · split
        · exact ⟨hm.congr rfl rfl rfl rfl, hn⟩
        · exact ⟨hm, hn⟩
    have hread (input : Source) (v : UInt8) : ({ m with input }.put m.pointer v).Marked := by
      have hi : Marked { m with input } := hm.congr rfl rfl rfl rfl
      exact hi.put hm.onTape v
    cases h with
    | right h => exact ⟨hm.moved h, hn⟩
    | left => exact ⟨hm.moved (Nat.lt_of_le_of_lt (Nat.sub_le ..) hm.onTape), hn⟩
    | up | down => exact ⟨hm.put hm.onTape _, hn⟩
    | pass | unclosed => exact hskip
    | read | ended => exact ⟨hread _ _, hn⟩
    | overflow | underflow | unopened | unwritten | unknown => exact ⟨hm, hn⟩
    | enter | back | write | unread => exact ⟨hm.congr rfl rfl rfl rfl, hn⟩
  alike {m m'} h hm := by
    obtain ⟨_, _, _, _, rfl⟩ := h
    exact ⟨hm.1.congr rfl rfl rfl rfl, hm.2⟩

/-! ### Any number of calls -/

/-- What a user does with a machine. -/
inductive Call : Machine → Machine → Prop where
  | run {m : Machine} {σ : Type} {o : Options} {hook : Hook σ} {fuel : Nat} {code : Bytes} {s : σ}
      {e : Finished σ} (h : m.run o hook fuel code s = some e) : Call m e.machine
  | seek {m m' : Machine} {p : Int64} (h : m.seek p = .ok m') : Call m m'
  | poke {m m' : Machine} {i : Int64} {v : UInt8} (h : m.poke? i v = some m') : Call m m'
  | reset (m : Machine) : Call m m.reset

/-- A client reaches cells of the tape only. -/
theorem index?_lt {j : Nat} {p : Int64} (h : m.index? p = some j) : j < m.capacity := by
  unfold index? at h
  split_ifs at h with hp
  cases h
  exact hp.2

/-- No call of a client breaks the marks, those that fail included. -/
theorem Call.marked (h : Call m m') (hm : m.Marked) : m'.Marked ∧ m'.capacity = m.capacity := by
  cases h with
  | @run _ _ _ _ code _ e h =>
      refine (kept_marked code.toArray m.capacity).run h ?_
      unfold load
      split_ifs
      · exact ⟨hm, rfl⟩
      · exact ⟨hm.congr rfl rfl rfl rfl, rfl⟩
  | seek h =>
      unfold Machine.seek at h
      split at h
      · next j hj =>
          cases h
          exact ⟨hm.moved (index?_lt hj), rfl⟩
      · cases h
  | poke h =>
      obtain ⟨j, hj, rfl⟩ := Option.map_eq_some_iff.mp h
      exact ⟨hm.put (index?_lt hj) _, rfl⟩
  | reset => exact ⟨.zero (Nat.zero_lt_of_lt hm.onTape) rfl rfl rfl, rfl⟩

theorem Marked.new {capacity : Int64} {input : Source} {output : Sink}
    (h : new? capacity input output = some m) : m.Marked := by
  have hc : 0 < m.capacity := Nat.zero_lt_of_lt (Sound.new h).onTape
  unfold new? at h
  dsimp only at h
  split_ifs at h <;> cases h <;> exact .zero hc rfl rfl rfl

/-- **The state of a machine after any calls**: the pointer is on the tape, the number of cells is
that of the new machine, and the watermark is the largest index of a nonzero cell, or zero if all
cells are zero. -/
theorem calls_marked {capacity : Int64} {input : Source} {output : Sink}
    (hnew : new? capacity input output = some m) (h : Relation.ReflTransGen Call m m') :
    m'.pointer < m'.capacity ∧ m'.capacity = m.capacity ∧
      (IsGreatest {i | i < m'.capacity ∧ m'.cell i ≠ 0} m'.farthest ∨
        m'.farthest = 0 ∧ ∀ i < m'.capacity, m'.cell i = 0) := by
  have hm : m'.Marked ∧ m'.capacity = m.capacity := by
    induction h with
    | refl => exact ⟨.new hnew, rfl⟩
    | tail _ hcall ih =>
        obtain ⟨hm, hc⟩ := hcall.marked ih.1
        exact ⟨hm, hc.trans ih.2⟩
  exact ⟨hm.1.onTape, hm.2, hm.1.isGreatest⟩

/-- Two cells are set, a run ends in a fault, and the upper cell is cleared again. -/
theorem calls_marked_fault : ∃ m m', Machine.new? 3 {} {} = some m ∧
    Relation.ReflTransGen Call m m' ∧ m'.capacity = 3 ∧
    IsGreatest {i | i < m'.capacity ∧ m'.cell i ≠ 0} 1 := by
  have hnew : Machine.new? 3 {} {} = some { capacity := 3 } := rfl
  obtain ⟨m₁, m₂, e, m₃, h₁, h₂, h₃, h₄, hf, hc⟩ : ∃ m₁ m₂ e m₃,
      Machine.poke? { capacity := 3 } 2 9 = some m₁ ∧ m₁.poke? 1 5 = some m₂ ∧
      m₂.run {} Hook.silent 5 (Bytes.ascii "<") () = some e ∧
      e.machine.poke? 2 0 = some m₃ ∧ m₃.farthest = 1 ∧ m₃.capacity = 3 :=
    ⟨_, _, _, _, rfl, rfl, rfl, rfl, rfl, rfl⟩
  have hcalls : Relation.ReflTransGen Call { capacity := 3 } m₃ :=
    .tail (.tail (.tail (.tail .refl (.poke h₁)) (.poke h₂)) (.run h₃)) (.poke h₄)
  rcases (calls_marked hnew hcalls).2.2 with h | ⟨h, -⟩
  · exact ⟨_, m₃, hnew, hcalls, hc, hf ▸ h⟩
  · rw [hf] at h
    cases h

end Machine

end StackTape
