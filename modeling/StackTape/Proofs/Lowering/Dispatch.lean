import StackTape.Proofs.Lowering.Block

/-!
# The dispatcher

`Dispatched` is what lowering the blocks of a list of labels gives: for every block a test of the
number that is set, and the operations of the block behind it.  One pass over the blocks runs at
least the block whose number is set, and perhaps some that it goes on at (`Dispatched.pass`).  The
loop of passes goes on until the number is 0, so it is done just when the program has halted, and
else it runs at least one block a round (`Dispatched.rounds`).
-/

namespace StackTape

/-! ### Runs of a program -/

namespace Program

variable {p : Program} {eof : EofMode} {σ₀ : Store}

theorem after_succ {n : Nat} {c : Option Bytes × Store} (h : p.after eof σ₀ n = some c) :
    p.after eof σ₀ (n + 1) = p.advance eof c := by
  rw [after, h, Option.bind_some]

/-- A program that has halted stays so. -/
theorem after_of_halted {n : Nat} {σ : Store} (h : p.after eof σ₀ n = some (none, σ)) (k : Nat) :
    p.after eof σ₀ (n + k) = some (none, σ) := by
  induction k with
  | zero => exact h
  | succ k ih => rw [← Nat.add_assoc, after_succ ih, advance]

/-- A program halts in one state. -/
theorem halted_unique {n n' : Nat} {σ σ' : Store} (h : p.after eof σ₀ n = some (none, σ))
    (h' : p.after eof σ₀ n' = some (none, σ')) : σ = σ' := by
  have h₁ := after_of_halted h n'
  rw [Nat.add_comm, after_of_halted h' n] at h₁
  exact (Prod.mk.inj (Option.some.inj h₁)).2.symm

end Program

namespace Lowering

open MacroOp

/-! ### Numbers of blocks -/

/-- Different labels have different numbers that a byte tells apart from 0. -/
structure Numbering (numbers : Numbers) : Prop where
  positive : ∀ {label n}, numbers label = some n → 1 ≤ n
  small : ∀ {label n}, numbers label = some n → n ≤ 255
  inj : ∀ {label label' n}, numbers label = some n → numbers label' = some n → label = label'

theorem numberIn_eq_some {order : List Bytes} {label : Bytes} {n : Nat}
    (h : numberIn order label = some n) : 1 ≤ n ∧ order[n - 1]? = some label := by
  obtain ⟨⟨l, k⟩, hf, rfl⟩ := Option.map_eq_some_iff.mp h
  have hm := List.mem_reverse.mp (List.mem_of_find?_eq_some hf)
  obtain rfl : l = label := by simpa using List.find?_some hf
  exact List.mk_mem_zipIdx_iff_le_and_getElem?_sub.mp hm

theorem numberIn_isSome {order : List Bytes} {label : Bytes} :
    (numberIn order label).isSome ↔ label ∈ order := by
  rw [numberIn, Option.isSome_map, List.find?_isSome]
  constructor
  · rintro ⟨⟨l, k⟩, hm, hl⟩
    obtain rfl : l = label := by simpa using hl
    exact List.fst_mem_of_mem_zipIdx (List.mem_reverse.mp hm)
  · intro hm
    obtain ⟨k, hk⟩ := List.getElem?_of_mem hm
    refine ⟨(label, k + 1), List.mem_reverse.mpr ?_, by simp⟩
    rw [List.mk_mem_zipIdx_iff_le_and_getElem?_sub]
    exact ⟨Nat.le_add_left 1 k, hk⟩

theorem numbering_numberIn {order : List Bytes} (h : order.length ≤ 255) :
    Numbering (numberIn order) where
  positive hn := (numberIn_eq_some hn).1
  small hn := by
    obtain ⟨h₁, h₂⟩ := numberIn_eq_some hn
    have := (List.getElem?_eq_some_iff.mp h₂).1
    omega
  inj hn hn' :=
    Option.some.inj ((numberIn_eq_some hn).2.symm.trans (numberIn_eq_some hn').2)

/-- The entry is the first block. -/
theorem numberIn_entry (p : Program) : numberIn (dispatchOrder p) p.entry = some 1 := by
  obtain ⟨n, hn⟩ := Option.isSome_iff_exists.mp
    (numberIn_isSome.mpr (show p.entry ∈ dispatchOrder p from List.mem_cons_self))
  obtain ⟨h₁, h₂⟩ := numberIn_eq_some hn
  obtain rfl | ⟨k, rfl⟩ : n = 1 ∨ ∃ k, n = k + 1 + 1 := by
    rcases Nat.lt_or_ge 1 n with h | h
    · exact .inr ⟨n - 2, by omega⟩
    · exact .inl (by omega)
  · exact hn
  · have hm := List.mem_of_getElem? (show (p.order.filter _)[k]? = some p.entry from h₂)
    simp at hm

variable {numbers : Numbers}

theorem tag_eq {label : Bytes} {n : Nat} (h : numbers label = some n) :
    tag numbers (some label) = UInt8.ofNat n := by
  rw [tag, Option.bind_some, h, Option.getD_some]

/-- Numbers of blocks are told apart by their bytes. -/
theorem Numbering.tag_inj (hn : Numbering numbers) {label label' : Bytes} {n n' : Nat}
    (h : numbers label = some n) (h' : numbers label' = some n')
    (he : tag numbers (some label) = UInt8.ofNat n') : label = label' := by
  rw [tag_eq h] at he
  have hs := hn.small h
  have hs' := hn.small h'
  have := congrArg UInt8.toNat he
  rw [UInt8.toNat_ofNat_of_lt' (by simp [UInt8.size]; omega),
    UInt8.toNat_ofNat_of_lt' (by simp [UInt8.size]; omega)] at this
  subst this
  exact hn.inj h h'

/-- The number 0 halts, and no other. -/
theorem Numbering.tag_eq_zero_iff (hn : Numbering numbers) {goes : Option Bytes}
    (hg : ∀ label, goes = some label → (numbers label).isSome) :
    tag numbers goes = 0 ↔ goes = none := by
  cases goes with
  | none => simp [tag]
  | some label =>
      obtain ⟨n, h⟩ := Option.isSome_iff_exists.mp (hg label rfl)
      have hp := hn.positive h
      have hs := hn.small h
      rw [tag_eq h]
      refine ⟨fun he => ?_, by simp⟩
      have := congrArg UInt8.toNat he
      rw [UInt8.toNat_ofNat_of_lt' (by simp [UInt8.size]; omega)] at this
      simp at this
      omega

/-- The number that is set names a block. -/
theorem Numbering.of_tag_eq (hn : Numbering numbers) {goes : Option Bytes}
    (hg : ∀ label, goes = some label → (numbers label).isSome) {label : Bytes} {n : Nat}
    (hl : numbers label = some n) (h : tag numbers goes = UInt8.ofNat n) : goes = some label := by
  obtain ⟨label', rfl⟩ : ∃ label', goes = some label' := by
    rw [← Option.ne_none_iff_exists', ne_eq, ← hn.tag_eq_zero_iff hg, h, ← tag_eq hl,
      hn.tag_eq_zero_iff fun _ he => Option.some.inj he ▸ Option.isSome_iff_exists.mpr ⟨n, hl⟩]
    exact Option.some_ne_none label
  obtain ⟨n', hn'⟩ := Option.isSome_iff_exists.mp (hg label' rfl)
  rw [hn.tag_inj hn' hl h]

/-! ### One block behind its test -/

variable {s s' : Lowering} {ops : List MacroOp} {L : Layout} {σ : Store} {v : View}

theorem byte_neg (a : Int64) : UInt8.ofInt (-a).toInt = -UInt8.ofInt a.toInt := by
  have h : ((-a.toInt).bmod (2 ^ 64) % 2 ^ 8).toNat = (-a.toInt % 2 ^ 8).toNat := by
    rw [Int.bmod_def]
    split_ifs <;> omega
  rw [Int64.toInt_neg, ← UInt8.ofInt_neg, UInt8.ofInt, UInt8.ofInt, h]

/-- A body is run if the number that is set is `n`. -/
theorem meaningAll_select (eof : EofMode) (fuel : Nat) {sel next work : Int64}
    (hn : [sel, next, work].Nodup) (hs : v.get sel = 0) (hw : v.get work = 0) (n : Nat)
    (body : List MacroOp) :
    meaningAll eof fuel [.copy sel next work, .add sel (-Int64.ofNat n),
        .isZero work sel false [], .cond work body] v =
      if v.get next = UInt8.ofNat n then
        (meaningAll eof fuel body (v.put work 1)).bind fun v => .done (v.put work 0)
      else .done v := by
  simp only [List.nodup_cons, List.mem_cons, List.not_mem_nil, not_or] at hn
  have hz : v.get sel + v.get next + -UInt8.ofNat n = 0 ↔ v.get next = UInt8.ofNat n := by
    rw [hs, UInt8.zero_add]
    grind
  have hset : meaningAll eof fuel [.copy sel next work, .add sel (-Int64.ofNat n),
      .isZero work sel false []] v =
      .done (v.put work (View.bit (v.get next = UInt8.ofNat n))) := by
    simp only [meaningAll, meaning, hw, if_true, View.test, Ending.bind_done,
      Ending.done.injEq, byte_neg, ofInt_toInt_ofNat]
    refine View.ext_get rfl rfl rfl fun d => ?_
    simp only [View.get_put, View.get_plus]
    grind
  have happ := meaningAll_append eof fuel [.copy sel next work, .add sel (-Int64.ofNat n),
    .isZero work sel false []] [.cond work body] v
  rw [hset, Ending.bind_done] at happ
  refine happ.trans ?_
  rw [meaningAll, meaning, View.get_put_self]
  by_cases h : v.get next = UInt8.ofNat n
  · simp only [h, View.bit, decide_true, if_true]
    rw [if_neg (by decide)]
    exact Ending.bind_pure _
  · simp only [h, View.bit, decide_false, if_false, Bool.false_eq_true, if_true]
    rw [← hw, View.put_get]
    rfl

/-- The tape pictures the program after `k` blocks, none of which has halted, and the number of
the block that it goes on at is set. -/
structure Tracks (p : Program) (eof : EofMode) (σ₀ : Store) (numbers : Numbers) (L : Layout)
    (s : Lowering) (k : Nat) (goes : Option Bytes) (v : View) : Prop where
  state : ∃ σ, p.after eof σ₀ k = some (goes, σ) ∧
    L.Pictures (L.control (tag numbers goes) 0) s σ v
  known : ∀ label, goes = some label → (numbers label).isSome
  running : ∀ j < k, ∀ σ, p.after eof σ₀ j ≠ some (none, σ)

variable {p : Program} {eof : EofMode} {σ₀ : Store} {k : Nat} {goes : Option Bytes}

theorem Tracks.of_depth (h : Tracks p eof σ₀ numbers L s k goes v) (hd : s'.depth = s.depth) :
    Tracks p eof σ₀ numbers L s' k goes v := by
  obtain ⟨⟨σ, ha, hp⟩, hk, hr⟩ := h
  exact ⟨⟨σ, ha, pictures_of_depth hp hd⟩, hk, hr⟩

/-- The cells of the dispatcher are told apart. -/
theorem nodup_control (d : Int64) : [selectorDepth - d, nextDepth - d, workDepth - d].Nodup := by
  have h : [selectorDepth, nextDepth, workDepth].Nodup := by decide
  exact h.map (f := (· - d)) fun a b he => by grind

/-- The number that is set. -/
theorem Tracks.get_next (h : Tracks p eof σ₀ numbers L s k goes v) (ht : s.Tame) (hL : L.Of s) :
    v.get (nextDepth - s.depth) = tag numbers goes := by
  obtain ⟨⟨σ, -, hp⟩, -, -⟩ := h
  rw [get_below ht hL hp (by decide) (by decide), Layout.control_next]

/-- The cells that a test is made with are clear. -/
theorem Tracks.get_clear (h : Tracks p eof σ₀ numbers L s k goes v) (ht : s.Tame) (hL : L.Of s) :
    v.get (selectorDepth - s.depth) = 0 ∧ v.get (workDepth - s.depth) = 0 := by
  obtain ⟨⟨σ, -, hp⟩, -, -⟩ := h
  rw [get_below ht hL hp (by decide) (by decide), get_below ht hL hp (by decide) (by decide),
    Layout.control_selector, Layout.control_work]
  exact ⟨rfl, rfl⟩

/-- **One block behind its test**: it is run if its number is set, and else passed over. -/
theorem Tracks.select (h : Tracks p eof σ₀ numbers L s k goes v) (hn : Numbering numbers)
    {label : Bytes} {b : Block} (hb : p.block? label = some b) {n : Nat}
    (hl : numbers label = some n) {body : List MacroOp} (hw : Blocked numbers b s body s')
    (hd : s'.depth = s.depth) (ht : s.Tame) (hh : s'.high.toInt + 4 < 2 ^ 63) (hL : L.Of s)
    (fuel : Nat) :
    ∃ j goes' v', meaningAll eof fuel (select s.depth (Int64.ofNat n) body) v = .done v' ∧
      Tracks p eof σ₀ numbers L s' (k + j) goes' v' ∧ (goes = some label → 1 ≤ j) := by
  have hnext := h.get_next ht hL
  obtain ⟨hsel, hwork⟩ := h.get_clear ht hL
  obtain ⟨⟨σ, ha, hp⟩, hk, hr⟩ := h
  have hm := meaningAll_select eof fuel (nodup_control s.depth) hsel hwork n body
  rw [hnext] at hm
  by_cases he : tag numbers goes = UInt8.ofNat n
  · obtain rfl := hn.of_tag_eq hk hl he
    rw [if_pos he] at hm
    -- the block runs with the work cell set, which is cleared behind it
    have hp₁ := put_below ht hL hp (d := workDepth) (by decide) (by decide) 1
    rw [L.update_control_work] at hp₁
    obtain ⟨goes', σ', v', hσ, hv, hp', hk'⟩ := hw.meaning ht hh hL hp₁ eof fuel
    have hp₂ := put_below (hw.tame ht hh) (hL.same hw.same) hp' (d := workDepth) (by decide)
      (by decide) 0
    rw [L.update_control_work, hd] at hp₂
    refine ⟨1, goes', v'.put (workDepth - s.depth) 0, ?_, ⟨⟨σ', ?_, hp₂⟩, hk', ?_⟩,
      fun _ => le_rfl⟩
    · refine hm.trans ?_
      rw [hv, Ending.bind_done]
    · rw [Program.after_succ ha, Program.advance, hb, Option.bind_some, hσ]
    · intro j hj τ hτ
      rcases Nat.lt_succ_iff_lt_or_eq.mp hj with hj | rfl
      · exact hr j hj τ hτ
      · rw [ha] at hτ
        cases hτ
  · rw [if_neg he] at hm
    refine ⟨0, goes, v, hm, ⟨⟨σ, ha, pictures_of_depth hp hd⟩, hk, hr⟩, ?_⟩
    rintro rfl
    exact absurd (tag_eq hl) he

/-! ### All blocks -/

/-- What lowering the blocks of a list of labels gives.  Every block leaves the cursor where it
was. -/
inductive Dispatched (p : Program) (numbers : Numbers) :
    Lowering → List Bytes → List MacroOp → Lowering → Prop where
  | nil (s : Lowering) : Dispatched p numbers s [] [] s
  | cons {s s₁ s' : Lowering} {label : Bytes} {rest : List Bytes} {b : Block} {n : Nat}
      {body more : List MacroOp} (hb : p.block? label = some b) (hn : numbers label = some n)
      (h : Blocked numbers b s body s₁) (hd : s₁.depth = s.depth)
      (t : Dispatched p numbers s₁ rest more s') :
      Dispatched p numbers s (label :: rest) (select s.depth (Int64.ofNat n) body ++ more) s'

theorem Dispatched.of_dispatch {labels : List Bytes} (hf : s.framed)
    (hn : ∀ label ∈ labels, (numbers label).isSome)
    (h : dispatch p numbers s.depth s labels = .ok (ops, s')) :
    Dispatched p numbers s labels ops s' := by
  induction labels generalizing s ops with
  | nil =>
      cases h
      exact .nil _
  | cons label rest ih =>
      rw [dispatch] at h
      split at h
      · cases h
      · next b hb =>
          split at h
          · cases h
          · next body s₁ hl =>
              split at h
              · cases h
              · next more s₂ hr =>
                  cases h
                  obtain ⟨n, hnum⟩ := Option.isSome_iff_exists.mp (hn label (by simp))
                  obtain ⟨hw, hd⟩ := Blocked.of_lowerBlock hf hl
                  have hf₁ : s₁.framed := by rw [hw.same]; exact hf
                  rw [← hd] at hr
                  rw [hnum, Option.getD_some]
                  exact .cons hb hnum hw hd (ih hf₁ (fun l hm => hn l (by simp [hm])) hr)

section

variable {labels : List Bytes}

theorem Dispatched.same (h : Dispatched p numbers s labels ops s') :
    s' = { s with high := s'.high } := by
  induction h with
  | nil => rfl
  | cons _ _ h hd _ ih => rw [ih, h.same, hd]

theorem Dispatched.high_le (h : Dispatched p numbers s labels ops s') :
    s.high.toInt ≤ s'.high.toInt := by
  induction h with
  | nil => exact le_rfl
  | cons _ _ h _ _ ih => exact h.high_le.trans ih

theorem Dispatched.plain (h : Dispatched p numbers s labels ops s') : plainAll ops := by
  induction h with
  | nil => rfl
  | cons _ _ h _ _ ih =>
      refine plainAll_append ?_ ih
      simp [Lowering.select, plainAll, MacroOp.plain, h.plain]

/-- **One pass over the blocks** runs at least the block whose number is set. -/
theorem Dispatched.pass (h : Dispatched p numbers s labels ops s') (hn : Numbering numbers)
    (ht : s.Tame) (hh : s'.high.toInt + 4 < 2 ^ 63) (hL : L.Of s)
    (hv : Tracks p eof σ₀ numbers L s k goes v) (fuel : Nat) :
    ∃ j goes' v', meaningAll eof fuel ops v = .done v' ∧
      Tracks p eof σ₀ numbers L s' (k + j) goes' v' ∧
      ∀ label ∈ labels, goes = some label → 1 ≤ j := by
  induction h generalizing k goes v with
  | nil => exact ⟨0, goes, v, rfl, hv, by simp⟩
  | @cons s s₁ s' label rest b n body more hb hnum hw hd t ih =>
      have hg := t.high_le
      obtain ⟨j, goes₁, v₁, hm, hv₁, hj⟩ := hv.select hn hb hnum hw hd ht (by omega) hL fuel
      obtain ⟨j', goes', v', hm', hv', hj'⟩ :=
        ih (hw.tame ht (by omega)) hh (hL.same hw.same) hv₁
      rw [Nat.add_assoc] at hv'
      refine ⟨j + j', goes', v', ?_, hv', fun l hl hgo => ?_⟩
      · rw [meaningAll_append, hm, Ending.bind_done, hm']
      · rcases List.mem_cons.mp hl with rfl | hl
        · have := hj hgo
          omega
        · -- where no block has run yet, the number is still set
          rcases Nat.eq_zero_or_pos j with rfl | hpos
          · obtain ⟨⟨σ, ha, -⟩, -, -⟩ := hv
            obtain ⟨⟨σ₁, ha₁, -⟩, -, -⟩ := hv₁
            rw [Nat.add_zero, ha] at ha₁
            cases ha₁
            have := hj' l hl hgo
            omega
          · omega

/-- **Rounds of passes**: they are done when the program has halted, and else have run at least one
block each. -/
theorem Dispatched.rounds (h : Dispatched p numbers s labels ops s') (hn : Numbering numbers)
    (hall : ∀ label, (numbers label).isSome → label ∈ labels) (ht : s.Tame)
    (hh : s'.high.toInt + 4 < 2 ^ 63) (hL : L.Of s)
    (hv : Tracks p eof σ₀ numbers L s k goes v) (fuel n : Nat) :
    ∃ m goes' v', Tracks p eof σ₀ numbers L s m goes' v' ∧
      (View.repeats (nextDepth - s.depth) (meaningAll eof fuel ops) n v = .done v' ∧
          goes' = none ∨
        View.repeats (nextDepth - s.depth) (meaningAll eof fuel ops) n v = .more v' ∧
          k + n ≤ m) := by
  induction n generalizing k goes v with
  | zero => exact ⟨k, goes, v, hv, .inr ⟨rfl, le_rfl⟩⟩
  | succ n ih =>
      rw [View.repeats, hv.get_next ht hL]
      by_cases hz : goes = none
      · rw [if_pos ((hn.tag_eq_zero_iff hv.known).mpr hz)]
        exact ⟨k, goes, v, hv, .inl ⟨rfl, hz⟩⟩
      rw [if_neg (mt (hn.tag_eq_zero_iff hv.known).mp hz)]
      obtain ⟨j, goes₁, v₁, hm, hv₁, hj⟩ := h.pass hn ht hh hL hv fuel
      have hd : s.depth = s'.depth := by rw [h.same]
      obtain ⟨label, rfl⟩ := Option.ne_none_iff_exists'.mp hz
      have hpos := hj label (hall label (hv.known label rfl)) rfl
      obtain ⟨m, goes', v', hv', hr⟩ := ih (hv₁.of_depth hd)
      rw [hm, Ending.bind_done]
      refine ⟨m, goes', v', hv', hr.imp_right ?_⟩
      rintro ⟨hr, hle⟩
      exact ⟨hr, by omega⟩

/-! ### Cells on the tape -/

theorem Dispatched.fits (h : Dispatched p numbers s labels ops s') (ht : s.Tame)
    (hh : s'.high.toInt + 4 < 2 ^ 63) (hL : L.Of s) (hs : s.reserved = s.depth) {size : Nat}
    {base : Int} (hb : 3 ≤ base) (hz : base + s'.high.toInt < size) (e : Int) :
    FitsAll size (base + s.depth.toInt) e ops := by
  induction h with
  | nil => trivial
  | @cons s s₁ s' label rest b n body more _ _ hw hd t ih =>
      have hg := t.high_le
      have hg₁ := hw.high_le
      have hr := ht.reserved
      have hrd := ht.depth
      have hd₁ := ht.high
      have hL₁ := hL.same hw.same
      have hs₁ : s₁.reserved = s₁.depth := by rw [hL₁.2, ← hL.2, hs, hd]
      have hrest := ih (hw.tame ht (by omega)) hh hL₁ hs₁ hz
      rw [hd] at hrest
      have hc : ∀ d : Int64, d.toInt < 0 → -3 ≤ d.toInt →
          On size (base + s.depth.toInt + (d - s.depth).toInt) := by
        intro d hd hd'
        rw [toInt_below ht (by omega) hd (by omega)]
        exact ⟨by omega, by omega⟩
      have hn := hc nextDepth (by decide) (by decide)
      have hsel := hc selectorDepth (by decide) (by decide)
      have hwork := hc workDepth (by decide) (by decide)
      have hwd : workDepth.toInt = -1 := by decide
      have hbody : FitsAll size (base + s.depth.toInt) (workDepth - s.depth).toInt body := by
        refine hw.fits ht (by omega) hL hb (by omega) ?_ ?_
        · rw [toInt_below ht (by omega) (by decide) (by decide)]
          omega
        · rw [toInt_below ht (by omega) (by decide) (by decide), ← hL.2, hs]
          omega
      rw [fitsAll_append]
      refine ⟨?_, by simpa [Lowering.select, travel, moved] using hrest⟩
      simp only [Lowering.select, FitsAll, Fits, used, moved, Int64.toInt_zero, Int.add_zero,
        List.forall_mem_cons, List.not_mem_nil, false_implies, implies_true, and_true]
      exact ⟨⟨hsel, hn, hwork⟩, hsel, ⟨hwork, hsel⟩, hwork, hbody⟩

end

end Lowering

end StackTape
