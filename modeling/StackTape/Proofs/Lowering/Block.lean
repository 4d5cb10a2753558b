import StackTape.Proofs.Lowering.Layout

/-!
# Lowered blocks

A block runs with the dispatcher's cells below the slots: the number of the next block, the
selector and a work cell (`Layout.control`).  `Blocked` is what lowering a block gives: instructions
on the stack, and an exit that sets the number of the next block.  `Blocked.meaning`: the
operations of a block do what the block does, and leave the number of the block that it goes on at.
-/

namespace StackTape

open MacroOp

namespace Layout

variable {L : Layout} {rest : Int64 → UInt8} {σ : Store} {b v : View}

/-- The cells besides the slots while a program runs. -/
def control (L : Layout) (next work : UInt8) (a : Int64) : UInt8 :=
  if a = L.origin + Lowering.nextDepth then next
  else if a = L.origin + Lowering.workDepth then work
  else 0

/-- Different depths are different cells. -/
theorem add_ne {d e : Int64} (h : d ≠ e) : L.origin + d ≠ L.origin + e := by
  rwa [ne_eq, Int64.add_right_inj]

/-- The cells below depth zero are told apart by their depths. -/
theorem control_next (next work : UInt8) :
    L.control next work (L.origin + Lowering.nextDepth) = next :=
  if_pos rfl

theorem control_work (next work : UInt8) :
    L.control next work (L.origin + Lowering.workDepth) = work := by
  rw [control, if_neg (add_ne (by decide)), if_pos rfl]

/-- The selector is zero between the tests. -/
theorem control_selector (next work : UInt8) :
    L.control next work (L.origin + Lowering.selectorDepth) = 0 := by
  rw [control, if_neg (add_ne (by decide)), if_neg (add_ne (by decide))]

/-- A depth below the first slot. -/
theorem below_ne {p : Placed} (hp : p ∈ L.slots) {d : Int64} (hd : d.toInt < 0) :
    L.origin + d ≠ L.origin + p.depth := by
  intro he
  have h : d = p.depth := by grind
  have hb := L.below p hp
  rw [h] at hd
  omega

/-- A depth just below the first slot is not above the slots. -/
theorem below_ne_above {d : Int64} (hd : d.toInt < 0) (hd' : -4 ≤ d.toInt) {k : Nat}
    (hk : k < 2 ^ 63) : L.origin + d ≠ L.origin + L.height + Int64.ofNat k := by
  intro he
  have h : d = L.height + Int64.ofNat k := by grind
  have hn := L.nonneg
  have hh := L.small
  have hs := congrArg Int64.toInt h
  rw [Int64.toInt_add, Int64.toInt_ofNat_of_lt hk, Int.bmod_def] at hs
  split_ifs at hs <;> omega

/-- They are no cells of slots or of the stack. -/
theorem free_control (next work : UInt8) : L.Free (L.control next work) := by
  intro k hk
  have h₁ : L.origin + Lowering.nextDepth ≠ _ := below_ne_above (by decide) (by decide) hk
  have h₂ : L.origin + Lowering.workDepth ≠ _ := below_ne_above (by decide) (by decide) hk
  rw [control, if_neg h₁.symm, if_neg h₂.symm]

/-- Setting the number of the next block leaves the work cell. -/
theorem update_control_next (next work x : UInt8) :
    Function.update (L.control next work) (L.origin + Lowering.nextDepth) x = L.control x work := by
  funext a
  by_cases h : a = L.origin + Lowering.nextDepth
  · rw [h, Function.update_self, control_next]
  · rw [Function.update_of_ne h, control, control, if_neg h, if_neg h]

/-- Setting the work cell leaves the number of the next block. -/
theorem update_control_work (next work x : UInt8) :
    Function.update (L.control next work) (L.origin + Lowering.workDepth) x = L.control next x := by
  funext a
  by_cases h : a = L.origin + Lowering.workDepth
  · rw [h, Function.update_self, control_work]
  · rw [Function.update_of_ne h, control, control, if_neg h, if_neg h]

/-- A cell besides the slots is set. -/
theorem Floor.poke_other (hf : L.Floor rest σ b) {a : Int64}
    (ha : ∀ p ∈ L.slots, a ≠ L.origin + p.depth) (x : UInt8) :
    L.Floor (Function.update rest a x) σ (b.poke a x) where
  pointer := hf.pointer
  input := hf.input
  output := hf.output
  slot p hp := by
    show Function.update b.cells a x _ = _
    rw [Function.update_of_ne (ha p hp).symm, hf.slot p hp]
  other c hc := by
    show Function.update b.cells a x c = Function.update rest a x c
    by_cases h : c = a
    · rw [h, Function.update_self, Function.update_self]
    · rw [Function.update_of_ne h, Function.update_of_ne h, hf.other c hc]

/-- A cell below the slots is set. -/
theorem Pictures.poke_below {s : Lowering} (hp : L.Pictures rest s σ v) {d : Int64}
    (hd : d.toInt < 0) (hd' : -4 ≤ d.toInt) (x : UInt8) :
    L.Pictures (Function.update rest (L.origin + d) x) s σ (v.poke (L.origin + d) x) := by
  obtain ⟨b, hf, hl, rfl⟩ := hp
  refine ⟨b.poke (L.origin + d) x, hf.poke_other (fun p hp => below_ne hp hd) x, hl, ?_⟩
  have hs := s.depth.toInt_lt
  have hn := L.nonneg
  refine View.poke_stacked (fun k hk => ?_) x
  rw [hf.pointer]
  exact below_ne_above hd hd' (by omega)

end Layout

namespace Lowering

variable {s s' : Lowering} {ops : List MacroOp} {L : Layout} {σ : Store} {v : View}
  {numbers : Numbers}

/-! ### Exits -/

/-- A cell is set by clearing it and adding a number, modulo 256. -/
theorem meaningAll_set (eof : EofMode) (fuel : Nat) (d n : Int64) (v : View) :
    meaningAll eof fuel [.zero d, .add d n] v = .done (v.put d (UInt8.ofInt n.toInt)) := by
  rw [meaningAll, meaning, Ending.bind_done, meaningAll, meaning, Ending.bind_done, meaningAll,
    View.plus, View.get_put_self, UInt8.zero_add, View.put_put]

section

variable {rest : Int64 → UInt8} (ht : s.Tame) (hL : L.Of s) (hp : L.Pictures rest s σ v)
  {d : Int64} (hd : d.toInt < 0) (hd' : -4 ≤ d.toInt)

include ht hL hp hd hd'

/-- A cell below the slots is set, seen from the cursor. -/
theorem put_below (x : UInt8) :
    L.Pictures (Function.update rest (L.origin + d) x) s σ (v.put (d - s.depth) x) := by
  have ha : v.pointer + (d - s.depth) = L.origin + d := by
    rw [pointer_of_pictures ht hL hp]
    grind
  have := hp.poke_below hd hd' x
  rwa [← ha] at this ⊢

/-- A cell below the slots, seen from the cursor. -/
theorem get_below : v.get (d - s.depth) = rest (L.origin + d) := by
  have ha : v.pointer + (d - s.depth) = L.origin + d := by
    rw [pointer_of_pictures ht hL hp]
    grind
  obtain ⟨b, hf, hl, rfl⟩ := hp
  have hs := s.depth.toInt_lt
  have hn := L.nonneg
  rw [View.get, ha, View.cells_stacked_of_ne, hf.other _ fun p hp => Layout.below_ne hp hd]
  intro k hk
  rw [hf.pointer]
  exact Layout.below_ne_above hd hd' (by omega)

end

/-- Setting the number of the next block leaves the picture of the stack machine as it is. -/
theorem put_next (ht : s.Tame) (hL : L.Of s) {next work : UInt8}
    (hp : L.Pictures (L.control next work) s σ v) (x : UInt8) :
    L.Pictures (L.control x work) s σ (v.put (nextDepth - s.depth) x) := by
  rw [← L.update_control_next next]
  exact put_below ht hL hp (by decide) (by decide) x

/-- What lowering the end of a block gives, a terminator or nothing.  `falls` is where the block
goes on without one. -/
inductive Exits (numbers : Numbers) (falls : Option Bytes) (s : Lowering) :
    List Instr → List MacroOp → Lowering → Prop where
  | jump {label : Bytes} {n : Nat} (hn : numbers label = some n) :
      Exits numbers falls s [.jump label] (s.setNext (Int64.ofNat n)) s
  | cond {t f : Bytes} {nt nf : Nat} (ht : numbers t = some nt) (hf : numbers f = some nf)
      (hh : s.Has 1) :
      Exits numbers falls s [.cond t f]
        [.go (-1), .branch 0 1 ((s.moveBy (-1)).setNext (Int64.ofNat nt))
          ((s.moveBy (-1)).setNext (Int64.ofNat nf))]
        (s.work 1 (-1))
  | halt (h : falls = none) : Exits numbers falls s [] [.zero (nextDepth - s.depth)] s
  | fall {label : Bytes} {n : Nat} (h : falls = some label) (hn : numbers label = some n) :
      Exits numbers falls s [] (s.setNext (Int64.ofNat n)) s

/-- The number of the block to go on at, and 0 for none. -/
def tag (numbers : Numbers) (exit : Option Bytes) : UInt8 :=
  UInt8.ofNat ((exit.bind numbers).getD 0)

/-- A target that is found has a number. -/
theorem target_eq_ok {label : Bytes} {n : Int64} (h : target numbers label = .ok n) :
    ∃ k, numbers label = some k ∧ n = Int64.ofNat k := by
  unfold target at h
  split at h
  · next k hk =>
      cases h
      exact ⟨k, hk, rfl⟩
  · cases h

theorem setNext_reach (s : Lowering) (d n : Int64) : (s.reach d).setNext n = s.setNext n := by
  rw [reach_same]
  rfl

/-- The work cells of a branch are counted from the cursor after its operand is taken. -/
theorem reach_of_moveBy (s : Lowering) (d r : Int64) :
    (s.moveBy d).reach ((s.moveBy d).depth + r) = s.work (d + r) d := by
  rw [reach_moveBy, work, ← Int64.add_assoc]
  rfl

/-- A terminator that is accepted is an exit. -/
theorem Exits.of_stepControl {index : Nat} {i : Instr} (hi : i.isTerminator)
    (falls : Option Bytes) (h : s.stepControl numbers index i = .ok (ops, s')) :
    Exits numbers falls s [i] ops s' := by
  cases i with
  | jump label =>
      obtain ⟨n, hn, h⟩ := bind_eq_ok h
      obtain ⟨k, hk, rfl⟩ := target_eq_ok hn
      obtain ⟨-, rfl, rfl⟩ := emit_eq_ok h
      exact .jump hk
  | cond t f =>
      obtain ⟨nt, hnt, h⟩ := bind_eq_ok h
      obtain ⟨nf, hnf, h⟩ := bind_eq_ok h
      obtain ⟨kt, hkt, rfl⟩ := target_eq_ok hnt
      obtain ⟨kf, hkf, rfl⟩ := target_eq_ok hnf
      obtain ⟨hn, h⟩ := need_bind h
      dsimp only at h
      rw [setNext_reach, setNext_reach, reach_of_moveBy, show (-1 : Int64) + 2 = 1 by grind] at h
      obtain ⟨-, rfl, rfl⟩ := emit_eq_ok h
      exact .cond hkt hkf hn
  | _ => cases hi

/-- So is the end of a block without one. -/
theorem Exits.of_fallThrough {exit : Bytes} (h : fallThrough numbers s exit = .ok ops) :
    Exits numbers (if exit.isEmpty then none else some exit) s [] ops s := by
  unfold fallThrough at h
  split_ifs at h with he
  · cases h
    rw [if_pos he]
    exact .halt rfl
  · obtain ⟨n, hn, h⟩ := bind_eq_ok h
    obtain ⟨k, hk, rfl⟩ := target_eq_ok hn
    cases h
    rw [if_neg he]
    exact .fall rfl hk

/-! ### Inversion -/

theorem validateAll_nil : MacroOp.validateAll [] = .ok () := by
  rw [MacroOp.validateAll, MacroOp.firstFault?]

/-- An instruction of a block that is no terminator. -/
theorem Lowered.of_stepIn {index : Nat} {i : Instr} (hf : s.framed) (hi : i.isTerminator = false)
    (h : s.stepIn numbers index i = .ok (ops, s')) :
    Lowered s i ops s' ∧ MacroOp.validateAll ops = .ok () := by
  cases i with
  | jump | cond => cases hi
  | label name =>
      change (if index = 0 then Except.ok ([], s) else .error LoweringFault.labelInside) =
        .ok (ops, s') at h
      split_ifs at h
      cases h
      exact ⟨.mark rfl, validateAll_nil⟩
  | reserve name size =>
      have h : s.reserve name size = .ok (ops, s') := h
      unfold reserve at h
      obtain ⟨_, _, h⟩ := bind_eq_ok h
      rw [if_pos hf] at h
      cases h
      exact ⟨.mark rfl, validateAll_nil⟩
  | unreserve name size =>
      have h : s.unreserve name size = .ok (ops, s') := h
      unfold unreserve at h
      obtain ⟨_, _, h⟩ := bind_eq_ok h
      rw [if_pos hf] at h
      cases h
      exact ⟨.mark rfl, validateAll_nil⟩
  | _ => exact Lowered.of_step rfl h

/-- What lowering a block gives. -/
inductive Blocked (numbers : Numbers) (b : Block) (s : Lowering) :
    List MacroOp → Lowering → Prop where
  | mk {body last : List Instr} {work exit : List MacroOp} {s₁ s' : Lowering}
      (hb : b.instrs = body ++ last) (hw : LoweredAll s body work s₁)
      (he : Exits numbers b.fallsTo s₁ last exit s') : Blocked numbers b s (work ++ exit) s'

/-- Nothing comes after a terminator. -/
theorem lowerInstrs_ended {label : Bytes} {index : Nat} {instrs : List Instr} {ended : Bool}
    (h : lowerInstrs numbers label s true index instrs = .ok (ops, s', ended)) :
    instrs = [] ∧ ops = [] ∧ s' = s ∧ ended = true := by
  cases instrs with
  | nil =>
      cases h
      exact ⟨rfl, rfl, rfl, rfl⟩
  | cons i rest => simp [lowerInstrs] at h

/-- **A block that is accepted** is work on the stack with a terminator behind it or none. -/
theorem lowerInstrs_eq_ok {label : Bytes} {index : Nat} {instrs : List Instr} {ended : Bool}
    (hf : s.framed)
    (h : lowerInstrs numbers label s false index instrs = .ok (ops, s', ended)) :
    ∃ body last work exit s₁, instrs = body ++ last ∧ LoweredAll s body work s₁ ∧
      ops = work ++ exit ∧
      ((ended = false ∧ last = [] ∧ exit = [] ∧ s' = s₁) ∨
        ended = true ∧ ∀ falls, Exits numbers falls s₁ last exit s') := by
  induction instrs generalizing s index ops with
  | nil =>
      cases h
      exact ⟨[], [], [], [], _, rfl, .nil _, rfl, .inl ⟨rfl, rfl, rfl, rfl⟩⟩
  | cons i rest ih =>
      simp only [lowerInstrs, Bool.false_eq_true, if_false] at h
      split at h
      · cases h
      · next ops₁ s₁ hs =>
          split at h
          · cases h
          · next more s₂ ended₂ hr =>
              cases h
              cases hi : i.isTerminator with
              | true =>
                  rw [hi] at hr
                  obtain ⟨rfl, rfl, rfl, rfl⟩ := lowerInstrs_ended hr
                  have hc : s.stepControl numbers index i = .ok (ops₁, s') := by
                    cases i with
                    | jump | cond => exact hs
                    | _ => cases hi
                  refine ⟨[], [i], [], ops₁, s, rfl, .nil s, by simp, .inr ⟨rfl, fun falls => ?_⟩⟩
                  exact .of_stepControl hi falls hc
              | false =>
                  rw [hi] at hr
                  obtain ⟨hl, hv⟩ := Lowered.of_stepIn hf hi hs
                  have hf₁ : s₁.framed := by rw [hl.same]; exact hf
                  obtain ⟨body, last, work, exit, s', rfl, hw, rfl, he⟩ := ih hf₁ hr
                  exact ⟨i :: body, last, ops₁ ++ work, exit, s', rfl, .cons hl hv hw,
                    (List.append_assoc ..).symm, he⟩

/-- A block that is accepted leaves the cursor where the dispatcher wants it. -/
theorem Blocked.of_lowerBlock {height : Int64} {b : Block} (hf : s.framed)
    (h : lowerBlock numbers height s b = .ok (ops, s')) :
    Blocked numbers b s ops s' ∧ s'.depth = height := by
  unfold lowerBlock at h
  split at h
  · cases h
  · next work s₂ ended hl =>
      obtain ⟨body, last, work, exit, s₁, hb, hw, rfl, he⟩ := lowerInstrs_eq_ok hf hl
      dsimp only at h
      split at h
      · cases h
      · next hd =>
          have hd : s₂.depth = height := not_not.mp hd
          rcases he with ⟨rfl, rfl, rfl, rfl⟩ | ⟨rfl, he⟩
          · rw [if_neg Bool.false_ne_true] at h
            split at h
            · cases h
            · next exit hx =>
                cases h
                rw [List.append_nil]
                exact ⟨⟨hb, hw, .of_fallThrough hx⟩, hd⟩
          · rw [if_pos rfl] at h
            cases h
            exact ⟨⟨hb, hw, he _⟩, hd⟩

/-! ### Meaning -/

/-- A count as a word and then as a byte. -/
theorem ofInt_toInt_ofNat (n : Nat) : UInt8.ofInt (Int64.ofNat n).toInt = UInt8.ofNat n := by
  have h : ((n : Int).bmod Int64.size % 2 ^ 8).toNat = n % 2 ^ 8 := by
    unfold Int64.size
    rw [Int.bmod_def]
    split_ifs <;> omega
  rw [Int64.toInt_ofNat', UInt8.ofInt, h, UInt8.ofNat_mod_size]

/-- The number of a block as a byte is the byte of its number. -/
theorem tag_some {label : Bytes} {n : Nat} (h : numbers label = some n) :
    tag numbers (some label) = UInt8.ofInt (Int64.ofNat n).toInt := by
  rw [tag, Option.bind_some, h, Option.getD_some, ofInt_toInt_ofNat]

/-- A picture depends on the cursor only. -/
theorem pictures_of_depth {rest : Int64 → UInt8} (hp : L.Pictures rest s σ v)
    (h : s'.depth = s.depth) : L.Pictures rest s' σ v := by
  obtain ⟨b, hf, hl, rfl⟩ := hp
  exact ⟨b, hf, by rw [h]; exact hl, rfl⟩

/-- A number is chosen by a cell, which is cleared. -/
theorem meaning_branch (eof : EofMode) (fuel : Nat) {w : View} {d nt nf : Int64}
    (h₀ : w.get 0 = 0) (h₁ : w.get 1 = 0) (hd₀ : d ≠ 0) (hd₁ : d ≠ 1) (x : UInt8) :
    meaning eof fuel (.branch 0 1 [.zero d, .add d nt] [.zero d, .add d nf]) (w.put 0 x) =
      .done (w.put d (UInt8.ofInt (if x ≠ 0 then nt else nf).toInt)) := by
  have hw : (w.put 0 x).get 1 = 0 := by rw [View.get_put_of_ne _ (by decide), h₁]
  have hu : ∀ n : Int64, usedAll [.zero d, .add d n] = [d, d] := by
    intro n
    simp [usedAll, used, moved]
  have hz : w.put 0 0 = w := by rw [← h₀, View.put_get]
  rw [meaning, if_pos ⟨hw, by simp [hu, hd₀.symm], by simp [hu, hd₁.symm]⟩, View.get_put_self,
    meaningAll_set, meaningAll_set]
  by_cases hx : x = 0
  · rw [if_pos hx, hx, hz, if_neg (by simp)]
  · rw [if_neg hx, Ending.bind_done, if_pos hx, View.put_comm _ hd₀.symm, View.put_put,
      View.put_comm _ hd₀, hz]

/-- Offsets of the cells below depth zero are integers. -/
theorem toInt_below (ht : s.Tame) (hh : s.high.toInt + 4 < 2 ^ 63) {d : Int64} (hd : d.toInt < 0)
    (hd' : -4 ≤ d.toInt) : (d - s.depth).toInt = d.toInt - s.depth.toInt := by
  have := ht.reserved
  have := ht.depth
  have := ht.high
  rw [toInt_sub_of_bounds] <;> omega

theorem toInt_next (ht : s.Tame) (hh : s.high.toInt + 4 < 2 ^ 63) :
    (nextDepth - s.depth).toInt = -3 - s.depth.toInt :=
  toInt_below ht hh (by decide) (by decide)

/-- A branch takes its operand and sets one number or the other. -/
theorem meaningAll_cond (eof : EofMode) (fuel : Nat) (ht : s.Tame)
    (hh : s.high.toInt + 4 < 2 ^ 63) {w : View} (h₀ : w.get 0 = 0) (h₁ : w.get 1 = 0)
    (nt nf : Int64) (x : UInt8) :
    meaningAll eof fuel [.go (-1), .branch 0 1 (s.setNext nt) (s.setNext nf)] (w.push x) =
      .done (w.put (nextDepth - s.depth) (UInt8.ofInt (if x ≠ 0 then nt else nf).toInt)) := by
  have hd : (nextDepth - s.depth).toInt < 0 := by
    have := ht.reserved
    have := ht.depth
    rw [toInt_next ht hh]
    omega
  have hd₀ : nextDepth - s.depth ≠ 0 := by
    intro he
    rw [he, Int64.toInt_zero] at hd
    omega
  have hd₁ : nextDepth - s.depth ≠ 1 := by
    intro he
    rw [he, Int64.toInt_one] at hd
    omega
  rw [meaningAll, meaning, Ending.bind_done, View.push_go_neg, meaningAll, setNext, setNext,
    meaning_branch eof fuel h₀ h₁ hd₀ hd₁, Ending.bind_done, meaningAll]

/-- Taking an operand stays above the slots. -/
theorem moveBy_tame (ht : s.Tame) (hh : s.high.toInt + 4 < 2 ^ 63) (hn : s.Has 1) :
    (s.moveBy (-1)).Tame := by
  obtain ⟨hle, hd, -⟩ : Counts s (s.moveBy (-1)) 1 0 0 :=
    .moveBy ht hh (hn.le ht hh (by decide)) (by decide) (by decide) (by decide)
  have := ht.reserved
  have := ht.high
  refine ⟨by rwa [reserved_moveBy], ?_, ?_⟩
  · rw [hd, reserved_moveBy]
    omega
  · rw [hd, high_moveBy]
    omega

/-- The top is taken off a stack that holds a cell. -/
theorem pictures_pop (ht : s.Tame) (hh : s.high.toInt + 4 < 2 ^ 63) (hL : L.Of s)
    {next work : UInt8} (hp : L.Pictures (L.control next work) s σ v) (hn : s.Has 1) :
    ∃ x st w, σ.stack = x :: st ∧ v = w.push x ∧
      L.Pictures (L.control next work) (s.moveBy (-1)) { σ with stack := st } w ∧
      w.get 0 = 0 ∧ w.get 1 = 0 := by
  obtain ⟨b, hf, hl, rfl⟩ := hp
  obtain ⟨hle, hd, -⟩ : Counts s (s.moveBy (-1)) 1 0 0 :=
    .moveBy ht hh (hn.le ht hh (by decide)) (by decide) (by decide) (by decide)
  have hr := ht.reserved
  have hg := ht.high
  rw [hL.2] at hle hr
  obtain ⟨x, st, hs⟩ := exists_cons (show 1 ≤ σ.stack.length by omega)
  have hl' : σ.stack.length = st.length + 1 := by rw [hs, List.length_cons]
  have hz : ∀ k ≤ 1, (b.stacked st).get (Int64.ofNat k) = 0 := fun k hk =>
    hf.get_stacked (L.free_control next work) (by omega)
  refine ⟨x, st, b.stacked st, hs, by rw [hs]; rfl, ⟨b, hf.stack st, ?_, rfl⟩, hz 0 (by decide),
    hz 1 le_rfl⟩
  rw [hd]
  show (st.length : Int) = _
  omega

/-- **The end of a block** does what it says, and sets the number of the block to go on at. -/
theorem Exits.meaning {falls : Option Bytes} {last : List Instr} {exit : List MacroOp}
    (h : Exits numbers falls s last exit s') (ht : s.Tame) (hh : s.high.toInt + 4 < 2 ^ 63)
    (hL : L.Of s) {next work : UInt8} (hp : L.Pictures (L.control next work) s σ v)
    (eof : EofMode) (fuel : Nat) :
    ∃ goes σ' v', Block.runFrom eof falls last σ = some (goes, σ') ∧
      meaningAll eof fuel exit v = .done v' ∧
      L.Pictures (L.control (tag numbers goes) work) s' σ' v' ∧
      ∀ label, goes = some label → (numbers label).isSome := by
  cases h with
  | @jump label n hn =>
      refine ⟨some label, σ, _, rfl, meaningAll_set eof fuel _ _ v, ?_, ?_⟩
      · rw [tag_some hn]
        exact put_next ht hL hp _
      · rintro _ ⟨⟩
        rw [hn]
        rfl
  | @fall label n hf hn =>
      subst hf
      refine ⟨some label, σ, _, rfl, meaningAll_set eof fuel _ _ v, ?_, ?_⟩
      · rw [tag_some hn]
        exact put_next ht hL hp _
      · rintro _ ⟨⟩
        rw [hn]
        rfl
  | halt hf =>
      subst hf
      exact ⟨none, σ, _, rfl, rfl, put_next ht hL hp 0, by simp⟩
  | @cond t f nt nf hnt hnf hn =>
      obtain ⟨x, st, w, hs, rfl, hp₁, h₀, h₁⟩ := pictures_pop ht hh hL hp hn
      have ht₁ : (s.moveBy (-1)).Tame := moveBy_tame ht hh hn
      have hL₁ := hL.same (moveBy_same s (-1))
      have hw : (s.work 1 (-1)).depth = (s.moveBy (-1)).depth := depth_work s 1 (-1)
      have hh₁ : (s.moveBy (-1)).high.toInt + 4 < 2 ^ 63 := by rwa [high_moveBy]
      generalize s.moveBy (-1) = s₁ at *
      refine ⟨some (if x ≠ 0 then t else f), { σ with stack := st },
        w.put (nextDepth - s₁.depth) _, ?_, meaningAll_cond eof fuel ht₁ hh₁ h₀ h₁ _ _ x, ?_, ?_⟩
      · simp only [Block.runFrom, hs]
      · have hn : tag numbers (some (if x ≠ 0 then t else f)) =
            UInt8.ofInt (if x ≠ 0 then Int64.ofNat nt else Int64.ofNat nf).toInt := by
          split_ifs
          · exact tag_some hnt
          · exact tag_some hnf
        rw [hn]
        exact pictures_of_depth (put_next ht₁ hL₁ hp₁ _) hw
      · rintro _ ⟨⟩
        split_ifs
        · rw [hnt]
          rfl
        · rw [hnf]
          rfl

section

variable {falls : Option Bytes} {last : List Instr} {exit : List MacroOp}

/-- An exit changes the cursor and the highest cell, and nothing else. -/
theorem Exits.same (h : Exits numbers falls s last exit s') :
    s' = { s with depth := s'.depth, high := s'.high } := by
  cases h with
  | cond => rw [work_same]
  | _ => rfl

theorem Exits.high_le (h : Exits numbers falls s last exit s') :
    s.high.toInt ≤ s'.high.toInt := by
  cases h with
  | cond =>
      rw [high_work]
      exact le_max_left ..
  | _ => exact le_rfl

/-- It stays above the slots. -/
theorem Exits.tame (h : Exits numbers falls s last exit s') (ht : s.Tame)
    (hh : s.high.toInt + 4 < 2 ^ 63) : s'.Tame := by
  cases h with
  | cond _ _ hn =>
      obtain ⟨hle, hd, hg⟩ : Counts s (s.work 1 (-1)) 1 0 1 :=
        .work ht hh (hn.le ht hh (by decide)) (by decide) (by decide) (by decide) (by decide)
          (by decide)
      have hr : (s.work 1 (-1)).reserved = s.reserved := by rw [work_same]
      have := ht.reserved
      have := ht.high
      refine ⟨by rwa [hr], ?_, ?_⟩
      · rw [hd, hr]
        omega
      · rw [hd, hg]
        omega
  | _ => exact ht

end

/-- No instruction on the stack is a terminator. -/
theorem Lowered.isTerminator {i : Instr} (h : Lowered s i ops s') : i.isTerminator = false := by
  cases h with
  | mark hi =>
      cases i with
      | reserve | unreserve | label => rfl
      | _ => cases hi
  | _ => rfl

/-- A block runs on behind an instruction that is no terminator. -/
theorem runFrom_cons {i : Instr} (hi : i.isTerminator = false) (eof : EofMode)
    (falls : Option Bytes) (rest : List Instr) (σ : Store) :
    Block.runFrom eof falls (i :: rest) σ =
      (i.effect eof σ).bind (Block.runFrom eof falls rest) := by
  cases i with
  | jump | cond => cases hi
  | _ => rfl

/-- It runs its work first, and then its terminator. -/
theorem LoweredAll.runFrom {body : List Instr} (h : LoweredAll s body ops s') (eof : EofMode)
    (falls : Option Bytes) (last : List Instr) (σ : Store) :
    Block.runFrom eof falls (body ++ last) σ =
      (Instr.effectAll eof body σ).bind (Block.runFrom eof falls last) := by
  induction h generalizing σ with
  | nil => rfl
  | cons h _ _ ih =>
      rw [List.cons_append, runFrom_cons h.isTerminator, Instr.effectAll, Option.bind_assoc]
      exact congrArg _ (funext ih)

section

variable {b : Block}

/-- A block changes the cursor and the highest cell, and nothing else. -/
theorem Blocked.same (h : Blocked numbers b s ops s') :
    s' = { s with depth := s'.depth, high := s'.high } := by
  obtain ⟨-, hw, he⟩ := h
  rw [he.same, hw.same]

/-- It only raises the highest cell. -/
theorem Blocked.high_le (h : Blocked numbers b s ops s') : s.high.toInt ≤ s'.high.toInt := by
  obtain ⟨-, hw, he⟩ := h
  exact hw.high_le.trans he.high_le

theorem Blocked.tame (h : Blocked numbers b s ops s') (ht : s.Tame)
    (hh : s'.high.toInt + 4 < 2 ^ 63) : s'.Tame := by
  obtain ⟨-, hw, he⟩ := h
  have := he.high_le
  exact he.tame (hw.tame ht (by omega)) (by omega)

/-- **The operations of a block do what the block does**, and set the number of the block that it
goes on at. -/
theorem Blocked.meaning (h : Blocked numbers b s ops s') (ht : s.Tame)
    (hh : s'.high.toInt + 4 < 2 ^ 63) (hL : L.Of s) {next work : UInt8}
    (hp : L.Pictures (L.control next work) s σ v) (eof : EofMode) (fuel : Nat) :
    ∃ goes σ' v', b.run eof σ = some (goes, σ') ∧ meaningAll eof fuel ops v = .done v' ∧
      L.Pictures (L.control (tag numbers goes) work) s' σ' v' ∧
      ∀ label, goes = some label → (numbers label).isSome := by
  obtain ⟨hb, hw, he⟩ := h
  have hg := he.high_le
  obtain ⟨σ₁, v₁, hσ₁, hv₁, hp₁⟩ :=
    hw.meaning ht (by omega) hL (L.free_control next work) hp eof fuel
  obtain ⟨goes, σ', v', hσ', hv', hp', hn⟩ :=
    he.meaning (hw.tame ht (by omega)) (by omega) (hL.same hw.same) hp₁ eof fuel
  refine ⟨goes, σ', v', ?_, ?_, hp', hn⟩
  · rw [Block.run, hb, hw.runFrom, hσ₁, Option.bind_some, hσ']
  · rw [meaningAll_append, hv₁, Ending.bind_done, hv']

end

/-! ### Cells on the tape -/

/-- Setting the number of the next block stays on the tape, since three cells are below depth zero.
-/
theorem fits_setNext (ht : s.Tame) (hh : s.high.toInt + 4 < 2 ^ 63) {size : Nat} {base x : Int}
    (hb : 3 ≤ base) (hs : base < size) (hx : x = base + s.depth.toInt) (e : Int) (n : Int64) :
    FitsAll size x e (s.setNext n) := by
  have hon : On size (x + (nextDepth - s.depth).toInt) := by
    rw [toInt_next ht hh]
    exact ⟨by omega, by omega⟩
  simp only [setNext, FitsAll, Fits, used, moved, Int64.toInt_zero, Int.add_zero,
    List.forall_mem_singleton, and_true]
  exact ⟨hon, hon⟩

theorem travel_setNext (s : Lowering) (n : Int64) : travel (s.setNext n) = 0 := rfl

/-- So does an exit. -/
theorem Exits.fits {falls : Option Bytes} {last : List Instr} {exit : List MacroOp}
    (h : Exits numbers falls s last exit s') (ht : s.Tame) (hh : s.high.toInt + 4 < 2 ^ 63)
    (hL : L.Of s) {size : Nat} {base e : Int} (hb : 3 ≤ base) (hs : base + s'.high.toInt < size)
    (he : e ≤ 0) (he' : 0 ≤ base + L.height.toInt + e) :
    FitsAll size (base + s.depth.toInt) e exit ∧
      s.depth.toInt + travel exit = s'.depth.toInt := by
  have hr := ht.reserved
  have hd := ht.depth
  have hg := ht.high
  have hl := h.high_le
  cases h with
  | jump | fall =>
      exact ⟨fits_setNext ht hh hb (by omega) rfl e _, by rw [travel_setNext]; omega⟩
  | halt =>
      exact ⟨⟨(fits_setNext ht hh hb (by omega) rfl e 0).1, trivial⟩, by simp [travel, moved]⟩
  | cond _ _ hn =>
      have ht₁ := moveBy_tame ht hh hn
      have hh₁ : (s.moveBy (-1)).high.toInt + 4 < 2 ^ 63 := by rwa [high_moveBy]
      obtain ⟨hle, hd', hg'⟩ : Counts s (s.work 1 (-1)) 1 0 1 :=
        .work ht hh (hn.le ht hh (by decide)) (by decide) (by decide) (by decide) (by decide)
          (by decide)
      have hw : (s.work 1 (-1)).depth = (s.moveBy (-1)).depth := depth_work s 1 (-1)
      rw [hw] at hd' ⊢
      rw [hL.2] at hle hr
      generalize s.moveBy (-1) = s₁ at *
      generalize s.work 1 (-1) = s' at *
      have h₁ : (-1 : Int64).toInt = -1 := by decide
      have hx : base + s.depth.toInt + -1 = base + s₁.depth.toInt := by omega
      simp only [FitsAll, Fits, moved, travel, h₁, Int64.toInt_zero, Int64.toInt_one, hx, On,
        and_true]
      refine ⟨⟨⟨⟨?_, ?_⟩, ?_, ?_⟩, ⟨⟨?_, ?_⟩, ?_, ?_⟩, ?_, ?_⟩, ?_⟩
      any_goals omega
      · exact fits_setNext ht₁ hh₁ hb (by omega) rfl 0 _
      · exact fits_setNext ht₁ hh₁ hb (by omega) rfl 1 _

/-- The operations of a block stay between the dispatcher's cells and the watermark. -/
theorem Blocked.fits {b : Block} (h : Blocked numbers b s ops s') (ht : s.Tame)
    (hh : s'.high.toInt + 4 < 2 ^ 63) (hL : L.Of s) {size : Nat} {base e : Int} (hb : 3 ≤ base)
    (hs : base + s'.high.toInt < size) (he : e ≤ 0) (he' : 0 ≤ base + L.height.toInt + e) :
    FitsAll size (base + s.depth.toInt) e ops := by
  obtain ⟨-, hw, hx⟩ := h
  have hg := hx.high_le
  obtain ⟨hfw, htw⟩ := hw.fits ht (by omega) hL (by omega)
    (lt_of_le_of_lt (Int.add_le_add_left hg base) hs) he he'
  obtain ⟨hfx, -⟩ := hx.fits (hw.tame ht (by omega)) (by omega) (hL.same hw.same) hb hs he he'
  rw [fitsAll_append, Int.add_assoc, htw]
  exact ⟨hfw, hfx⟩

theorem plainAll_append {ops more : List MacroOp} (h : plainAll ops) (h' : plainAll more) :
    plainAll (ops ++ more) := by
  induction ops with
  | nil => exact h'
  | cons op rest ih =>
      obtain ⟨ho, hr⟩ := Bool.and_eq_true_iff.mp h
      exact Bool.and_eq_true_iff.mpr ⟨ho, ih hr⟩

theorem LoweredAll.plain {body : List Instr} (h : LoweredAll s body ops s') : plainAll ops := by
  induction h with
  | nil => rfl
  | cons h _ _ ih => exact plainAll_append h.plain ih

/-- The operations of a block hold no control flow. -/
theorem Blocked.plain {b : Block} (h : Blocked numbers b s ops s') : plainAll ops := by
  obtain ⟨-, hw, hx⟩ := h
  refine plainAll_append hw.plain ?_
  cases hx <;> rfl

end Lowering

end StackTape
