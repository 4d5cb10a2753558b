import StackTape.Proofs.Expansion.Success
import StackTape.Proofs.Lowering.Program
import StackTape.Proofs.Lowering.Regions

/-!
# What lowering emits

`Emitted`: no control flow, raw text that reads or writes one byte, and counts of a byte.  Whatever
lowering gives is emitted at every depth and keeps its contract (`LaidAll.emits` for straight-line
code, `lowerProgram_emits` for programs), so that nothing but its length stands against writing it.
The length is bounded by two things.  The operations reach no farther than the cells of the slots
and the number of instructions (`lower_near`, `lowerProgram_near`), since what fits a tape names no
cell farther away than the tape is long; and there are at most fifteen operands to write for every
instruction and every slot, and a few more for every block (`lower_weights`,
`lowerProgram_weights`).
-/

namespace StackTape

namespace MacroOp

/-- Raw text that reads or writes one byte. -/
def IsTransfer (text : Bytes) : Prop := text = Bytes.ascii "." ∨ text = Bytes.ascii ","

/-- An operation as lowering emits it, its bodies apart. -/
def Emitted : MacroOp → Prop
  | .control _ => False
  | .literal text _ => IsTransfer text
  | .add _ count => -255 ≤ count.toInt ∧ count.toInt ≤ 255
  | .and _ srcs _ => srcs.length ≤ 2
  | _ => True

/-- The parts of operations in sequence come one after another. -/
theorem partsAll_append (ops more : List MacroOp) :
    partsAll (ops ++ more) = partsAll ops ++ partsAll more := by
  induction ops with
  | nil => rfl
  | cons op rest ih => rw [List.cons_append, partsAll, partsAll, ih, List.append_assoc]

/-! ### Contracts -/

theorem validate_eq_ok_iff {op : MacroOp} : op.validate = .ok () ↔ op.fault? = none := by
  unfold validate
  split <;> simp [*]

/-- Operations keep their contracts together if each does. -/
theorem firstFault?_eq_none_iff {ops : List MacroOp} :
    firstFault? ops = none ↔ ∀ op ∈ ops, op.validate = .ok () := by
  induction ops with
  | nil => simp [firstFault?]
  | cons op rest ih =>
      rw [firstFault?, List.forall_mem_cons, validate_eq_ok_iff, ← ih]
      split <;> simp [*]

theorem validate_of_validateAll {ops : List MacroOp} (h : validateAll ops = .ok ()) :
    ∀ op ∈ ops, op.validate = .ok () := by
  unfold validateAll at h
  split at h
  · cases h
  · next hf => exact firstFault?_eq_none_iff.mp hf

/-! ### Reach -/

/-- Two cells of a tape are no farther apart than it is long. -/
theorem span_of_on {size : Nat} {p : Int} {c : Int64} (hp : On size p)
    (hc : On size (p + c.toInt)) : span c ≤ size := by
  unfold On at hp hc
  unfold span
  omega

theorem span_of_byte {size : Nat} (hs : 255 ≤ size) {c : Int64}
    (h : -255 ≤ c.toInt ∧ c.toInt ≤ 255) : span c ≤ size := by
  unfold span
  omega

mutual

/-- **An operation that fits a tape names no cell farther away than the tape is long.** -/
theorem Fits.near {size : Nat} (hs : 255 ≤ size) {p e : Int} (hp : On size p) :
    ∀ {op : MacroOp}, op.Fits size p e → (∀ part ∈ op.parts, part.Emitted) →
      ∀ part ∈ op.parts, part.Near size
  | .go delta, h, _, part, hm, n, hn => by
      obtain rfl := List.mem_singleton.mp hm
      obtain rfl := List.mem_singleton.mp hn
      exact span_of_on hp h.1
  | .add dst count, h, he, part, hm, n, hn => by
      obtain rfl := List.mem_singleton.mp hm
      rcases List.mem_cons.mp hn with rfl | hn
      · exact span_of_on hp (h n (by simp [used]))
      · obtain rfl := List.mem_singleton.mp hn
        exact span_of_byte hs (he _ hm)
  | .and dst srcs work, h, he, part, hm, n, hn => by
      obtain rfl := List.mem_singleton.mp hm
      have hl : srcs.length ≤ 2 := he _ hm
      simp only [operands, List.mem_cons] at hn
      rcases hn with rfl | rfl | rfl | hn
      · exact span_of_on hp (h n (by simp [used]))
      · exact span_of_on hp (h n (by simp [used]))
      · refine span_of_byte hs ?_
        rw [Int64.toInt_ofNat_of_lt (by omega)]
        omega
      · exact span_of_on hp (h n (by simp [used, hn]))
  | .literal text shifted, h, _, part, hm, n, hn => by
      obtain rfl := List.mem_singleton.mp hm
      obtain rfl := List.mem_singleton.mp hn
      exact span_of_on hp h.1
  | .cond src body, h, he, part, hm, n, hn | .loop src body, h, he, part, hm, n, hn => by
      obtain ⟨-, he⟩ := List.forall_mem_cons.mp he
      rcases List.mem_cons.mp hm with rfl | hm
      · obtain rfl := List.mem_singleton.mp hn
        exact span_of_on hp h.1
      · exact FitsAll.near hs hp h.1 h.2 he part hm n hn
  | .branch src work whenTrue whenFalse, h, he, part, hm, n, hn => by
      obtain ⟨-, he⟩ := List.forall_mem_cons.mp he
      obtain ⟨het, hef⟩ := List.forall_mem_append.mp he
      obtain ⟨⟨hsrc, hwork⟩, ht, hf⟩ := h
      rcases List.mem_cons.mp hm with rfl | hm
      · simp only [operands, List.mem_cons, List.not_mem_nil, or_false] at hn
        rcases hn with rfl | rfl
        · exact span_of_on hp hsrc
        · exact span_of_on hp hwork
      · rcases List.mem_append.mp hm with hm | hm
        · exact FitsAll.near hs hp hsrc ht het part hm n hn
        · exact FitsAll.near hs hp hwork hf hef part hm n hn
  | .control _, h, _, _, _, _, _ => h.elim
  | .move .., h, _, part, hm, n, hn | .unmove .., h, _, part, hm, n, hn
  | .zero _, h, _, part, hm, n, hn | .copy .., h, _, part, hm, n, hn
  | .isZero .., h, _, part, hm, n, hn | .or .., h, _, part, hm, n, hn
  | .xor .., h, _, part, hm, n, hn | .isEq .., h, _, part, hm, n, hn => by
      obtain rfl := List.mem_singleton.mp hm
      exact span_of_on hp (h n hn)

/-- So it is with operations in sequence, each from where the one before has led. -/
theorem FitsAll.near {size : Nat} (hs : 255 ≤ size) {p e : Int} (hp : On size p)
    (hx : On size (p + e)) :
    ∀ {ops : List MacroOp}, FitsAll size p e ops → (∀ part ∈ partsAll ops, part.Emitted) →
      ∀ part ∈ partsAll ops, part.Near size
  | [], _, _, _, hm, _, _ => by cases hm
  | op :: rest, h, he, part, hm, n, hn => by
      obtain ⟨heo, her⟩ := List.forall_mem_append.mp he
      obtain ⟨h₁, h₂⟩ := h.1.lands hp hx
      rcases List.mem_append.mp hm with hm | hm
      · exact Fits.near hs hp h.1 heo part hm n hn
      · exact FitsAll.near hs h₁ (by rwa [Int.add_right_comm]) h.2 her part hm n hn

end

/-- From the first cell of a tape on. -/
theorem near_of_fits {size : Nat} (hs : 255 ≤ size) {ops : List MacroOp}
    (h : FitsAll size 0 0 ops) (he : ∀ part ∈ partsAll ops, part.Emitted) :
    ∀ part ∈ partsAll ops, part.Near size :=
  have hon : On size 0 := ⟨le_rfl, by omega⟩
  FitsAll.near hs hon hon h he

/-- What is emitted and keeps its contract is formed. -/
theorem formed_of_emitted {ops : List MacroOp} (hv : ∀ op ∈ ops, op.validate = .ok ())
    (he : ∀ part ∈ partsAll ops, part.Emitted) : ∀ part ∈ partsAll ops, part.Formed := by
  intro part hm
  refine formed_of_firstFault? (firstFault?_eq_none_iff.mpr hv) part hm ?_
  rintro instr rfl
  exact he _ hm

theorem rawAll_of_emitted {ops : List MacroOp} (he : ∀ part ∈ partsAll ops, part.Emitted) :
    RawAll IsTransfer (partsAll ops) :=
  fun _ _ hm => he _ hm

end MacroOp

namespace Lowering

open MacroOp

variable {s s' : Lowering} {i : Instr} {ops : List MacroOp} {code : List Instr} {all : List Slot}
  {numbers : Numbers} {p : Program} {labels : List Bytes} {b : Block} {frame : Option Frame}

/-! ### Straight-line code -/

/-- A literal is a byte, signed or not. -/
theorem literal_bounds {operand : Bytes} {v : Int64} (h : literal operand = .ok v) :
    -128 ≤ v.toInt ∧ v.toInt ≤ 255 := by
  unfold literal at h
  split at h
  · cases h
  · split at h
    · cases h
    · split_ifs at h with hv
      obtain rfl := Except.ok.inj h
      rw [not_or, Int64.not_lt, Int64.not_lt, Int64.le_iff_toInt_le, Int64.le_iff_toInt_le] at hv
      exact hv

/-- What an instruction on the stack gives is emitted. -/
theorem Lowered.emitted (h : Lowered s i ops s') : ∀ part ∈ partsAll ops, part.Emitted := by
  cases h with
  | push hv =>
      have hb := literal_bounds hv
      simp only [partsAll, parts, List.append_nil, List.cons_append, List.nil_append,
        List.forall_mem_cons, List.not_mem_nil, false_implies, implies_true, and_true, Emitted]
      omega
  | _ => simp [partsAll, parts, Emitted, IsTransfer]

/-- So is what an instruction of straight-line code gives, and it keeps its contract. -/
theorem Laid.emits (h : Laid s i ops s') (hi : ¬ i.opcode.isControl) :
    (∀ op ∈ ops, op.validate = .ok ()) ∧ ∀ part ∈ partsAll ops, part.Emitted := by
  cases h with
  | eval _ h hv => exact ⟨validate_of_validateAll hv, h.emitted⟩
  | reserve | unreserve =>
      simp [partsAll, parts, Emitted, validate_eq_ok_iff, fault?, ownFault]
  | control hc => exact absurd hc hi

/-- **Straight-line code is lowered to what is emitted.** -/
theorem LaidAll.emits (h : LaidAll s code ops s') (hi : ∀ i ∈ code, ¬ i.opcode.isControl) :
    (∀ op ∈ ops, op.validate = .ok ()) ∧ ∀ part ∈ partsAll ops, part.Emitted := by
  induction h with
  | nil => exact ⟨List.forall_mem_nil _, List.forall_mem_nil _⟩
  | cons h _ ih =>
      obtain ⟨hv, he⟩ := h.emits (hi _ List.mem_cons_self)
      obtain ⟨hv', he'⟩ := ih fun j hj => hi j (List.mem_cons_of_mem _ hj)
      rw [partsAll_append]
      exact ⟨List.forall_mem_append.mpr ⟨hv, hv'⟩, List.forall_mem_append.mpr ⟨he, he'⟩⟩

/-! ### Programs -/

theorem LoweredAll.emitted (h : LoweredAll s code ops s') :
    ∀ part ∈ partsAll ops, part.Emitted := by
  induction h with
  | nil => exact List.forall_mem_nil _
  | cons h _ _ ih =>
      rw [partsAll_append]
      exact List.forall_mem_append.mpr ⟨h.emitted, ih⟩

/-- The number of a block is a byte. -/
theorem Numbering.bounds (hn : Numbering numbers) {label : Bytes} {n : Nat}
    (h : numbers label = some n) :
    (Int64.ofNat n).toInt = n ∧ (-Int64.ofNat n).toInt = -n ∧ (n : Int) ≤ 255 := by
  have hle := hn.small h
  have hint : (Int64.ofNat n).toInt = n := Int64.toInt_ofNat_of_lt (by omega)
  refine ⟨hint, ?_, by omega⟩
  rw [toInt_neg_of_nonneg (by omega), hint]

/-- The number of the next block is added as a byte. -/
theorem emitted_setNext (hn : Numbering numbers) {label : Bytes} {n : Nat}
    (h : numbers label = some n) (s : Lowering) :
    ∀ part ∈ partsAll (s.setNext (Int64.ofNat n)), part.Emitted := by
  obtain ⟨hint, -, hle⟩ := hn.bounds h
  simp [setNext, partsAll, parts, Emitted, hint]
  omega

/-- What an exit gives is emitted, on both sides of a branch. -/
theorem Exits.emitted {falls : Option Bytes} {last : List Instr} (hn : Numbering numbers)
    (h : Exits numbers falls s last ops s') : ∀ part ∈ partsAll ops, part.Emitted := by
  cases h with
  | jump h | fall _ h => exact emitted_setNext hn h s
  | halt => simp [partsAll, parts, Emitted]
  | cond ht hf =>
      have h₁ := emitted_setNext hn ht (s.moveBy (-1))
      have h₂ := emitted_setNext hn hf (s.moveBy (-1))
      simp only [partsAll, parts, List.append_nil, List.cons_append, List.nil_append,
        List.forall_mem_cons, List.forall_mem_append, Emitted, true_and]
      exact ⟨h₁, h₂⟩

/-- So is what a block gives, with its exit. -/
theorem Blocked.emitted (hn : Numbering numbers) (h : Blocked numbers b s ops s') :
    ∀ part ∈ partsAll ops, part.Emitted := by
  obtain ⟨-, hw, he⟩ := h
  rw [partsAll_append]
  exact List.forall_mem_append.mpr ⟨hw.emitted, he.emitted hn⟩

/-- So is what the dispatcher gives. -/
theorem Dispatched.emitted (hn : Numbering numbers) (h : Dispatched p numbers s labels ops s') :
    ∀ part ∈ partsAll ops, part.Emitted := by
  induction h with
  | nil => exact List.forall_mem_nil _
  | cons _ hnum h _ _ ih =>
      obtain ⟨-, hneg, hle⟩ := hn.bounds hnum
      rw [partsAll_append]
      refine List.forall_mem_append.mpr ⟨?_, ih⟩
      simp only [select, partsAll, parts, List.append_nil, List.cons_append, List.nil_append,
        List.forall_mem_cons, Emitted, true_and, hneg]
      exact ⟨by omega, h.emitted hn⟩

/-- **A program is lowered to what is emitted.** -/
theorem lowerProgram_emits (hp : p.entry ∈ p.order)
    (h : (Lowering.start frame).lowerProgram p = .ok (ops, s')) :
    (∀ op ∈ ops, op.validate = .ok ()) ∧ ∀ part ∈ partsAll ops, part.Emitted := by
  obtain ⟨hb, f, s₀, moves, body, -, hl, hd, hv, rfl⟩ := lowerProgram_eq_ok h
  have hreserves : ∀ i ∈ f.reserves, ¬ i.opcode.isControl := by
    intro i hi
    obtain ⟨t, -, rfl⟩ := List.mem_map.mp hi
    exact Bool.false_ne_true
  obtain ⟨hvm, hem⟩ := (LaidAll.of_lowerFrom rfl hl).emits hreserves
  have hdisp := Dispatched.of_dispatch (s := { s₀ with framed := true }) rfl
    (fun label hm => numberIn_isSome.mpr hm) hd
  have hbody := hdisp.emitted (numbering_numberIn ((length_dispatchOrder hp).trans hb))
  refine ⟨List.forall_mem_cons.mpr ⟨rfl, List.forall_mem_append.mpr
    ⟨hvm, validate_of_validateAll hv⟩⟩, ?_⟩
  have hclose : ∀ part ∈ partsAll (close s₀.depth body), part.Emitted := by
    simp only [close, partsAll, parts, List.append_nil, List.cons_append, List.nil_append,
      List.forall_mem_cons, List.forall_mem_append, Emitted, true_and, List.not_mem_nil,
      false_implies, implies_true, and_true]
    exact ⟨by decide, hbody⟩
  have hgo : ∀ part ∈ (MacroOp.go controlSize).parts, part.Emitted := by simp [parts, Emitted]
  rw [partsAll, partsAll_append]
  exact List.forall_mem_append.mpr ⟨hgo, List.forall_mem_append.mpr ⟨hem, hclose⟩⟩

/-! ### How far operations reach -/

/-- Straight-line code reaches no farther than its slots and its instructions. -/
theorem lower_near (h : (Lowering.start frame).lower code = .ok (ops, s))
    (hi : ∀ i ∈ code, ¬ i.opcode.isControl)
    (hp : ∀ f, frame = some f → ∀ t ∈ f.slots, 0 < t.size.toInt) {size : Nat} (hs : 255 ≤ size)
    (hc : Frame.cells (Frame.available frame code) + code.length + 4 ≤ size)
    (hsize : size < 2 ^ 60) : ∀ part ∈ partsAll ops, part.Near size := by
  have hlaid := LaidAll.of_lowerFrom rfl h
  have hsmall : Frame.cells (Frame.available frame code) < 2 ^ 62 := by omega
  have hm : Modest (Frame.available frame code) code := hlaid.modest hp hsmall
  have hnn := Frame.cells_nonneg hm.positive
  have hstart : Counted (Frame.available frame code) 0 (Lowering.start frame) :=
    ⟨tidy_start frame, le_rfl, by show (0 : Int) ≤ _ + 3; omega⟩
  have hhigh := (hlaid.counted hm (by omega) hstart).high
  have hfits : FitsAll size 0 0 ops :=
    (hlaid.fits hi hm (tidy_start frame) (by omega) (by omega)).1
  exact near_of_fits hs hfits (hlaid.emits hi).2

/-- One instruction more on the stack, and at most three work cells. -/
theorem Lowered.grows (h : Lowered s i ops s') (ht : s.Tame) (hh : s.high.toInt + 4 < 2 ^ 63) :
    s'.depth.toInt ≤ s.depth.toInt + (if i.isEvaluation then 1 else 0) ∧
      s'.high.toInt ≤ max s.high.toInt (s.depth.toInt + 3) := by
  obtain ⟨-, hd, hg⟩ := h.counts ht hh
  have hk : i.opcode.info.pushes ≤ i.opcode.info.pops + (if i.isEvaluation then 1 else 0) ∧
      i.cells ≤ 3 := by
    cases i <;> exact ⟨Nat.le_of_ble_eq_true rfl, Nat.le_of_ble_eq_true rfl⟩
  split_ifs at hk ⊢ <;> omega

section

variable {cap : Int} (hcap : cap + 4 < 2 ^ 63)

include hcap

/-- The cursor rises by one for every instruction at most, so the highest cell stays under a cap. -/
theorem LoweredAll.high_le_cap (h : LoweredAll s code ops s') (ht : s.Tame)
    (hh : s.high.toInt ≤ cap)
    (hd : s.depth.toInt + (code.countP Instr.isEvaluation : Int) + 3 ≤ cap) :
    s'.high.toInt ≤ cap ∧ s'.depth.toInt + 3 ≤ cap := by
  induction h with
  | nil => exact ⟨hh, by omega⟩
  | cons h _ _ ih =>
      -- the cursor rises only by instructions that are then no longer ahead
      obtain ⟨hdep, hhigh⟩ := h.grows ht (by omega)
      rw [List.countP_cons] at hd
      refine ih (h.tame ht (by omega)) (by omega) ?_
      split_ifs at hd hdep <;> omega

/-- The work cell of a branch is under the cap too. -/
theorem Blocked.high_le_cap (h : Blocked numbers b s ops s') (ht : s.Tame)
    (hh : s.high.toInt ≤ cap)
    (hd : s.depth.toInt + (b.instrs.countP Instr.isEvaluation : Int) + 3 ≤ cap) :
    s'.high.toInt ≤ cap := by
  obtain ⟨hb, hw, he⟩ := h
  rw [hb, List.countP_append] at hd
  obtain ⟨hh₁, hd₁⟩ := hw.high_le_cap hcap ht hh (by omega)
  have ht₁ := hw.tame ht (by omega)
  cases he with
  | cond _ _ hn =>
      obtain ⟨-, -, hg⟩ : Counts _ (Lowering.work _ 1 (-1)) 1 0 1 :=
        .work ht₁ (by omega) (hn.le ht₁ (by omega) (by decide)) (by decide) (by decide)
          (by decide) (by decide) (by decide)
      omega
  | _ => exact hh₁

/-- Every block starts at the same cursor, so the longest one counts. -/
theorem Dispatched.high_le_cap (h : Dispatched p numbers s labels ops s') (ht : s.Tame)
    (hh : s.high.toInt ≤ cap)
    (hd : ∀ label b, p.block? label = some b →
      s.depth.toInt + (b.instrs.countP Instr.isEvaluation : Int) + 3 ≤ cap) :
    s'.high.toInt ≤ cap := by
  induction h with
  | nil => exact hh
  | cons hb _ h hdep _ ih =>
      have hh₁ := h.high_le_cap hcap ht hh (hd _ _ hb)
      have hle := h.high_le
      exact ih (h.tame ht (by omega)) hh₁ (hdep ▸ hd)

end

/-- Labels and jumps that are put in are no instructions on the stack. -/
theorem countP_of_padded {k : Nat} {tagged : List (Option Nat × Instr)}
    (h : Program.Padded k code tagged) :
    (tagged.map (·.2)).countP Instr.isEvaluation = code.countP Instr.isEvaluation := by
  induction h with
  | nil => rfl
  | keep _ ih => rw [List.map_cons, List.countP_cons, List.countP_cons, ih]
  | mark _ _ ih => exact ih
  | jump _ ih => exact ih

/-- A block has no more instructions on the stack than the code it is cut from. -/
theorem countP_block_le {l : Labeler} (hp : Program.build code l = .ok p) {label : Bytes}
    (hb : p.block? label = some b) :
    b.instrs.countP Instr.isEvaluation ≤ code.length := by
  obtain ⟨tagged, hpad, htag⟩ := Program.padded_addJumps code l
  have htext := (Program.partitioned_of_build hp).cuts.text
  have hsub : b.instrs.Sublist (p.blocks.flatMap (·.instrs)) := by
    rw [List.flatMap]
    exact List.sublist_flatten_of_mem (List.mem_map_of_mem (List.mem_of_find?_eq_some hb))
  calc b.instrs.countP Instr.isEvaluation
      ≤ (p.blocks.flatMap (·.instrs)).countP Instr.isEvaluation := hsub.countP_le
    _ = code.countP Instr.isEvaluation := by rw [htext, ← htag, countP_of_padded hpad]
    _ ≤ code.length := List.countP_le_length

/-- A program reaches no farther than its slots and the instructions that it is cut from. -/
theorem lowerProgram_near {l : Labeler} (hp : Program.build code l = .ok p)
    (h : (Lowering.start frame).lowerProgram p = .ok (ops, s')) {size : Nat} (hs : 255 ≤ size)
    (hc : Frame.cells (Frame.available frame code) + code.length + 7 ≤ size)
    (hsize : size < 2 ^ 60) : ∀ part ∈ partsAll ops, part.Near size := by
  have hentry := (Program.partitioned_of_build hp).entry_mem
  have hemits := lowerProgram_emits hentry h
  obtain ⟨-, f, s₀, moves, body, hf, hl, hd, -, -⟩ := lowerProgram_eq_ok h
  rw [← slots_frameFor hp hf] at hc
  obtain ⟨hsz, -, hr, hdep, hh, -⟩ := layout_of_lowerFrom hl (by omega)
  have hcells := hsz.toInt_totalSize
  have hnn := Frame.cells_nonneg hsz.positive
  have hdisp := Dispatched.of_dispatch (s := { s₀ with framed := true }) rfl
    (fun label hm => numberIn_isSome.mpr hm) hd
  have hhigh : s'.high.toInt ≤ Frame.cells f.slots + code.length + 3 := by
    refine hdisp.high_le_cap (by omega) (hsz.tame hr hdep hh) ?_ fun label b hb => ?_
    · show s₀.high.toInt ≤ _
      rw [hh]
      omega
    · have hle := countP_block_le hp hb
      show s₀.depth.toInt + _ + 3 ≤ _
      rw [hdep]
      omega
  have hfits : FitsAll size 0 0 ops :=
    (lower_program hentry h hf (by omega)).fits (by omega) (by omega)
  exact near_of_fits hs hfits hemits.2

/-! ### How much there is to write -/

/-- At most fifteen for an instruction on the stack, and nothing for a mark. -/
theorem Lowered.weights_le (h : Lowered s i ops s') :
    weights (partsAll ops) ≤ 15 * (if i.isEvaluation then 1 else 0) := by
  have hbyte : (Bytes.ascii ".").length = 1 ∧ (Bytes.ascii ",").length = 1 := ⟨rfl, rfl⟩
  cases h with
  | mark => exact Nat.zero_le _
  | _ => simp [partsAll, parts, weight, operands, Instr.isEvaluation, hbyte]

/-- Laying a slot out is one move. -/
theorem Laid.weights_le (h : Laid s i ops s') (hi : ¬ i.opcode.isControl) :
    weights (partsAll ops) ≤ 15 := by
  cases h with
  | eval hi h =>
      have hle := h.weights_le
      rwa [if_pos hi] at hle
  | reserve | unreserve => simp [partsAll, parts, weight, operands]
  | control hc => exact absurd hc hi

theorem LaidAll.weights_le (h : LaidAll s code ops s') (hi : ∀ i ∈ code, ¬ i.opcode.isControl) :
    weights (partsAll ops) ≤ 15 * code.length := by
  induction h with
  | nil => exact Nat.zero_le _
  | cons h _ ih =>
      have hfst := h.weights_le (hi _ List.mem_cons_self)
      have hrest := ih fun j hj => hi j (List.mem_cons_of_mem _ hj)
      rw [partsAll_append, weights_append, List.length_cons]
      omega

/-- Straight-line code has at most fifteen operands to write for an instruction. -/
theorem lower_weights (h : (Lowering.start frame).lower code = .ok (ops, s))
    (hi : ∀ i ∈ code, ¬ i.opcode.isControl) : weights (partsAll ops) ≤ 15 * code.length :=
  (LaidAll.of_lowerFrom rfl h).weights_le hi

theorem LoweredAll.weights_le (h : LoweredAll s code ops s') :
    weights (partsAll ops) ≤ 15 * code.countP Instr.isEvaluation := by
  induction h with
  | nil => exact Nat.zero_le _
  | cons h _ _ ih =>
      have hfst := h.weights_le
      rw [partsAll_append, weights_append, List.countP_cons]
      split_ifs at hfst ⊢ <;> omega

/-- A branch sets the number of the next block twice, and is the longest exit. -/
theorem Exits.weights_le {falls : Option Bytes} {last : List Instr}
    (h : Exits numbers falls s last ops s') : weights (partsAll ops) ≤ 15 := by
  cases h <;> simp [setNext, partsAll, parts, weight, operands]

theorem Blocked.weights_le (h : Blocked numbers b s ops s') :
    weights (partsAll ops) ≤ 15 * b.instrs.countP Instr.isEvaluation + 15 := by
  obtain ⟨hb, hw, he⟩ := h
  have hwork := hw.weights_le
  have hexit := he.weights_le
  rw [partsAll_append, weights_append, hb, List.countP_append]
  omega

/-- A block is written with its selection and its exit. -/
theorem Dispatched.weights_le (h : Dispatched p numbers s labels ops s') :
    weights (partsAll ops) ≤
      27 * labels.length + 15 * (instrsOf p labels).countP Instr.isEvaluation := by
  induction h with
  | nil => exact Nat.zero_le _
  | @cons s _ _ label rest b n body more hb _ h _ _ ih =>
      have hblock := h.weights_le
      have hinstrs : instrsOf p (label :: rest) = b.instrs ++ instrsOf p rest := by
        rw [instrsOf, List.flatMap_cons, hb]
        rfl
      have hselect : weights (partsAll (select s.depth (Int64.ofNat n) body)) =
          12 + weights (partsAll body) := by
        simp [select, partsAll, parts, weight, operands]
        omega
      rw [partsAll_append, weights_append, hselect, hinstrs, List.countP_append, List.length_cons]
      omega

/-- A label that is tried first is not tried again. -/
theorem countP_front_le {e : Bytes} (he : e ∈ labels) (f : Instr → Bool) :
    (instrsOf p (e :: labels.filter fun label => label ≠ e)).countP f ≤
      (instrsOf p labels).countP f := by
  obtain ⟨front, back, rfl⟩ := List.append_of_mem he
  have hfilter : ∀ l : List Bytes, (instrsOf p (l.filter fun label => label ≠ e)).countP f ≤
      (instrsOf p l).countP f := fun l =>
    (List.filter_sublist.flatMap _).countP_le
  have hfront := hfilter front
  have hback := hfilter back
  have happ : ∀ l m : List Bytes, instrsOf p (l ++ m) = instrsOf p l ++ instrsOf p m :=
    fun l m => List.flatMap_append
  have hcons : ∀ l : List Bytes, instrsOf p (e :: l) = instrsOf p [e] ++ instrsOf p l :=
    fun l => happ [e] l
  rw [hcons, List.filter_append, List.filter_cons_of_neg (by simp), happ, happ, hcons back]
  simp only [List.countP_append]
  omega

/-- The blocks have no more instructions on the stack than the code they are cut from, all together.
-/
theorem countP_dispatchOrder_le {l : Labeler} (hp : Program.build code l = .ok p) :
    (instrsOf p (dispatchOrder p)).countP Instr.isEvaluation ≤ code.length := by
  have hpart := Program.partitioned_of_build hp
  obtain ⟨tagged, hpad, htag⟩ := Program.padded_addJumps code l
  calc (instrsOf p (dispatchOrder p)).countP Instr.isEvaluation
      ≤ (instrsOf p p.order).countP Instr.isEvaluation := countP_front_le hpart.entry_mem _
    _ = code.countP Instr.isEvaluation := by
      rw [instrsOf_order hpart (Program.nodup_of_partition (Program.partition_of_build hp)), ← htag,
        countP_of_padded hpad]
    _ ≤ code.length := List.countP_le_length

/-- A program has at most fifteen operands to write for an instruction and for a slot, and a few
more for every block and for the dispatcher. -/
theorem lowerProgram_weights {l : Labeler} (hp : Program.build code l = .ok p)
    (h : (Lowering.start frame).lowerProgram p = .ok (ops, s'))
    (hc : Frame.cells (Frame.available frame code) < 2 ^ 62) :
    (weights (partsAll ops) : Int) ≤
      15 * (Frame.cells (Frame.available frame code) + code.length) + 27 * 255 + 11 := by
  obtain ⟨hb, f, s₀, moves, body, hf, hl, hd, -, rfl⟩ := lowerProgram_eq_ok h
  rw [← slots_frameFor hp hf] at hc ⊢
  have hslots := Frame.length_le_cells (layout_of_lowerFrom hl hc).1.positive
  have hreserves : ∀ i ∈ f.reserves, ¬ i.opcode.isControl := by
    intro i hi
    obtain ⟨t, -, rfl⟩ := List.mem_map.mp hi
    exact Bool.false_ne_true
  have hmoves := (LaidAll.of_lowerFrom rfl hl).weights_le hreserves
  rw [Frame.reserves, List.length_map] at hmoves
  have hbody := (Dispatched.of_dispatch (s := { s₀ with framed := true }) rfl
    (fun label hm => numberIn_isSome.mpr hm) hd).weights_le
  have horder := length_dispatchOrder (Program.partitioned_of_build hp).entry_mem
  have hcount := countP_dispatchOrder_le hp
  have hmax : maxBlocks = 255 := rfl
  have hclose : weights (partsAll (.go controlSize :: (moves ++ close s₀.depth body))) =
      11 + weights (partsAll moves) + weights (partsAll body) := by
    simp [close, partsAll, partsAll_append, parts, weight, operands]
    omega
  rw [hclose]
  omega

end Lowering

end StackTape
