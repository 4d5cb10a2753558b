import StackTape.Proofs.MacroOp.Meaning

/-!
# Rebasing and framing

Three laws of `meaning` that need no machine.

* `meaning_shift`: an operation shifted by `d` does what the operation does with the pointer `d`
  cells further on.
* `meaning_pointer`: a proper operation moves the pointer by its net movement, whatever the cells
  hold.
* `meaning_poke`: a cell that a proper operation does not use neither changes what it does nor is
  changed by it.
-/

namespace StackTape

namespace View

/-! ### Lists of cells from another pointer -/

/-- Cells cleared after a move are cleared farther away, before it. -/
theorem clear_go (v : View) (k : Int64) (ds : List Int64) :
    (v.go k).clear ds = (v.clear (ds.map (k + ·))).go k := by
  induction ds generalizing v with
  | nil => rfl
  | cons d rest ih => rw [clear, put_go, ih, List.map_cons, clear]

/-- Nonzero cells counted after a move are counted farther away. -/
theorem nonzero_go (v : View) (k : Int64) (ds : List Int64) :
    (v.go k).nonzero ds = v.nonzero (ds.map (k + ·)) := by
  simp [nonzero, List.countP_map, Function.comp_def, get_go]

/-- So it is with a test of all of them. -/
theorem all_go (v : View) (k : Int64) (ds : List Int64) :
    (ds.all fun d => (v.go k).get d ≠ 0) = (ds.map (k + ·)).all fun d => v.get d ≠ 0 := by
  simp [List.all_map, Function.comp_def, get_go]

end View

namespace MacroOp

/-! ### Rebasing -/

/-- Offsets are shifted from either side. -/
theorem shiftCells_eq (d : Int64) (cells : List Int64) : shiftCells d cells = cells.map (d + ·) :=
  List.map_congr_left fun c _ => Int64.add_comm c d

/-- Shifting an operation leaves its own movement as it is. -/
theorem moved_shift (d : Int64) (op : MacroOp) : (op.shift d).moved = op.moved := by
  cases op <;> rfl

/-- Shifting operations leaves their net movement as it is. -/
theorem displacement_shiftAll (d : Int64) (ops : List MacroOp) :
    displacement (shiftAll d ops) = displacement ops := by
  induction ops with
  | nil => rfl
  | cons op rest ih => rw [shiftAll, displacement, displacement, moved_shift, ih]

mutual

/-- A shifted operation uses the same cells, shifted. -/
theorem used_shift (d : Int64) : ∀ op : MacroOp, (op.shift d).used = op.used.map (d + ·)
  | .go _ | .control _ => rfl
  | .add .. | .zero _ | .move .. | .unmove .. | .copy .. => by
      simp [shift, used, Int64.add_comm d]
  | .isZero .. | .and .. | .or .. | .xor .. | .isEq .. => by
      simp [shift, used, Int64.add_comm d, shiftCells]
  | .cond src body | .loop src body => by
      simp only [shift, used, usedAll_shiftAll d body, List.map_cons, Int64.add_comm d src]
  | .branch src work whenTrue whenFalse => by
      simp only [shift, used, usedAll_shiftAll d whenTrue, usedAll_shiftAll d whenFalse,
        List.map_cons, List.map_append, Int64.add_comm d src, Int64.add_comm d work]
  | .literal text shifted => by
      simp only [shift, used, List.map_map, Function.comp_def]
      exact List.map_congr_left fun c _ => by grind

theorem usedAll_shiftAll (d : Int64) : ∀ ops : List MacroOp,
    usedAll (shiftAll d ops) = (usedAll ops).map (d + ·)
  | [] => rfl
  | op :: rest => by
      simp only [shiftAll, usedAll, used_shift d op, usedAll_shiftAll d rest, moved_shift,
        List.map_append, List.map_map, Function.comp_def]
      congr 1
      refine List.map_congr_left fun c _ => ?_
      grind

end

/-- Shifting is injective on offsets, wrapping included. -/
theorem add_mem_map_iff (d c : Int64) (cells : List Int64) :
    d + c ∈ cells.map (d + ·) ↔ c ∈ cells :=
  List.mem_map_of_injective fun a b h => by grind

section

variable (v : View) (d : Int64)

/-- A shifted test is the test at the shifted pointer, seen from where it was. -/
theorem test_shift (dst src : Int64) (negated : Bool) (preserve : List Int64) :
    v.test (d + dst) (d + src) negated (preserve.map (d + ·)) =
      ((v.go d).test dst src negated preserve).map (·.go (-d)) := by
  unfold View.test
  simp only [View.get_go]
  match preserve with
  | [] => simp [View.put_go, View.plus_go]
  | [_] => rfl
  | [spare, work] =>
      simp only [List.map_cons, List.map_nil]
      split_ifs <;> simp [View.plus_go]
  | _ :: _ :: _ :: _ => rfl

/-- So is a shifted conjunction. -/
theorem conjunction_shift (dst : Int64) (srcs : List Int64) (work : Int64) :
    v.conjunction (d + dst) (srcs.map (d + ·)) (d + work) =
      ((v.go d).conjunction dst srcs work).map (·.go (-d)) := by
  unfold View.conjunction
  rw [View.all_go, View.get_go, List.length_map, View.clear_go, View.plus_go]
  split_ifs <;> simp

/-- So is a shifted count of nonzero cells. -/
theorem disjunction_shift (dst : Int64) (srcs : List Int64) :
    v.disjunction (d + dst) (srcs.map (d + ·)) =
      ((v.go d).disjunction dst srcs).map (·.go (-d)) := by
  unfold View.disjunction
  rw [View.nonzero_go, View.clear_go, View.plus_go]
  simp

/-- So is a shifted parity. -/
theorem parity_shift (dst : Int64) (srcs : List Int64) (work : Int64) :
    v.parity (d + dst) (srcs.map (d + ·)) (d + work) =
      ((v.go d).parity dst srcs work).map (·.go (-d)) := by
  unfold View.parity
  rw [View.nonzero_go, View.get_go, View.get_go, View.clear_go, View.put_go]
  split_ifs <;> simp

/-- So is a shifted comparison. -/
theorem compare_shift (dst first second : Int64) (works : List Int64) :
    v.compare (d + dst) (d + first) (d + second) (works.map (d + ·)) =
      ((v.go d).compare dst first second works).map (·.go (-d)) := by
  unfold View.compare
  simp only [View.get_go]
  match works with
  | [] => simp [View.put_go, View.plus_go]
  | [_] => rfl
  | [spare, work] =>
      simp only [List.map_cons, List.map_nil]
      split_ifs <;> simp [View.plus_go]
  | _ :: _ :: _ :: _ => rfl

/-- A write seen from where the pointer was. -/
theorem put_shift (src : Int64) (x : UInt8) :
    (v.go (-d)).put (d + src) x = (v.put src x).go (-d) := by
  rw [View.put_go]
  congr 2
  grind

/-- Rounds whose bodies agree up to a shift agree up to it, as often as they run. -/
theorem repeats_shift {body body' : View → Ending} (src : Int64)
    (h : ∀ v : View, body' v = (body (v.go d)).map (·.go (-d))) (n : Nat) :
    View.repeats (d + src) body' n v =
      (View.repeats src body n (v.go d)).map (·.go (-d)) := by
  induction n generalizing v with
  | zero => simp [View.repeats]
  | succ n ih =>
      rw [View.repeats, View.repeats, View.get_go]
      split_ifs with hz
      · simp
      · rw [h]
        refine Ending.bind_map fun u => ?_
        rw [ih, View.go_neg_go]

end

mutual

/-- **An operation shifted by `d`** does what it does with the pointer `d` cells further on. -/
theorem meaning_shift (eof : EofMode) (fuel : Nat) (d : Int64) : ∀ (op : MacroOp) (v : View),
    meaning eof fuel (op.shift d) v = (meaning eof fuel op (v.go d)).map (·.go (-d))
  | .go delta, v => by
      simp only [shift, meaning, Ending.map_done, View.go_go]
      congr 2
      grind
  | .add dst count, v => by
      simp [shift, meaning, View.plus_go, Int64.add_comm dst]
  | .move dst src, v | .unmove dst src, v => by
      simp [shift, meaning, View.plus_go, View.put_go, View.get_go,
        Int64.add_comm dst, Int64.add_comm src]
  | .zero dst, v => by
      simp [shift, meaning, View.put_go, Int64.add_comm dst]
  | .copy dst src work, v => by
      simp only [shift, meaning, View.get_go, Int64.add_comm dst, Int64.add_comm src,
        Int64.add_comm work]
      split_ifs <;> simp [View.plus_go]
  | .isZero dst src negated preserve, v => by
      simp only [shift, meaning, shiftCells_eq, Int64.add_comm dst, Int64.add_comm src, test_shift]
  | .and dst srcs work, v => by
      simp only [shift, meaning, shiftCells_eq, Int64.add_comm dst, Int64.add_comm work,
        conjunction_shift]
  | .or dst srcs, v => by
      simp only [shift, meaning, shiftCells_eq, Int64.add_comm dst, disjunction_shift]
  | .xor dst srcs work, v => by
      simp only [shift, meaning, shiftCells_eq, Int64.add_comm dst, Int64.add_comm work,
        parity_shift]
  | .isEq dst first second works, v => by
      simp only [shift, meaning, shiftCells_eq, Int64.add_comm dst, Int64.add_comm first,
        Int64.add_comm second, compare_shift]
  | .cond src body, v => by
      simp only [shift, meaning, View.get_go, Int64.add_comm src,
        meaningAll_shiftAll eof fuel d body v]
      split_ifs
      · simp
      · exact Ending.bind_map fun u => by rw [put_shift]; rfl
  | .loop src body, v => by
      simp only [shift, meaning, Int64.add_comm src]
      exact repeats_shift v d src (meaningAll_shiftAll eof fuel d body) fuel
  | .branch src work whenTrue whenFalse, v => by
      simp only [shift, meaning, View.get_go, Int64.add_comm src, Int64.add_comm work,
        usedAll_shiftAll, ← List.map_append, add_mem_map_iff,
        meaningAll_shiftAll eof fuel d whenTrue v, meaningAll_shiftAll eof fuel d whenFalse v]
      split_ifs
      · rfl
      · exact Ending.bind_map fun u => by rw [put_shift]; rfl
      · rfl
  | .literal text shifted, v => by
      simp only [shift, meaning, View.go_go, Int64.add_comm shifted]
      split_ifs
      · rfl
      · simp only [Ending.map_done, View.go_go]
        congr 2
        grind
  | .control _, _ => rfl

/-- So it is with operations in sequence, each of which starts where the one before left the
pointer. -/
theorem meaningAll_shiftAll (eof : EofMode) (fuel : Nat) (d : Int64) :
    ∀ (ops : List MacroOp) (v : View), meaningAll eof fuel (shiftAll d ops) v =
      (meaningAll eof fuel ops (v.go d)).map (·.go (-d))
  | [], v => by simp [shiftAll, meaningAll]
  | op :: rest, v => by
      simp only [shiftAll, meaningAll, meaning_shift eof fuel d op v]
      refine Ending.bind_map fun u => ?_
      rw [meaningAll_shiftAll eof fuel d rest, View.go_neg_go]

end

/-! ### The pointer -/

/-- Only the two moves count towards where a text leads. -/
theorem textDisplacement_cons (c : UInt8) (rest : Bytes) :
    textDisplacement (c :: rest) =
      (if c = 0x3E then 1 else if c = 0x3C then -1 else 0) + textDisplacement rest := by
  unfold textDisplacement
  rw [List.count_cons, List.count_cons]
  by_cases h₁ : c = 0x3E
  · subst h₁
    simp only [beq_self_eq_true, if_true, Int64.ofNat_add]
    rw [if_neg (by decide)]
    grind
  by_cases h₂ : c = 0x3C
  · subst h₂
    simp only [beq_self_eq_true, if_true, Int64.ofNat_add]
    rw [if_neg (by decide), if_neg (by decide)]
    grind
  · simp [h₁, h₂]

/-- One instruction moves the pointer as far as it counts towards the text. -/
theorem pointer_byte (eof : EofMode) (c : UInt8) (v : View) :
    (v.byte eof c).pointer =
      v.pointer + if c = 0x3E then 1 else if c = 0x3C then -1 else 0 := by
  by_cases h : c ∈ [0x3E, 0x3C, 0x2B, 0x2D, 0x2E, 0x2C]
  · simp only [List.mem_cons, List.not_mem_nil, or_false] at h
    rcases h with rfl | rfl | rfl | rfl | rfl | rfl
    · simp
    · simp
    · simp
    · simp
    · simp [View.emit]
    · rw [View.byte_read, View.read]
      split <;> simp
  · rw [View.byte_other eof v h]
    simp only [List.mem_cons, not_or] at h
    simp [h.1, h.2.1]

/-- A text without loops moves the pointer by its displacement. -/
theorem pointer_bytes (eof : EofMode) (text : Bytes) (v : View) :
    (v.bytes eof text).pointer = v.pointer + textDisplacement text := by
  induction text generalizing v with
  | nil => simp [View.bytes, textDisplacement]
  | cons c rest ih => rw [View.bytes, ih, pointer_byte, textDisplacement_cons, Int64.add_assoc]

/-- Rounds that leave the pointer where it was do so together. -/
theorem pointer_repeats {src : Int64} {body : View → Ending}
    (h : ∀ v v', body v = .done v' → v'.pointer = v.pointer) (n : Nat) {v v' : View}
    (hr : View.repeats src body n v = .done v') : v'.pointer = v.pointer := by
  induction n generalizing v with
  | zero => cases hr
  | succ n ih =>
      rw [View.repeats] at hr
      split_ifs at hr with hz
      · cases hr; rfl
      · cases hb : body v with
        | done u => rw [hb] at hr; rw [ih hr, h v u hb]
        | more u => rw [hb] at hr; cases hr
        | stuck => rw [hb] at hr; cases hr

/-- What ends has ended in both of its parts. -/
theorem bind_eq_done {x : Ending} {k : View → Ending} {v : View}
    (h : x.bind k = .done v) : ∃ u, x = .done u ∧ k u = .done v := by
  cases x with
  | done u => exact ⟨u, rfl, h⟩
  | more u => cases h
  | stuck => cases h

/-! The tests leave the pointer where it was. -/

section

variable {v v' : View} {dst src first second work : Int64} {negated : Bool}
  {preserve srcs works : List Int64}

/-- A test comes back to where it started. -/
theorem pointer_test (h : v.test dst src negated preserve = .done v') :
    v'.pointer = v.pointer := by
  unfold View.test at h
  split at h
  · cases h
    simp
  · split_ifs at h
    cases h
    simp
  · cases h

/-- So does a conjunction. -/
theorem pointer_conjunction (h : v.conjunction dst srcs work = .done v') :
    v'.pointer = v.pointer := by
  rw [View.conjunction] at h
  split_ifs at h
  cases h
  simp

/-- So does a count of nonzero cells. -/
theorem pointer_disjunction (h : v.disjunction dst srcs = .done v') :
    v'.pointer = v.pointer := by
  cases h
  simp

/-- So does a parity. -/
theorem pointer_parity (h : v.parity dst srcs work = .done v') : v'.pointer = v.pointer := by
  rw [View.parity] at h
  split_ifs at h <;> cases h <;> simp

/-- So does a comparison. -/
theorem pointer_compare (h : v.compare dst first second works = .done v') :
    v'.pointer = v.pointer := by
  unfold View.compare at h
  split at h
  · cases h
    simp
  · split_ifs at h
    cases h
    simp
  · cases h

end

mutual

/-- **A proper operation moves the pointer by its net movement**, whatever the cells hold. -/
theorem meaning_pointer {eof : EofMode} {fuel : Nat} : ∀ (op : MacroOp) {v v' : View},
    op.Proper → meaning eof fuel op v = .done v' → v'.pointer = v.pointer + op.moved
  | .go _, _, _, _, h => by cases h; rfl
  | .add .., _, _, _, h | .move .., _, _, _, h | .unmove .., _, _, _, h | .zero _, _, _, _, h => by
      cases h; simp [moved]
  | .copy .., _, _, _, h => by
      rw [meaning] at h
      split_ifs at h
      cases h
      simp [moved]
  | .isZero .., _, _, _, h => by simpa [moved] using pointer_test h
  | .and .., _, _, _, h => by simpa [moved] using pointer_conjunction h
  | .or .., _, _, _, h => by simpa [moved] using pointer_disjunction h
  | .xor .., _, _, _, h => by simpa [moved] using pointer_parity h
  | .isEq .., _, _, _, h => by simpa [moved] using pointer_compare h
  | .cond src body, v, v', hp, h => by
      rw [meaning] at h
      split_ifs at h
      · cases h; simp [moved]
      · obtain ⟨u, hu, hv⟩ := bind_eq_done h
        cases hv
        have := meaningAll_pointer body hp.2 hu
        simpa [moved, hp.1] using this
  | .loop src body, v, v', hp, h => by
      rw [meaning] at h
      have hb : ∀ u u', meaningAll eof fuel body u = .done u' → u'.pointer = u.pointer :=
        fun u u' hu => by simpa [hp.1] using meaningAll_pointer body hp.2 hu
      simpa [moved] using pointer_repeats hb fuel h
  | .branch src work whenTrue whenFalse, v, v', hp, h => by
      obtain ⟨-, ⟨ht, hpt⟩, hf, hpf⟩ := hp
      rw [meaning] at h
      split_ifs at h
      · simpa [moved, hf] using meaningAll_pointer whenFalse hpf h
      · obtain ⟨u, hu, hv⟩ := bind_eq_done h
        cases hv
        simpa [moved, ht] using meaningAll_pointer whenTrue hpt hu
  | .literal text shifted, _, _, _, h => by
      rw [meaning] at h
      split_ifs at h
      cases h
      simp only [View.pointer_go, pointer_bytes, moved]
      grind
  | .control _, _, _, hp, _ => hp.elim

/-- Operations in sequence move the pointer by the sum of what each of them does. -/
theorem meaningAll_pointer {eof : EofMode} {fuel : Nat} : ∀ (ops : List MacroOp) {v v' : View},
    ProperAll ops → meaningAll eof fuel ops v = .done v' →
      v'.pointer = v.pointer + displacement ops
  | [], _, _, _, h => by cases h; simp [displacement]
  | op :: rest, v, v', hp, h => by
      obtain ⟨u, hu, hv⟩ := bind_eq_done h
      rw [meaningAll_pointer rest hp.2 hv, meaning_pointer op hp.1 hu, displacement,
        Int64.add_assoc]

end

/-! ### Cells that are not used -/

section

variable {v : View} {a : Int64} (x : UInt8)

theorem go_poke (d : Int64) : (v.poke a x).go d = (v.go d).poke a x := rfl

/-- A change elsewhere is not read. -/
theorem get_poke {d : Int64} (h : a ≠ v.pointer + d) : (v.poke a x).get d = v.get d :=
  Function.update_of_ne (Ne.symm h) _ _

/-- A change elsewhere and a write may change places. -/
theorem put_poke {d : Int64} (h : a ≠ v.pointer + d) (y : UInt8) :
    (v.poke a x).put d y = (v.put d y).poke a x := by
  simp [View.put, View.poke, Function.update_comm h]

theorem plus_poke {d : Int64} (h : a ≠ v.pointer + d) (y : UInt8) :
    (v.poke a x).plus d y = (v.plus d y).poke a x := by
  rw [View.plus, get_poke x h, put_poke x h, View.plus]

theorem clear_poke {ds : List Int64} (h : ∀ d ∈ ds, a ≠ v.pointer + d) :
    (v.poke a x).clear ds = (v.clear ds).poke a x := by
  induction ds generalizing v with
  | nil => rfl
  | cons d rest ih =>
      rw [View.clear, put_poke x (h d (by simp)),
        ih (v := v.put d 0) fun e he => h e (by simp [he]), View.clear]

theorem nonzero_poke {ds : List Int64} (h : ∀ d ∈ ds, a ≠ v.pointer + d) :
    (v.poke a x).nonzero ds = v.nonzero ds :=
  List.countP_congr fun d hd => by rw [get_poke x (h d hd)]

theorem all_poke {ds : List Int64} (h : ∀ d ∈ ds, a ≠ v.pointer + d) :
    (ds.all fun d => (v.poke a x).get d ≠ 0) = ds.all fun d => v.get d ≠ 0 := by
  rw [Bool.eq_iff_iff, List.all_eq_true, List.all_eq_true]
  exact forall₂_congr fun d hd => by rw [get_poke x (h d hd)]

theorem read_poke (eof : EofMode) (h : a ≠ v.pointer + 0) :
    (v.poke a x).read eof = (v.read eof).poke a x := by
  unfold View.read
  rw [get_poke x h]
  cases hi : v.input with
  | nil =>
      rw [show (v.poke a x).input = [] from hi]
      exact put_poke x h _
  | cons b rest =>
      rw [show (v.poke a x).input = b :: rest from hi]
      exact put_poke (v := { v with input := rest }) x h b

theorem emit_poke (h : a ≠ v.pointer + 0) : (v.poke a x).emit = v.emit.poke a x := by
  rw [View.emit, get_poke x h]
  rfl

/-- Only the instructions that touch the cell under the pointer can see a change there. -/
theorem byte_poke (eof : EofMode) {c : UInt8}
    (h : c ∈ [0x2B, 0x2D, 0x2E, 0x2C] → a ≠ v.pointer + 0) :
    (v.poke a x).byte eof c = (v.byte eof c).poke a x := by
  by_cases hc : c ∈ [0x3E, 0x3C, 0x2B, 0x2D, 0x2E, 0x2C]
  · simp only [List.mem_cons, List.not_mem_nil, or_false] at hc
    rcases hc with rfl | rfl | rfl | rfl | rfl | rfl
    · rw [View.byte_right, View.byte_right, go_poke]
    · rw [View.byte_left, View.byte_left, go_poke]
    · rw [View.byte_up, View.byte_up, plus_poke x (h (by simp))]
    · rw [View.byte_down, View.byte_down, plus_poke x (h (by simp))]
    · rw [View.byte_write, View.byte_write, emit_poke x (h (by simp))]
    · rw [View.byte_read, View.byte_read, read_poke x eof (h (by simp))]
  · rw [View.byte_other eof _ hc, View.byte_other eof _ hc]

/-- A text does not see what is changed outside of the cells it visits. -/
theorem bytes_poke (eof : EofMode) {text : Bytes} (h : ∀ d ∈ textCells text, a ≠ v.pointer + d) :
    (v.poke a x).bytes eof text = (v.bytes eof text).poke a x := by
  induction text generalizing v with
  | nil => rfl
  | cons c rest ih =>
      rw [View.bytes, View.bytes, byte_poke x eof, ih]
      · intro d hd
        rw [pointer_byte, Int64.add_assoc]
        refine h _ ?_
        rw [textCells]
        split_ifs with h₁ h₂ h₃
        · exact List.mem_map_of_mem hd
        · exact List.mem_map_of_mem hd
        · simp [hd]
        · simpa using hd
      · intro hc
        refine h 0 ?_
        rw [textCells, if_neg, if_neg, if_pos hc]
        · simp
        · rintro rfl; simp at hc
        · rintro rfl; simp at hc

section

variable {dst src first second work : Int64} {preserve srcs works : List Int64}

/-- A test does not see what is changed outside of its cells. -/
theorem test_poke (negated : Bool) (hd : a ≠ v.pointer + dst) (hs : a ≠ v.pointer + src)
    (hp : ∀ d ∈ preserve, a ≠ v.pointer + d) :
    (v.poke a x).test dst src negated preserve =
      (v.test dst src negated preserve).map (·.poke a x) := by
  unfold View.test
  rw [get_poke x hs]
  match preserve with
  | [] =>
      dsimp only
      rw [put_poke x hs, plus_poke x (by simpa using hd)]
      rfl
  | [_] => rfl
  | [spare, work] =>
      dsimp only
      rw [get_poke x (hp spare (by simp)), get_poke x (hp work (by simp)), plus_poke x hd]
      split_ifs <;> rfl
  | _ :: _ :: _ :: _ => rfl

/-- Nor does a conjunction. -/
theorem conjunction_poke (hd : a ≠ v.pointer + dst) (hs : ∀ d ∈ srcs, a ≠ v.pointer + d)
    (hw : a ≠ v.pointer + work) :
    (v.poke a x).conjunction dst srcs work =
      (v.conjunction dst srcs work).map (·.poke a x) := by
  rw [View.conjunction, View.conjunction, all_poke x hs, clear_poke x hs, get_poke x hw,
    plus_poke x (by simpa using hd)]
  split_ifs <;> rfl

/-- Nor does a count of nonzero cells. -/
theorem disjunction_poke (hd : a ≠ v.pointer + dst) (hs : ∀ d ∈ srcs, a ≠ v.pointer + d) :
    (v.poke a x).disjunction dst srcs = (v.disjunction dst srcs).map (·.poke a x) := by
  rw [View.disjunction, View.disjunction, nonzero_poke x hs, clear_poke x hs,
    plus_poke x (by simpa using hd)]
  rfl

/-- Nor does a parity. -/
theorem parity_poke (hd : a ≠ v.pointer + dst) (hs : ∀ d ∈ srcs, a ≠ v.pointer + d)
    (hw : a ≠ v.pointer + work) :
    (v.poke a x).parity dst srcs work = (v.parity dst srcs work).map (·.poke a x) := by
  rw [View.parity, View.parity, nonzero_poke x hs, clear_poke x hs, get_poke x hw, get_poke x hd,
    put_poke x (by simpa using hd)]
  split_ifs <;> rfl

/-- Nor does a comparison. -/
theorem compare_poke (hd : a ≠ v.pointer + dst) (h₁ : a ≠ v.pointer + first)
    (h₂ : a ≠ v.pointer + second) (hw : ∀ d ∈ works, a ≠ v.pointer + d) :
    (v.poke a x).compare dst first second works =
      (v.compare dst first second works).map (·.poke a x) := by
  unfold View.compare
  rw [get_poke x h₁, get_poke x h₂]
  match works with
  | [] =>
      dsimp only
      rw [put_poke x h₁, put_poke x (by simpa using h₂), plus_poke x (by simpa using hd)]
      rfl
  | [_] => rfl
  | [spare, work] =>
      dsimp only
      rw [get_poke x (hw spare (by simp)), get_poke x (hw work (by simp)), plus_poke x hd]
      split_ifs <;> rfl
  | _ :: _ :: _ :: _ => rfl

end

/-- The cell that a condition clears afterwards is not the one that was changed. -/
theorem bind_poke_put {y : Ending} {src : Int64} (hs : a ≠ v.pointer + src)
    (h : ∀ u, y = .done u → u.pointer = v.pointer) :
    ((y.map (·.poke a x)).bind fun u => .done (u.put src 0)) =
      (y.bind fun u => .done (u.put src 0)).map (·.poke a x) := by
  cases y with
  | done u => exact congrArg Ending.done (put_poke x ((h u rfl).symm ▸ hs) 0)
  | more u => rfl
  | stuck => rfl

/-- Rounds that come back to their cell and do not see a change do not see it together. -/
theorem repeats_poke {body : View → Ending} {src : Int64} (hs : a ≠ v.pointer + src)
    (hb : ∀ u : View, u.pointer = v.pointer → body (u.poke a x) = (body u).map (·.poke a x))
    (hp : ∀ u u', body u = .done u' → u'.pointer = u.pointer) (n : Nat) :
    View.repeats src body n (v.poke a x) = (View.repeats src body n v).map (·.poke a x) := by
  suffices ∀ u : View, u.pointer = v.pointer →
      View.repeats src body n (u.poke a x) = (View.repeats src body n u).map (·.poke a x) from
    this v rfl
  induction n with
  | zero => intro u _; rfl
  | succ n ih =>
      intro u hu
      rw [View.repeats, View.repeats, get_poke x (hu ▸ hs), hb u hu]
      split_ifs with hz
      · rfl
      · cases hd : body u with
        | done u' => exact ih u' ((hp u u' hd).trans hu)
        | more u' => rfl
        | stuck => rfl

end

mutual

/-- **A cell that a proper operation does not use** neither changes what it does nor is changed
by it. -/
theorem meaning_poke {eof : EofMode} {fuel : Nat} {a : Int64} (x : UInt8) :
    ∀ (op : MacroOp) {v : View}, op.Proper → (∀ d ∈ op.used, a ≠ v.pointer + d) →
      meaning eof fuel op (v.poke a x) = (meaning eof fuel op v).map (·.poke a x)
  | .go _, _, _, _ => rfl
  | .add dst count, v, _, h => by
      rw [meaning, meaning, plus_poke x (h dst (by simp [used]))]
      rfl
  | .move dst src, v, _, h | .unmove dst src, v, _, h => by
      have hd := h dst (by simp [used])
      have hs := h src (by simp [used])
      rw [meaning, meaning, get_poke x hs, plus_poke x hd, put_poke x (by simpa using hs)]
      rfl
  | .zero dst, v, _, h => by
      rw [meaning, meaning, put_poke x (h dst (by simp [used]))]
      rfl
  | .copy dst src work, v, _, h => by
      have hd := h dst (by simp [used])
      rw [meaning, meaning, get_poke x (h src (by simp [used])),
        get_poke x (h work (by simp [used])), plus_poke x hd]
      split_ifs <;> rfl
  | .isZero dst src negated preserve, _, _, h =>
      test_poke x negated (h dst (by simp [used])) (h src (by simp [used]))
        fun d hd => h d (by simp [used, hd])
  | .and dst srcs work, _, _, h =>
      conjunction_poke x (h dst (by simp [used])) (fun d hd => h d (by simp [used, hd]))
        (h work (by simp [used]))
  | .or dst srcs, _, _, h =>
      disjunction_poke x (h dst (by simp [used])) fun d hd => h d (by simp [used, hd])
  | .xor dst srcs work, _, _, h =>
      parity_poke x (h dst (by simp [used])) (fun d hd => h d (by simp [used, hd]))
        (h work (by simp [used]))
  | .isEq dst first second works, _, _, h =>
      compare_poke x (h dst (by simp [used])) (h first (by simp [used]))
        (h second (by simp [used])) fun d hd => h d (by simp [used, hd])
  | .cond src body, v, hp, h => by
      have hs := h src (by simp [used])
      rw [meaning, meaning, get_poke x hs,
        meaningAll_poke x body hp.2 fun d hd => h d (by simp [used, hd])]
      split_ifs with hz
      · rfl
      · exact bind_poke_put x hs fun u hu => by
          simpa [hp.1] using meaningAll_pointer body hp.2 hu
  | .loop src body, v, hp, h => by
      have hn : ∀ u u', meaningAll eof fuel body u = .done u' → u'.pointer = u.pointer :=
        fun u u' hu => by simpa [hp.1] using meaningAll_pointer body hp.2 hu
      rw [meaning, meaning]
      exact repeats_poke x (h src (by simp [used]))
        (fun u hu => meaningAll_poke x body hp.2 fun d hd => hu ▸ h d (by simp [used, hd])) hn fuel
  | .branch src work whenTrue whenFalse, v, hp, h => by
      obtain ⟨-, ⟨ht, hpt⟩, -, hpf⟩ := hp
      have hs := h src (by simp [used])
      rw [meaning, meaning, get_poke x hs, get_poke x (h work (by simp [used])),
        meaningAll_poke x whenTrue hpt fun d hd => h d (by simp [used, hd]),
        meaningAll_poke x whenFalse hpf fun d hd => h d (by simp [used, hd])]
      split_ifs with hw hz
      · rfl
      · exact bind_poke_put x hs fun u hu => by
          simpa [ht] using meaningAll_pointer whenTrue hpt hu
      · rfl
  | .literal text shifted, v, _, h => by
      rw [meaning, meaning]
      split_ifs
      · rfl
      · rw [go_poke, bytes_poke x eof, go_poke]
        · rfl
        · intro d hd
          rw [View.pointer_go, Int64.add_assoc]
          exact h _ (List.mem_map_of_mem hd)
  | .control _, _, _, _ => rfl

/-- So it is with operations in sequence: the cells that are used are counted from the start. -/
theorem meaningAll_poke {eof : EofMode} {fuel : Nat} {a : Int64} (x : UInt8) :
    ∀ (ops : List MacroOp) {v : View}, ProperAll ops → (∀ d ∈ usedAll ops, a ≠ v.pointer + d) →
      meaningAll eof fuel ops (v.poke a x) = (meaningAll eof fuel ops v).map (·.poke a x)
  | [], _, _, _ => rfl
  | op :: rest, v, hp, h => by
      rw [meaningAll, meaningAll,
        meaning_poke x op hp.1 fun d hd => h d (by simp [usedAll, hd])]
      cases hm : meaning eof fuel op v with
      | done u =>
          refine meaningAll_poke x rest hp.2 fun d hd => ?_
          rw [meaning_pointer op hp.1 hm, Int64.add_assoc]
          exact h _ (List.mem_append_right _ (List.mem_map_of_mem hd))
      | more u => rfl
      | stuck => rfl

end

end MacroOp

end StackTape
