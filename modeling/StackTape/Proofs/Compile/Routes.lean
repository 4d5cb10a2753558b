import StackTape.Proofs.Compile.Extent
import StackTape.Proofs.Lowering.Growing

/-!
# Code with and without a block around it

Code without control flow is compiled as it stands, and with a label in front of it as a program of
one block (`build_label`).  A block finds its frame laid out once and for all; straight-line code
lays out and releases slots as it goes, and takes cells again that are no longer zero.  So the two
texts write the same where no stack work follows a release and slots are laid out while there are no
operands (`compile_label_agrees`), and not in general (`compile_label_differs`).
-/

namespace StackTape

open Machine MacroOp Lowering

namespace Program

variable {code : List Instr} (hc : ∀ i ∈ code, ¬ i.opcode.isControl)

include hc

theorem not_isTerminator : ∀ i ∈ code, i.isTerminator = false := by
  intro i hi
  have := hc i hi
  cases i with
  | jump | cond => exact absurd rfl this
  | _ => rfl

theorem labels_eq_nil : Instr.labels code = [] := by
  refine List.filterMap_eq_nil_iff.mpr fun i hi => ?_
  have := hc i hi
  cases i with
  | label => exact absurd rfl this
  | _ => rfl

theorem insertLabels_eq (l : Labeler) : insertLabels false code l = (code, l) := by
  induction code with
  | nil => rfl
  | cons i rest ih =>
      rw [insertLabels, Bool.false_and, if_neg Bool.false_ne_true,
        not_isTerminator hc i (by simp), ih fun j hj => hc j (by simp [hj])]

theorem addJumps_eq (i : Instr) : addJumps (i :: code) = i :: code := by
  induction code generalizing i with
  | nil => rfl
  | cons j rest ih =>
      have hj := hc j (by simp)
      rw [addJumps_cons, ih (fun k hk => hc k (by simp [hk])) j]
      cases j with
      | label => exact absurd rfl hj
      | _ => rfl

theorem cut_eq (done : List Block) (cur : Block) :
    cut done cur code = .ok ((code.foldl extend cur :: done).reverse) := by
  induction code generalizing cur with
  | nil => rfl
  | cons i rest ih =>
      have hi : i.label? = none := List.filterMap_eq_nil_iff.mp (labels_eq_nil hc) i (by simp)
      rw [cut_other hi, ih (fun j hj => hc j (by simp [hj])), List.foldl_cons]

theorem foldl_extend_eq (b : Block) :
    code.foldl extend b = { b with instrs := b.instrs ++ code } := by
  induction code generalizing b with
  | nil => rw [List.foldl_nil, List.append_nil]
  | cons i rest ih =>
      rw [List.foldl_cons, extend_of_not_terminator (not_isTerminator hc i (by simp)),
        ih fun j hj => hc j (by simp [hj])]
      simp

/-- **Code with a label in front is a program of one block**, which goes on nowhere. -/
theorem build_label (name : Bytes) (l : Labeler) :
    build (.label name :: code) l =
      .ok ⟨name, [name], [⟨name, .label name :: code, [], []⟩]⟩ := by
  have hlabels : (addLabels (.label name :: code) l).1 = .label name :: code := by
    rw [addLabels, insertLabels, if_neg (by simp [Instr.label?])]
    show Instr.label name :: (insertLabels false code _).1 = _
    rw [insertLabels_eq hc]
  have hpart : partition (.label name :: code) =
      .ok ⟨name, [name], [⟨name, .label name :: code, [], []⟩]⟩ := by
    rw [partition, cut_eq hc, foldl_extend_eq hc]
    rfl
  rw [build, hlabels, addJumps_eq hc, hpart]
  simp [validate, block?, checkBlocks, checkExits]

theorem runFrom_eq (eof : EofMode) (exit : Option Bytes) (σ : Store) :
    Block.runFrom eof exit code σ = (Instr.effectAll eof code σ).map (exit, ·) := by
  induction code generalizing σ with
  | nil => rfl
  | cons i rest ih =>
      rw [Lowering.runFrom_cons (not_isTerminator hc i (by simp)), Instr.effectAll,
        Option.map_bind]
      exact Option.bind_congr fun σ₁ _ => ih (fun j hj => hc j (by simp [hj])) σ₁

/-- The program of one block halts after it. -/
theorem after_label (name : Bytes) (eof : EofMode) {σ σ' : Store}
    (h : Instr.effectAll eof code σ = some σ') :
    after ⟨name, [name], [⟨name, .label name :: code, [], []⟩]⟩ eof σ 1 = some (none, σ') := by
  have hrun : Block.run eof ⟨name, .label name :: code, [], []⟩ σ =
      (Instr.effectAll eof code σ).map (none, ·) := by
    rw [← runFrom_eq hc]
    rfl
  have hblock : block? ⟨name, [name], [⟨name, .label name :: code, [], []⟩]⟩ name =
      some ⟨name, .label name :: code, [], []⟩ := by
    simp [block?]
  rw [after, after, Option.bind_some, advance, hblock, Option.bind_some, hrun, h, Option.map_some]

end Program

namespace Instr

theorem not_isControl_of_level {n : Nat} {code : List Instr} (h : level n code) :
    ∀ i ∈ code, ¬ i.opcode.isControl := by
  induction code generalizing n with
  | nil => nofun
  | cons j rest ih =>
      have hrest : ∃ n', level n' rest := by
        cases j with
        | reserve => exact ⟨n, (Bool.and_eq_true_iff.mp h).2⟩
        | _ => exact ⟨_, (Bool.and_eq_true_iff.mp h).2⟩
      obtain ⟨n', hrest⟩ := hrest
      intro i hi
      rcases List.mem_cons.mp hi with rfl | hi
      · cases i with
        | label | jump | cond => cases h
        | _ => exact Bool.false_ne_true
      · exact ih hrest i hi

theorem not_isControl_of_isSlotWork {i : Instr} (h : i.isSlotWork) : ¬ i.opcode.isControl := by
  cases i with
  | reserve | unreserve => exact Bool.false_ne_true
  | _ => cases h

theorem not_isControl_of_level_append {front back : List Instr} (hf : level 0 front)
    (hb : ∀ i ∈ back, i.isSlotWork) : ∀ i ∈ front ++ back, ¬ i.opcode.isControl := by
  intro i hi
  rcases List.mem_append.mp hi with hi | hi
  · exact not_isControl_of_level hf i hi
  · exact not_isControl_of_isSlotWork (hb i hi)

end Instr

section

variable {capacity : Int64} {input : Source} {sink : Sink} {m : Machine}
  (hm : Machine.new? capacity input sink = some m) (hi : input.allowance = none)
  (hk : sink.Tireless) {o : Options} (ho : o.maxSteps = 0)

include hm hi hk ho

/-- Straight-line code comes to its end on a fresh machine if its operations do. -/
theorem Output.build_ends {code : List Instr} (hn : ∀ i ∈ code, ¬ i.opcode.isControl)
    (hs : Frame.cells (Frame.available none code) < 2 ^ 62) {ops : List MacroOp} {s : Lowering}
    (hl : (Lowering.start none).lower code = .ok (ops, s)) {out : Output}
    (hc : Output.build code none = .ok out) (hx : out.extent.toInt < m.capacity) {v : View}
    (hv : meaningAll o.eof 0 ops ⟨fun _ => 0, 0, input.remaining, []⟩ = .done v) :
    ∃ r, m.Ends o out.code r ∧ r.stop = none ∧ r.machine.output = sink.after v.output ∧
      r.machine.input.remaining = v.input := by
  have hstays := Output.build_staysOnTape (by simp) hs hm (Instr.not_hasControl_iff.mpr hn) hc hx o
  have hg : Output.generate ops s.extent = .ok out := by
    rw [Output.build, hl] at hc
    exact hc
  obtain ⟨hview, hloops, -, rfl, rfl⟩ := Machine.view_new hm
  rw [← hview] at hv
  have hperf := Output.performs_of_generate ((LaidAll.of_lowerFrom rfl hl).proper hn) hg o.eof 0
  obtain ⟨r, hr, hh⟩ := hperf.ends ho (Sound.new hm) hloops hi hk hstays hv
  exact ⟨r, hr, hh.stop, hh.shows.output, hh.shows.input⟩

/-- Level code with slot work behind it, compiled as it stands. -/
theorem Output.build_level {front back : List Instr} (hfront : Instr.level 0 front)
    (hback : ∀ i ∈ back, i.isSlotWork)
    (hs : Frame.cells (Frame.available none (front ++ back)) < 2 ^ 62) {out : Output}
    (hc : Output.build (front ++ back) none = .ok out) (hx : out.extent.toInt < m.capacity) :
    ∃ r σ, m.Ends o out.code r ∧ r.stop = none ∧
      Instr.effectAll o.eof (front ++ back) (Store.initial input.remaining) = some σ ∧
      r.machine.output = sink.after σ.output ∧ r.machine.input.remaining = σ.input := by
  have hcontrol := Instr.not_isControl_of_level_append hfront hback
  obtain ⟨ops, s, hl, hg⟩ := Output.build_eq_ok hc
  have hlaid := LaidAll.of_lowerFrom rfl hl
  have hmodest := hlaid.modest (by simp [Lowering.start]) hs
  -- the work goes on as on the stack machine; what follows it only moves the pointer
  obtain ⟨work, s₁, moves, hwork, hmoves, rfl⟩ := lowerFrom_append hl
  have hw := LaidAll.of_lowerFrom rfl hwork
  have hb := LaidAll.of_lowerFrom hw.same.2.2 hmoves
  have hhigh : s₁.high.toInt < 2 ^ 62 := by
    have hle := hb.high_le
    have hcap := (Sound.new hm).possible
    unfold largestCapacity at hcap
    rw [(Output.generate_eq_ok hg).1, hlaid.extent] at hx
    omega
  -- before the first instruction there are no slots
  have hempty : Frame.Sized {} := ⟨List.nodup_nil, nofun, by decide⟩
  have hof : (hempty.layout 0).Of (Lowering.start none) := ⟨rfl, rfl⟩
  obtain ⟨σ, v, he, hv, hin, hout⟩ := hw.meaning hfront
    (hmodest.subset (List.subset_append_left ..)) (tidy_start none) hhigh
    hof ((hempty.layout 0).pictures_initial rfl input.remaining) (fun _ _ => rfl) rfl o.eof 0
  obtain ⟨d, hd⟩ := hb.moves hback o.eof 0
  have hmean : meaningAll o.eof 0 (work ++ moves) ⟨fun _ => 0, 0, input.remaining, []⟩ =
      .done (v.go d) := by
    rw [meaningAll_append]
    exact (congrArg (Ending.bind · _) hv).trans (hd v)
  obtain ⟨r, hr, hstop, hrout, hrin⟩ :=
    Output.build_ends hm hi hk ho hcontrol hs hl hc hx hmean
  refine ⟨r, σ, hr, hstop, ?_, ?_, ?_⟩
  · rw [Instr.effectAll_append, he, Option.bind_some, Instr.effectAll_of_isSlotWork _ hback]
  · rw [hrout, ← hout]
    rfl
  · rw [hrin, ← hin]
    rfl

/-- Code with a label in front, compiled as a program. -/
theorem Output.compile_label {code : List Instr} (hn : ∀ i ∈ code, ¬ i.opcode.isControl)
    (hs : Frame.cells (Frame.available none code) < 2 ^ 62) {name : Bytes} {out : Output}
    (hc : Output.compile (.label name :: code) none = .ok out) {σ : Store}
    (he : Instr.effectAll o.eof code (Store.initial input.remaining) = some σ)
    (hx₀ : 0 ≤ out.extent.toInt) (hx : out.extent.toInt < m.capacity) :
    ∃ r, m.Ends o out.code r ∧ r.stop = none ∧ r.machine.output = sink.after σ.output ∧
      r.machine.input.remaining = σ.input := by
  have hb := Program.build_label hn name { stem := Output.labelStem }
  have hcontrol : Instr.hasControl (.label name :: code) := rfl
  rw [Output.compile, if_pos hcontrol, hb] at hc
  obtain ⟨ops, s, hl, -⟩ := Output.buildProgram_eq_ok hc
  obtain ⟨-, f, -, -, -, hf, -⟩ := lowerProgram_eq_ok hl
  have hs' : Frame.cells f.slots < 2 ^ 62 := by
    rw [slots_frameFor hb hf]
    exact hs
  obtain ⟨r, hr, hstop, hout, hin, -⟩ := Output.ends_of_halted hb hf hs' hc hm hi hk ho hx₀ hx
    (Program.after_label hn name o.eof he)
  exact ⟨r, hr, hstop, hout, hin⟩

end

/-- **The two texts agree** on code that lays out slots while there are no operands and does no
stack work after a release: both runs end without a fault, and they have read and written what the
stack machine has. -/
theorem Output.compile_label_agrees {front back : List Instr} (hfront : Instr.level 0 front)
    (hback : ∀ i ∈ back, i.isSlotWork)
    (hs : Frame.cells ((front ++ back).filterMap Frame.slotOf?) < 2 ^ 62) {name : Bytes}
    {out out' : Output} (hc : Output.compile (front ++ back) none = .ok out)
    (hc' : Output.compile (.label name :: (front ++ back)) none = .ok out')
    {capacity capacity' : Int64} {input : Source} {sink : Sink} {m m' : Machine}
    (hm : Machine.new? capacity input sink = some m)
    (hm' : Machine.new? capacity' input sink = some m') (hi : input.allowance = none)
    (hk : sink.Tireless) {o : Options} (ho : o.maxSteps = 0)
    (hx : out.extent.toInt < m.capacity) (hx₀' : 0 ≤ out'.extent.toInt)
    (hx' : out'.extent.toInt < m'.capacity) :
    ∃ r r' σ, m.Ends o out.code r ∧ m'.Ends o out'.code r' ∧ r.stop = none ∧ r'.stop = none ∧
      Instr.effectAll o.eof (front ++ back) (Store.initial input.remaining) = some σ ∧
      r.machine.output = sink.after σ.output ∧ r'.machine.output = sink.after σ.output ∧
      r.machine.input.remaining = σ.input ∧ r'.machine.input.remaining = σ.input := by
  have hcontrol := Instr.not_isControl_of_level_append hfront hback
  rw [Output.compile, if_neg (Instr.not_hasControl_iff.mpr hcontrol)] at hc
  obtain ⟨r, σ, hr, hstop, he, hout, hin⟩ :=
    Output.build_level hm hi hk ho hfront hback hs hc hx
  obtain ⟨r', hr', hstop', hout', hin'⟩ :=
    Output.compile_label hm' hi hk ho hcontrol hs hc' he hx₀' hx'
  exact ⟨r, r', σ, hr, hr', hstop, hstop', he, hout, hout', hin, hin'⟩

/-- A byte is read, kept in a slot and written. -/
theorem Output.compile_label_agrees_echo :
    ∃ m out out' r r', Machine.new? 16 { behind := [65] } {} = some m ∧
      Output.compile [.reserve [0x78] 1, .read, .dup, .pop [0x78], .write,
        .unreserve [0x78] 1] none = .ok out ∧
      Output.compile [.label [0x73], .reserve [0x78] 1, .read, .dup, .pop [0x78], .write,
        .unreserve [0x78] 1] none = .ok out' ∧
      m.Ends {} out.code r ∧ m.Ends {} out'.code r' ∧ r.machine.output.written = #[65] ∧
      r'.machine.output.written = #[65] := by
  obtain ⟨out, hc, hx⟩ := exists_ok_of_map_eq_some (show (Output.compile [.reserve [0x78] 1, .read,
      .dup, .pop [0x78], .write, .unreserve [0x78] 1] none).toOption.map (·.extent) = some 4 by
    decide +kernel)
  obtain ⟨out', hc', hx'⟩ := exists_ok_of_map_eq_some (show (Output.compile [.label [0x73],
      .reserve [0x78] 1, .read, .dup, .pop [0x78], .write, .unreserve [0x78] 1]
      none).toOption.map (·.extent) = some 7 by decide +kernel)
  have hm : Machine.new? 16 { behind := [65] } {} =
      some { capacity := 16, input := { behind := [65] } } := rfl
  have hfront : Instr.level 0 [.reserve [0x78] 1, .read, .dup, .pop [0x78], .write] := rfl
  have hback : ∀ i ∈ [Instr.unreserve [0x78] 1], i.isSlotWork := by simp [Instr.isSlotWork]
  obtain ⟨r, r', σ, hr, hr', -, -, he, hout, hout', -⟩ :=
    Output.compile_label_agrees hfront hback (by decide) hc hc' hm hm rfl (.inr rfl) (o := {}) rfl
      (by rw [hx]; decide) (by rw [hx']; decide) (by rw [hx']; decide)
  obtain rfl := Option.some.inj he
  exact ⟨_, out, out', r, r', hm, hc, hc', hr, hr', by rw [hout]; rfl, by rw [hout']; rfl⟩

/-- A push after a release meets the byte that was kept in the slot: `5 + 65` is written where the
program writes `65`. -/
theorem Output.compile_label_differs :
    ∃ m out out' r r', Machine.new? 16 {} {} = some m ∧
      Output.compile [.reserve [0x78] 1, .push [0x35, 0x63], .pop [0x78], .unreserve [0x78] 1,
        .push [0x36, 0x35, 0x63], .write] none = .ok out ∧
      Output.compile [.label [0x73], .reserve [0x78] 1, .push [0x35, 0x63], .pop [0x78],
        .unreserve [0x78] 1, .push [0x36, 0x35, 0x63], .write] none = .ok out' ∧
      m.Ends {} out.code r ∧ m.Ends {} out'.code r' ∧ r.stop = none ∧ r'.stop = none ∧
      r.machine.output.written = #[70] ∧ r'.machine.output.written = #[65] := by
  obtain ⟨out, hc, hx⟩ := exists_ok_of_map_eq_some (show (Output.compile [.reserve [0x78] 1,
      .push [0x35, 0x63], .pop [0x78], .unreserve [0x78] 1, .push [0x36, 0x35, 0x63], .write]
      none).toOption.map (·.extent) = some 2 by decide +kernel)
  obtain ⟨out', hc', hx'⟩ := exists_ok_of_map_eq_some (show (Output.compile [.label [0x73],
      .reserve [0x78] 1, .push [0x35, 0x63], .pop [0x78], .unreserve [0x78] 1,
      .push [0x36, 0x35, 0x63], .write] none).toOption.map (·.extent) = some 5 by decide +kernel)
  have hm : Machine.new? 16 {} {} = some { capacity := 16 } := rfl
  -- the code as it stands, by the meaning of its operations
  have hb := hc
  rw [Output.compile, if_neg (by decide)] at hb
  obtain ⟨r, hr, hstop, hout, -⟩ := Output.build_ends hm rfl (.inr rfl) (o := {}) rfl
    (Instr.not_hasControl_iff.mp (by decide)) (by decide) rfl hb (by rw [hx]; decide) rfl
  -- the program, by the stack machine
  obtain ⟨r', hr', hstop', hout', -⟩ := Output.compile_label hm rfl (.inr rfl) (o := {}) rfl
    (Instr.not_hasControl_iff.mp (by decide)) (by decide) hc' rfl (by rw [hx']; decide)
    (by rw [hx']; decide)
  exact ⟨_, out, out', r, r', hm, hc, hc', hr, hr', hstop, hstop', by rw [hout]; rfl,
    by rw [hout']; rfl⟩

end StackTape
