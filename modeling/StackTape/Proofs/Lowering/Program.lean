import StackTape.Proofs.Bytecode.Partition
import StackTape.Proofs.Lowering.Dispatch
import StackTape.Proofs.Lowering.Frame

/-!
# Lowered programs

A lowered program lays out its frame behind the dispatcher's cells and repeats passes over its
blocks (`lower_program`).  The stack machine is never stuck on it and finds its stack empty at the
start of every block (`Dispatched.never_stuck`).  `Programmed.meaning`: the operations are done when
the program has halted, and else have run as many blocks as they had fuel.
-/

namespace StackTape

open MacroOp

namespace Layout

/-- Every state with an empty stack has a picture. -/
theorem exists_pictures (L : Layout) (rest : Int64 → UInt8) {s : Lowering} {σ : Store}
    (hσ : σ.stack = []) (hd : s.depth = L.height) : ∃ v, L.Pictures rest s σ v := by
  let cells (a : Int64) : UInt8 :=
    match L.slots.find? fun p => a = L.origin + p.depth with
    | some p => σ.slots p.name
    | none => rest a
  refine ⟨_, ⟨cells, L.origin + L.height, σ.input, σ.output⟩,
    ⟨rfl, rfl, rfl, fun p hp => ?_, fun a ha => ?_⟩, by simp [hσ, hd], rfl⟩
  · have hsome : (L.slots.find? fun q => L.origin + p.depth = L.origin + q.depth).isSome := by
      rw [List.find?_isSome]
      exact ⟨p, hp, by simp⟩
    obtain ⟨q, hq⟩ := Option.isSome_iff_exists.mp hsome
    have he : L.origin + p.depth = L.origin + q.depth := by simpa using List.find?_some hq
    obtain rfl : q = p := List.inj_on_of_nodup_map L.depths (List.mem_of_find?_eq_some hq) hp
      (by grind)
    simp only [cells, hq]
  · have hnone : (L.slots.find? fun p => a = L.origin + p.depth) = none := by
      rw [List.find?_eq_none]
      intro p hp
      simpa using ha p hp
    simp only [cells, hnone]

end Layout

namespace Lowering

variable {p : Program} {numbers : Numbers} {s s' : Lowering} {labels : List Bytes}
  {ops body : List MacroOp} {L : Layout} {eof : EofMode}

/-! ### The stack machine on a program that is lowered -/

/-- Every block that is lowered runs from an empty stack to an empty stack, and goes on at a block.
-/
theorem Dispatched.runs (h : Dispatched p numbers s labels ops s') (ht : s.Tame)
    (hh : s'.high.toInt + 4 < 2 ^ 63) (hL : L.Of s) (hd : s.depth = L.height) {label : Bytes}
    (hl : label ∈ labels) {σ : Store} (hσ : σ.stack = []) (eof : EofMode) :
    ∃ b goes σ', p.block? label = some b ∧ b.run eof σ = some (goes, σ') ∧ σ'.stack = [] ∧
      ∀ label', goes = some label' → (numbers label').isSome := by
  induction h with
  | nil => cases hl
  | @cons s s₁ s' label₁ rest b n body more hb hn hw hd₁ t ih =>
      have hg := t.high_le
      rcases List.mem_cons.mp hl with rfl | hl
      · obtain ⟨v, hv⟩ := L.exists_pictures (L.control 0 0) hσ hd
        obtain ⟨goes, σ', v', hr, -, hp, hk⟩ := hw.meaning ht (by omega) hL hv eof 0
        obtain ⟨b', -, hlen, -⟩ := hp
        rw [hd₁, hd, Int.sub_self] at hlen
        exact ⟨b, goes, σ', hb, hr, List.eq_nil_of_length_eq_zero (by exact_mod_cast hlen), hk⟩
      · exact ih (hw.tame ht (by omega)) hh (hL.same hw.same) (hd₁.trans hd) hl

/-- Slots that are added come behind the others. -/
theorem slots_of_addAll {f g : Frame} {slots : List Slot} (h : f.addAll slots = .ok g) :
    g.slots = f.slots ++ slots := by
  induction slots generalizing f with
  | nil =>
      cases h
      rw [List.append_nil]
  | cons t slots ih =>
      rw [Frame.addAll] at h
      split at h
      · next f' hf =>
          unfold Frame.add at hf
          split_ifs at hf
          cases hf
          rw [ih h, List.append_assoc]
          rfl
      · cases h

/-- Labels and jumps that are put in lay out no slot. -/
theorem slots_of_padded {k : Nat} {code : List Instr} {tagged : List (Option Nat × Instr)}
    (h : Program.Padded k code tagged) :
    (tagged.map (·.2)).filterMap Frame.slotOf? = code.filterMap Frame.slotOf? := by
  induction h with
  | nil => rfl
  | keep _ ih => rw [List.map_cons, List.filterMap_cons, List.filterMap_cons, ih]
  | mark _ _ ih => exact ih
  | jump _ ih => exact ih

/-- The blocks in order are the code that was cut. -/
theorem instrsOf_order {code : List Instr} (h : Program.Partitioned code p)
    (hn : (p.blocks.map (·.label)).Nodup) : instrsOf p p.order = code := by
  rw [instrsOf, h.order, List.flatMap_map, ← h.cuts.text]
  refine List.flatMap_congr fun b hb => ?_
  rw [Program.block?_of_mem hn hb]
  rfl

/-- The frame of a program has the slots that its code may lay out. -/
theorem slots_frameFor {code : List Instr} {l : Labeler} (hp : Program.build code l = .ok p)
    {frame : Option Frame} {f : Frame} (hf : (Lowering.start frame).frameFor p = .ok f) :
    f.slots = Frame.available frame code := by
  cases frame with
  | some g =>
      cases hf
      rfl
  | none =>
      -- labels and jumps that are put in lay out no slot
      obtain ⟨tagged, hpad, htag⟩ := Program.padded_addJumps code l
      have hslots := slots_of_addAll hf
      rw [instrsOf_order (Program.partitioned_of_build hp)
        (Program.nodup_of_partition (Program.partition_of_build hp)), ← htag,
        slots_of_padded hpad] at hslots
      exact hslots

/-! ### Inversion -/

/-- **What lowering a program asks for, and what it gives.** -/
theorem lowerProgram_eq_ok (h : s.lowerProgram p = .ok (ops, s')) :
    p.order.length ≤ maxBlocks ∧ ∃ f s₀ moves body, s.frameFor p = .ok f ∧
      ({ s with frame := some f, base := controlSize } : Lowering).lower f.reserves =
        .ok (moves, s₀) ∧
      dispatch p (numberIn (dispatchOrder p)) s₀.depth { s₀ with framed := true }
        (dispatchOrder p) = .ok (body, s') ∧
      validateAll (close s₀.depth body) = .ok () ∧
      ops = .go controlSize :: (moves ++ close s₀.depth body) := by
  unfold lowerProgram at h
  split at h
  · cases h
  split_ifs at h with hb
  split at h
  · cases h
  next f hf =>
    split at h
    · cases h
    next moves s₀ hl =>
      dsimp only at h
      split at h
      · cases h
      next body s₁ hd =>
        split at h
        · cases h
        next hv =>
          cases h
          exact ⟨Nat.not_lt.mp hb, f, s₀, moves, body, hf, hl, hd, hv, rfl⟩

/-- What lowering a program gives. -/
structure Programmed (p : Program) (f : Frame) (s' : Lowering) (ops : List MacroOp) : Prop where
  sized : f.Sized
  numbering : Numbering (numberIn (dispatchOrder p))
  lowered : ∃ s body, (sized.layout controlSize).Of s ∧ s.depth = f.totalSize ∧ s.Tame ∧
    Dispatched p (numberIn (dispatchOrder p)) s (dispatchOrder p) body s' ∧
    validateAll (close f.totalSize body) = .ok () ∧
    ops = .go controlSize :: ((f.slots.map fun t => .go t.size) ++ close f.totalSize body)
  base : s'.base = controlSize

/-- The entry is tried first instead of in its place. -/
theorem length_dispatchOrder (h : p.entry ∈ p.order) :
    (dispatchOrder p).length ≤ p.order.length := by
  rw [dispatchOrder, List.length_cons, Nat.succ_le_iff]
  exact List.length_filter_lt_length_iff_exists.mpr ⟨p.entry, h, by simp⟩

/-- **A program that is accepted is lowered into its dispatcher.** -/
theorem lower_program {frame : Option Frame} (hp : p.entry ∈ p.order)
    (h : (Lowering.start frame).lowerProgram p = .ok (ops, s')) {f : Frame}
    (hf : (Lowering.start frame).frameFor p = .ok f) (hs : Frame.cells f.slots < 2 ^ 62) :
    Programmed p f s' ops := by
  obtain ⟨hb, f', s₀, moves, body, hf', hl, hd, hv, rfl⟩ := lowerProgram_eq_ok h
  obtain rfl : f' = f := by
    rw [hf] at hf'
    cases hf'
    rfl
  obtain ⟨hsz, hpl, hr, hdep, hh, hbase, -, rfl⟩ := layout_of_lowerFrom hl hs
  have hdisp := Dispatched.of_dispatch (s := { s₀ with framed := true }) rfl
    (fun label hm => numberIn_isSome.mpr hm) hd
  rw [hdep] at hv ⊢
  refine ⟨hsz, numbering_numberIn ((length_dispatchOrder hp).trans hb), ⟨{ s₀ with framed := true },
    body, ⟨hpl, hr⟩, hdep, hsz.tame hr hdep hh, hdisp, hv, rfl⟩, ?_⟩
  rw [hdisp.same]
  exact hbase

/-! ### Meaning -/

theorem control_zero (L : Layout) : L.control 0 0 = fun _ => 0 := by
  funext a
  simp [Layout.control]

/-- Before the first block its number is set. -/
theorem tracks_start (ht : s.Tame) (hL : L.Of s) (hd : s.depth = L.height) (input : Bytes) :
    Tracks p eof (Store.initial input) (numberIn (dispatchOrder p)) L s 0 (some p.entry)
      (View.plus ⟨fun _ => 0, L.origin + L.height, input, []⟩ (nextDepth - s.depth) 1) := by
  have hp : L.Pictures (L.control 0 0) s (Store.initial input)
      ⟨fun _ => 0, L.origin + L.height, input, []⟩ := by
    rw [control_zero]
    exact L.pictures_initial hd input
  refine ⟨⟨_, rfl, ?_⟩, ?_, nofun⟩
  · rw [tag_eq (numberIn_entry p)]
    exact put_next ht hL hp _
  · rintro _ ⟨⟩
    rw [numberIn_entry]
    rfl

/-- **The operations of a program** are done when it has halted, and else have run at least as many
blocks as they had fuel. -/
theorem Programmed.meaning {f : Frame} (h : Programmed p f s' ops)
    (hh : s'.high.toInt + 4 < 2 ^ 63) (eof : EofMode) (input : Bytes) (fuel : Nat) :
    ∃ s n goes σ v, s.depth = f.totalSize ∧
      p.after eof (Store.initial input) n = some (goes, σ) ∧
      (meaningAll eof fuel ops ⟨fun _ => 0, 0, input, []⟩ = .done { v with pointer := 0 } ∧
          goes = none ∧ (h.sized.layout controlSize).Pictures (fun _ => 0) s σ v ∨
        meaningAll eof fuel ops ⟨fun _ => 0, 0, input, []⟩ = .more v ∧ fuel ≤ n ∧
          (∀ j < n, ∀ τ, p.after eof (Store.initial input) j ≠ some (none, τ)) ∧
          v.input = σ.input ∧ v.output = σ.output) := by
  obtain ⟨hf, hn, ⟨s, body, hL, hd, ht, hdisp, -, rfl⟩, -⟩ := h
  have hv : Tracks p eof _ _ _ _ _ _ _ := tracks_start ht hL hd input
  obtain ⟨n, goes, v, ⟨⟨σ, ha, hp⟩, -, hrun⟩, hr⟩ :=
    hdisp.rounds hn (fun label hm => numberIn_isSome.mp hm) ht hh hL hv fuel fuel
  have h₁ : UInt8.ofInt (1 : Int64).toInt = 1 := by decide
  have hops : ∀ v₀ : View, meaningAll eof fuel
      (.go controlSize :: ((f.slots.map fun t => .go t.size) ++ close f.totalSize body)) v₀ =
      (View.repeats (nextDepth - s.depth) (meaningAll eof fuel body) fuel
        (((v₀.go controlSize).go f.totalSize).plus (nextDepth - s.depth) 1)).bind fun v =>
          .done ((v.go (-f.totalSize)).go (-controlSize)) := by
    intro v₀
    rw [meaningAll, MacroOp.meaning, Ending.bind_done, meaningAll_append, meaningAll_moves,
      Ending.bind_done, hd]
    simp only [close, meaningAll, MacroOp.meaning, Ending.bind_done, h₁]
    rfl
  have hgo : ((View.mk (fun _ => 0) 0 input []).go controlSize).go f.totalSize =
      ⟨fun _ => 0, controlSize + f.totalSize, input, []⟩ := by
    rw [View.go_go, View.go, Int64.zero_add]
  have hback : (v.go (-f.totalSize)).go (-controlSize) = { v with pointer := 0 } := by
    have hptr : v.pointer = controlSize + s.depth := pointer_of_pictures ht hL hp
    have hz : ∀ a b : Int64, a + b + (-b + -a) = 0 := by
      intro a b
      grind
    rw [View.go_go, View.go, hptr, hd, hz]
  refine ⟨s, n, goes, σ, v, hd, ha, ?_⟩
  rw [hops, hgo, ← hback]
  rcases hr with ⟨hr, rfl⟩ | ⟨hr, hle⟩
  · refine .inl ⟨?_, rfl, ?_⟩
    · exact (congrArg (Ending.bind · _) hr).trans rfl
    · rwa [← control_zero]
  · refine .inr ⟨?_, by omega, hrun, hp.input, hp.output⟩
    exact (congrArg (Ending.bind · _) hr).trans rfl

theorem Programmed.totalSize_le {f : Frame} (h : Programmed p f s' ops) :
    0 ≤ f.totalSize.toInt ∧ f.totalSize.toInt ≤ s'.high.toInt := by
  obtain ⟨hf, -, ⟨s, body, hL, hd, ht, hdisp, -, -⟩, -⟩ := h
  rw [← hd]
  exact ⟨ht.reserved.trans ht.depth, ht.high.trans hdisp.high_le⟩

/-- The operations of a program keep their contracts. -/
theorem Programmed.proper {f : Frame} (h : Programmed p f s' ops) : ProperAll ops := by
  obtain ⟨hf, hn, ⟨s, body, hL, hd, ht, hdisp, hval, rfl⟩, -⟩ := h
  refine ⟨trivial, properAll_append (properAll_moves _) (properAll_of_validateAll hval ?_)⟩
  simp [close, plainAll, plain, hdisp.plain]

/-! ### Cells on the tape -/

/-- **A program stays on a tape that has room for its highest cell** and the cells below depth zero.
-/
theorem Programmed.fits {f : Frame} (h : Programmed p f s' ops)
    (hh : s'.high.toInt + 4 < 2 ^ 63) {size : Nat} (hs : 3 + s'.high.toInt < size) :
    FitsAll size 0 0 ops := by
  obtain ⟨hf, hn, ⟨s, body, hL, hd, ht, hdisp, -, rfl⟩, -⟩ := h
  have hc : controlSize.toInt = 3 := by decide
  have hneg : (-controlSize).toInt = -3 := by decide
  have hcells := hf.toInt_totalSize
  have hnn := Frame.cells_nonneg hf.positive
  have hle := hdisp.high_le
  have hth := ht.high
  have hnext := toInt_next ht (by omega)
  have hd' : s.depth.toInt = Frame.cells f.slots := by rw [hd, hcells]
  have hback : (-f.totalSize).toInt = -Frame.cells f.slots := by
    rw [toInt_neg_of_nonneg (by omega), hcells]
  obtain ⟨hmoves, htravel⟩ := fitsAll_moves hf.positive (show (0 : Int) ≤ 3 by decide)
    (show (3 : Int) + Frame.cells f.slots < size by omega)
  have hbody :=
    hdisp.fits ht hh hL (by rw [hL.2, hd]; rfl) (le_refl 3) hs (nextDepth - s.depth).toInt
  rw [hd'] at hbody
  have hon : ∀ x : Int, 0 ≤ x → x ≤ 3 + Frame.cells f.slots → On size x :=
    fun x h₀ h₁ => ⟨h₀, by omega⟩
  have hx : On size (3 + Frame.cells f.slots + (nextDepth - s.depth).toInt) :=
    hon _ (by omega) (by omega)
  rw [hd] at hx hbody
  refine ⟨⟨hon _ (by omega) (by omega), hon _ (by omega) (by omega)⟩, ?_⟩
  show FitsAll size (0 + controlSize.toInt) 0 _
  rw [hc, Int.zero_add, fitsAll_append, htravel]
  refine ⟨hmoves, ?_⟩
  simp only [close, FitsAll, Fits, used, moved, Int64.toInt_zero, Int.add_zero, hback, hneg,
    List.forall_mem_singleton, and_true]
  have h₁ := hon (3 + Frame.cells f.slots + -Frame.cells f.slots) (by omega) (by omega)
  have h₂ := hon (3 + Frame.cells f.slots + -Frame.cells f.slots + -3) (by omega) (by omega)
  exact ⟨hx, ⟨hx, hbody⟩, ⟨h₁, h₁⟩, h₂, h₂⟩

end Lowering

end StackTape
