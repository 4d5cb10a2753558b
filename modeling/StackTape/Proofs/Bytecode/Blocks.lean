import StackTape.Proofs.Bytecode.Partition

/-!
# The shape of a program

`Program.Formed` is what the later stages rely on: the order names every block once, and the entry
first; a block starts with its own label, holds no other, and ends at its first terminator, whose
targets are its exits; no block but the last falls through; and every exit names a block.

`build_formed`: whatever code is cut, the program is formed, its blocks in order are the code with
labels and jumps put in, and without those they are the code again (`Padded.kept_eq`).  Code is
refused for a label that is defined twice just if it defines one twice itself, since what is put in
is fresh.
-/

namespace StackTape

open Instr

/-! ### Blocks -/

namespace Block

/-- The exits of a block by its last instruction. -/
def exitsBy : Option Instr → Bytes × Bytes
  | some (.jump target) => (target, [])
  | some (.cond whenTrue whenFalse) => (whenTrue, whenFalse)
  | _ => ([], [])

/-- A block starts with its own label and holds no other, only its last instruction may be a
terminator, and its exits are the targets of that. -/
structure Formed (b : Block) : Prop where
  opens : ∃ body, b.instrs = .label b.label :: body ∧ labels body = []
  ends : ∀ i ∈ b.instrs.dropLast, i.isTerminator = false
  exits : (b.trueExit, b.falseExit) = exitsBy b.instrs.getLast?

end Block

namespace Program

/-- A block that only its last instruction may leave has the exits of that instruction. -/
theorem exits_foldl {body : List Instr} (h : body.IsChain fun i _ => i.isTerminator = false)
    {b : Block} (ht : b.trueExit = []) (hf : b.falseExit = []) :
    ((body.foldl extend b).trueExit, (body.foldl extend b).falseExit) =
      Block.exitsBy body.getLast? := by
  induction body generalizing b with
  | nil => rw [List.foldl_nil, ht, hf]; rfl
  | cons i rest ih =>
      rw [List.foldl_cons]
      cases rest with
      | nil =>
          cases i with
          | jump target => simp [extend, hf, Block.exitsBy]
          | cond => rfl
          | _ => simp [extend, ht, hf, Block.exitsBy]
      | cons j rest =>
          obtain ⟨hi, hr⟩ := List.isChain_cons_cons.mp h
          rw [extend_of_not_terminator hi, ih hr (b := { b with instrs := b.instrs ++ [i] }) ht hf,
            List.getLast?_cons_cons]

theorem not_terminator_of_mem_dropLast {body : List Instr}
    (h : body.IsChain fun i _ => i.isTerminator = false) :
    ∀ i ∈ body.dropLast, i.isTerminator = false := by
  induction body with
  | nil => exact nofun
  | cons i rest ih =>
      cases rest with
      | nil => exact nofun
      | cons j rest =>
          obtain ⟨hi, hr⟩ := List.isChain_cons_cons.mp h
          rw [List.dropLast_cons_cons, List.forall_mem_cons]
          exact ⟨hi, ih hr⟩

theorem formed_of {name : Bytes} {body : List Instr} (hb : labels body = [])
    (hc : body.IsChain fun i _ => i.isTerminator = false) : (Block.of name body).Formed := by
  have hchain : (Instr.label name :: body).IsChain fun i _ => i.isTerminator = false :=
    List.isChain_cons.mpr ⟨fun _ _ => rfl, hc⟩
  refine ⟨⟨body, by simp, hb⟩, ?_, ?_⟩
  · rw [Block.instrs_of]
    exact not_terminator_of_mem_dropLast hchain
  · rw [Block.of, exits_foldl hc rfl rfl, ← Block.of, Block.instrs_of]
    cases body with
    | nil => rfl
    | cons i rest => rw [List.getLast?_cons_cons]

section

variable {code : List Instr} {blocks : List Block} {p : Program} {l : Labeler}

theorem Cuts.formed (h : Cuts code blocks) (ha : Alternates code) :
    ∀ b ∈ blocks, b.Formed := by
  induction h with
  | nil => exact nofun
  | cons hb _ ih =>
      obtain ⟨hfront, hrest, -⟩ := List.isChain_append.mp ha
      rw [List.forall_mem_cons]
      exact ⟨formed_of hb (Alternates.body hfront.tail hb), ih hrest⟩

/-- **No block but the last falls through**: behind it stands a label. -/
theorem Cuts.terminated (h : Cuts code blocks) (ha : Alternates code) :
    ∀ b ∈ blocks.dropLast, ∃ i, b.instrs.getLast? = some i ∧ i.isTerminator := by
  induction h with
  | nil => exact nofun
  | @cons name body rest blocks _ h ih =>
      obtain ⟨-, hrest, hjoin⟩ := List.isChain_append.mp ha
      cases h with
      | nil => exact nofun
      | @cons next _ _ more =>
          rw [List.dropLast_cons_cons, List.forall_mem_cons]
          refine ⟨?_, ih hrest⟩
          obtain ⟨i, hi⟩ : ∃ i, (Instr.label name :: body).getLast? = some i :=
            ⟨_, List.getLast?_eq_getLast_of_ne_nil (List.cons_ne_nil _ _)⟩
          exact ⟨i, by rw [Block.instrs_of, hi], (hjoin i hi (.label next) rfl).mp rfl⟩

/-! ### Programs -/

/-- The shape of a program. -/
structure Formed (p : Program) : Prop where
  /-- The entry is the first block. -/
  entry : p.order.head? = some p.entry
  /-- No block is named twice. -/
  nodup : p.order.Nodup
  /-- The blocks are those of the order. -/
  keys : ∀ name, name ∈ p.order ↔ (p.block? name).isSome
  block : ∀ name b, p.block? name = some b → b.label = name ∧ b.Formed
  /-- No block but the last falls through. -/
  terminated : ∀ name ∈ p.order.dropLast, ∀ b, p.block? name = some b →
    ∃ i, b.instrs.getLast? = some i ∧ i.isTerminator
  /-- Exits name blocks. -/
  closed : ∀ name b, p.block? name = some b → ∀ e ∈ [b.trueExit, b.falseExit], e ≠ [] →
    (p.block? e).isSome

/-- The blocks of the order, one by one. -/
theorem filterMap_block? (hn : (p.blocks.map (·.label)).Nodup)
    (ho : p.order = p.blocks.map (·.label)) : p.order.filterMap p.block? = p.blocks := by
  have hself : ∀ b ∈ p.blocks, (p.block? ∘ (·.label)) b = some b := fun b hb => block?_of_mem hn hb
  rw [ho, List.filterMap_map, List.filterMap_congr hself, List.filterMap_some]

theorem validate_of_build (h : build code l = .ok p) : p.validate = .ok () := by
  unfold build at h
  split at h
  · cases h
  · split at h
    · cases h
    · next hv =>
        cases h
        exact hv

theorem formed_of_build (h : build code l = .ok p) : p.Formed := by
  have hpart := partitioned_of_build h
  have hn := nodup_of_partition (partition_of_build h)
  have halt : Alternates (addJumps (addLabels code l).1) := alternates_addJumps sealed_insertLabels
  have hmem : ∀ {name b}, p.block? name = some b → b ∈ p.blocks ∧ b.label = name := fun hb =>
    ⟨List.mem_of_find?_eq_some hb, by simpa using List.find?_some hb⟩
  refine ⟨hpart.entry, hpart.order ▸ hn, fun name => ?_, fun name b hb => ?_,
    fun name hm b hb => ?_, fun name b hb e he hne => ?_⟩
  · rw [block?_isSome_iff, hpart.order]
  · exact ⟨(hmem hb).2, hpart.cuts.formed halt b (hmem hb).1⟩
  · rw [hpart.order, ← List.map_dropLast] at hm
    obtain ⟨c, hc, rfl⟩ := List.mem_map.mp hm
    rw [block?_of_mem hn (List.mem_of_mem_dropLast hc)] at hb
    obtain rfl := Option.some.inj hb
    exact hpart.cuts.terminated halt c hc
  · rw [hpart.cuts.labels] at hn
    rcases hpart.validate_cases hn with ⟨-, hall⟩ | ⟨_, _, _, _, _, herr⟩
    · rw [block?_isSome_iff, hpart.cuts.labels]
      exact hall b (hmem hb).1 e (List.mem_filter.mpr ⟨he, by simpa using hne⟩)
    · rw [validate_of_build h] at herr
      cases herr

/-! ### What is put in -/

/-- The instructions that were there before. -/
def kept (tagged : List (Option Nat × Instr)) : List Instr :=
  (tagged.filter (·.1.isSome)).map (·.2)

theorem Padded.kept_eq {k : Nat} {tagged : List (Option Nat × Instr)} (h : Padded k code tagged) :
    kept tagged = code := by
  induction h with
  | nil => rfl
  | keep _ ih => exact congrArg (_ :: ·) ih
  | mark _ _ ih | jump _ ih => exact ih

/-- Labels that are put in are new, if no label is defined twice. -/
theorem Padded.fresh {k : Nat} {tagged : List (Option Nat × Instr)} (h : Padded k code tagged)
    (hn : (labels (tagged.map (·.2))).Nodup) {name : Bytes} (hm : (none, .label name) ∈ tagged) :
    name ∉ labels code := by
  induction h with
  | nil => cases hm
  | @keep k i rest tagged h ih =>
      replace hm : (none, .label name) ∈ tagged := by simpa using hm
      cases hl : i.label? with
      | none =>
          rw [List.map_cons, labels_cons hl] at hn
          rw [labels_cons hl]
          exact ih hn hm
      | some n =>
          obtain rfl := label?_eq_some.mp hl
          rw [List.map_cons, labels_label, List.nodup_cons] at hn
          rw [labels_label, List.mem_cons, not_or]
          refine ⟨?_, ih hn.2 hm⟩
          rintro rfl
          exact hn.1 (mem_labels.mpr (List.mem_map_of_mem hm))
  | @mark k code tagged n h ih =>
      rw [List.map_cons, labels_label, List.nodup_cons] at hn
      rcases List.mem_cons.mp hm with he | hm
      · cases he
        exact fun hc => hn.1 (mem_labels.mpr (h.subset (mem_labels.mp hc)))
      · exact ih hn.2 hm
  | jump _ ih => exact ih hn (by simpa using hm)

/-! ### Labels that are defined twice -/

/-- Cutting fails for a label that is defined twice and for nothing else. -/
theorem cut_error {done : List Block} {cur : Block} {e : ProgramError}
    (h : cut done cur code = .error e) : ∃ label, e = .duplicateLabel label := by
  induction code generalizing done cur with
  | nil => cases h
  | cons i rest ih =>
      cases hl : i.label? with
      | none =>
          rw [cut_other hl] at h
          exact ih h
      | some name =>
          obtain rfl := label?_eq_some.mp hl
          rw [cut] at h
          split_ifs at h
          · cases h
            exact ⟨name, rfl⟩
          · exact ih h

/-- **Labelled code is cut, or refused for a label that it defines twice.** -/
theorem partition_cases (name : Bytes) (rest : List Instr) :
    (∃ p, partition (.label name :: rest) = .ok p ∧ (labels (.label name :: rest)).Nodup) ∨
      ∃ label, partition (.label name :: rest) = .error (.duplicateLabel label) ∧
        ¬ (labels (.label name :: rest)).Nodup := by
  cases hp : partition (.label name :: rest) with
  | ok p =>
      have hn := nodup_of_partition hp
      rw [(partitioned_of_partition hp).cuts.labels] at hn
      exact .inl ⟨p, rfl, hn⟩
  | error e =>
      have hn : ¬ (labels (.label name :: rest)).Nodup := by
        intro hn
        obtain ⟨p, hok⟩ := exists_partition hn
        rw [hp] at hok
        cases hok
      rw [partition] at hp
      split at hp
      · cases hp
      · next e' hc =>
          obtain ⟨label, rfl⟩ := cut_error hc
          cases hp
          exact .inr ⟨label, rfl, hn⟩

/-- What is put in defines no label twice, and leaves none out. -/
theorem nodup_labels_addLabels_iff (code : List Instr) (l : Labeler) :
    (labels (addLabels code l).1).Nodup ↔ (labels code).Nodup := by
  refine ⟨fun h => ?_, fun h => nodup_labels_addLabels h l⟩
  obtain ⟨tagged, hpad, htag⟩ :=
    padded_insertLabels true code (l.claim (code.filterMap Instr.label?)) 0
  have hsub : (kept tagged).Sublist (tagged.map (·.2)) := List.filter_sublist.map _
  rw [hpad.kept_eq, htag] at hsub
  exact h.sublist (hsub.filterMap _)

theorem build_duplicateLabel_iff (code : List Instr) (l : Labeler) :
    (∃ label, build code l = .error (.duplicateLabel label)) ↔ ¬ (labels code).Nodup := by
  by_cases hne : code = []
  · subst hne
    exact ⟨nofun, fun h => absurd List.nodup_nil h⟩
  by_cases hn : (labels code).Nodup
  · refine ⟨fun ⟨_, h⟩ => ?_, fun h => absurd hn h⟩
    rcases build_cases hne hn l with ⟨p, hok, -⟩ | ⟨_, _, herr, -⟩
    · rw [hok] at h
      cases h
    · rw [herr] at h
      cases h
  · refine ⟨fun _ => hn, fun _ => ?_⟩
    rw [← nodup_labels_addLabels_iff code l, ← labels_addJumps] at hn
    obtain ⟨name, rest, hc⟩ := addLabels_cons hne l
    rw [hc, addJumps_cons] at hn
    rw [build, hc, addJumps_cons]
    rcases partition_cases name (bridge (.label name) rest.head? ++ addJumps rest) with
      ⟨p, -, hnd⟩ | ⟨twice, herr, -⟩
    · exact absurd hnd hn
    · exact ⟨twice, by rw [herr]⟩

/-- **Code is cut into a program that is formed, and nothing is lost.**  The blocks in order are the
code with labels and jumps put in; an instruction carries its position if it was there before, and
without the others, labels that the code does not define and jumps to the label behind them, the
code is what it was.  Code is refused for a label that is defined twice just if it defines one
twice. -/
theorem build_formed (code : List Instr) (l : Labeler) :
    (∀ p, build code l = .ok p → p.Formed ∧
      (p.order.filterMap p.block?).flatMap (·.instrs) = addJumps (addLabels code l).1 ∧
      ∃ tagged, Padded 0 code tagged ∧ tagged.map (·.2) = addJumps (addLabels code l).1 ∧
        kept tagged = code ∧ ∀ name, (none, .label name) ∈ tagged → name ∉ labels code) ∧
    ((∃ label, build code l = .error (.duplicateLabel label)) ↔ ¬ (labels code).Nodup) := by
  refine ⟨fun p h => ?_, build_duplicateLabel_iff code l⟩
  have hpart := partitioned_of_build h
  have hn := nodup_of_partition (partition_of_build h)
  obtain ⟨tagged, hpad, htag⟩ := padded_addJumps code l
  refine ⟨formed_of_build h, ?_, tagged, hpad, htag, hpad.kept_eq, fun name hm => hpad.fresh ?_ hm⟩
  · rw [filterMap_block? hn hpart.order, hpart.cuts.text]
  · rwa [htag, ← hpart.cuts.labels]

/-- Code that starts without a label, falls through into `a`, and goes on behind a condition; and
code that defines `a` twice. -/
theorem build_formed_mixed :
    (∃ p tagged,
      build [.read, .label [0x61], .dup, .cond [0x61] [0x62], .write, .label [0x62]]
        { stem := Bytes.ascii "block" } = .ok p ∧ p.Formed ∧
      (p.order.filterMap p.block?).flatMap (·.instrs) = tagged.map (·.2) ∧
      tagged.map (·.2) =
        [.label (Bytes.ascii "block_0"), .read, .jump [0x61], .label [0x61], .dup,
          .cond [0x61] [0x62], .label (Bytes.ascii "block_1"), .write, .jump [0x62],
          .label [0x62]] ∧
      kept tagged = [.read, .label [0x61], .dup, .cond [0x61] [0x62], .write, .label [0x62]]) ∧
    ∃ twice, build [.label [0x61], .dup, .label [0x61]] { stem := Bytes.ascii "block" } =
      .error (.duplicateLabel twice) := by
  refine ⟨?_, (build_formed _ _).2.mpr (by decide)⟩
  obtain ⟨p, h⟩ : ∃ p, build [.read, .label [0x61], .dup, .cond [0x61] [0x62], .write,
      .label [0x62]] { stem := Bytes.ascii "block" } = .ok p := ⟨_, rfl⟩
  obtain ⟨hf, hcat, tagged, -, htag, hkept, -⟩ := (build_formed _ _).1 p h
  exact ⟨p, tagged, h, hf, hcat.trans htag.symm, htag.trans (by decide +kernel), hkept⟩

end

end Program

end StackTape
