import StackTape.Proofs.Bytecode.Labels

/-!
# Code cut into blocks

`Cuts` is what cutting labelled code at its labels gives.  Cutting fails only on a label that is
defined twice (`exists_partition`), and where labels follow just the terminators the exits of a
block are the targets of its instructions (`mem_exits`).  So a program is refused just for a
target that no label defines (`build_cases`).
-/

namespace StackTape

open Instr

/-- The error is about a label that is not there. -/
def ProgramError.isUnknownLabel : ProgramError → Bool
  | .unknownEntry _ | .unknownExit .. => true
  | _ => false

/-! ### Blocks -/

/-- The block of a label and the instructions behind it. -/
def Block.of (name : Bytes) (body : List Instr) : Block :=
  body.foldl Program.extend ⟨name, [.label name], [], []⟩

namespace Program

@[simp] theorem label_extend (b : Block) (i : Instr) : (extend b i).label = b.label := by
  cases i <;> rfl

@[simp] theorem instrs_extend (b : Block) (i : Instr) : (extend b i).instrs = b.instrs ++ [i] := by
  cases i <;> rfl

/-- Instructions that are added leave the label of a block. -/
theorem label_foldl_extend (body : List Instr) (b : Block) :
    (body.foldl extend b).label = b.label := by
  induction body generalizing b with
  | nil => rfl
  | cons i rest ih => rw [List.foldl_cons, ih, label_extend]

/-- They come behind the others. -/
theorem instrs_foldl_extend (body : List Instr) (b : Block) :
    (body.foldl extend b).instrs = b.instrs ++ body := by
  induction body generalizing b with
  | nil => rw [List.foldl_nil, List.append_nil]
  | cons i rest ih =>
      rw [List.foldl_cons, ih, instrs_extend, List.append_assoc, List.singleton_append]

end Program

namespace Block

open Program

@[simp] theorem label_of (name : Bytes) (body : List Instr) : (of name body).label = name :=
  label_foldl_extend ..

@[simp] theorem instrs_of (name : Bytes) (body : List Instr) :
    (of name body).instrs = .label name :: body :=
  instrs_foldl_extend ..

end Block

namespace Program

/-- The exits that a block names. -/
def exitsOf (b : Block) : List Bytes := [b.trueExit, b.falseExit].filter fun e => !e.isEmpty

/-- Only terminators say where a block goes on. -/
theorem extend_of_not_terminator {i : Instr} (h : i.isTerminator = false) (b : Block) :
    extend b i = { b with instrs := b.instrs ++ [i] } := by
  cases i with
  | jump | cond => cases h
  | _ => rfl

theorem targets_of_not_terminator {i : Instr} (h : i.isTerminator = false) : i.targets = [] := by
  cases i with
  | jump | cond => cases h
  | _ => rfl

/-- The exits of a block that only its last instruction may leave are the targets of its
instructions. -/
theorem mem_exitsOf_foldl {body : List Instr}
    (h : body.IsChain fun i _ => i.isTerminator = false) {b : Block} (ht : b.trueExit = [])
    (hf : b.falseExit = []) {e : Bytes} (he : e ≠ []) :
    e ∈ exitsOf (body.foldl extend b) ↔ ∃ i ∈ body, e ∈ i.targets := by
  induction body generalizing b with
  | nil => simp [exitsOf, ht, hf]
  | cons i rest ih =>
      rw [List.foldl_cons]
      cases rest with
      | nil =>
          cases i with
          | jump | cond => simp [exitsOf, extend, targets, hf, he]
          | _ => simp [exitsOf, extend, targets, ht, hf]
      | cons j rest =>
          obtain ⟨hi, hr⟩ := List.isChain_cons_cons.mp h
          rw [extend_of_not_terminator hi, ih hr (b := { b with instrs := b.instrs ++ [i] }) ht hf]
          simp [targets_of_not_terminator hi]

/-! ### Cutting -/

/-- Blocks in a row, and their instructions as code. -/
inductive Cuts : List Instr → List Block → Prop where
  | nil : Cuts [] []
  | cons {name : Bytes} {body rest : List Instr} {blocks : List Block} (hb : labels body = [])
      (h : Cuts rest blocks) : Cuts (.label name :: body ++ rest) (Block.of name body :: blocks)

/-- An instruction that is no label stays in its block. -/
theorem cut_other {i : Instr} (h : i.label? = none) (done : List Block) (cur : Block)
    (rest : List Instr) : cut done cur (i :: rest) = cut done (extend cur i) rest := by
  cases i with
  | label => cases h
  | _ => rfl

/-- **What cutting gives**, with the blocks that are done and the one that is open. -/
theorem cuts_of_cut {code : List Instr} {done blocks : List Block} {cur : Block}
    (h : cut done cur code = .ok blocks) :
    ∃ body rest more, labels body = [] ∧ code = body ++ rest ∧ Cuts rest more ∧
      blocks = done.reverse ++ body.foldl extend cur :: more := by
  induction code generalizing done cur with
  | nil =>
      cases h
      exact ⟨[], [], [], rfl, rfl, .nil, by simp⟩
  | cons i rest ih =>
      cases hl : i.label? with
      | none =>
          rw [cut_other hl] at h
          obtain ⟨body, rest, more, hb, rfl, hc, rfl⟩ := ih h
          exact ⟨i :: body, rest, more, by rw [labels_cons hl, hb], rfl, hc, rfl⟩
      | some name =>
          obtain rfl := label?_eq_some.mp hl
          rw [cut] at h
          split_ifs at h
          obtain ⟨body, rest, more, hb, rfl, hc, rfl⟩ := ih h
          exact ⟨[], _, _, rfl, rfl, .cons hb hc, by simp [Block.of]⟩

/-- No two blocks have the same label. -/
theorem nodup_of_cut {code : List Instr} {done blocks : List Block} {cur : Block}
    (h : cut done cur code = .ok blocks) (hn : ((cur :: done).map (·.label)).Nodup) :
    (blocks.map (·.label)).Nodup := by
  induction code generalizing done cur with
  | nil =>
      cases h
      rw [List.map_reverse]
      exact List.nodup_reverse.mpr hn
  | cons i rest ih =>
      cases hl : i.label? with
      | none =>
          rw [cut_other hl] at h
          exact ih h (by simpa using hn)
      | some name =>
          obtain rfl := label?_eq_some.mp hl
          rw [cut] at h
          split_ifs at h with ha
          refine ih h (List.nodup_cons.mpr ⟨fun hm => ha ?_, hn⟩)
          obtain ⟨b, hb, hbn⟩ := List.mem_map.mp hm
          exact List.any_eq_true.mpr ⟨b, hb, by simpa using hbn⟩

/-- Code that defines no label twice is cut. -/
theorem exists_cut {code : List Instr} {done : List Block} {cur : Block}
    (h : ((cur :: done).map (·.label) ++ labels code).Nodup) :
    ∃ blocks, cut done cur code = .ok blocks := by
  induction code generalizing done cur with
  | nil => exact ⟨_, rfl⟩
  | cons i rest ih =>
      cases hl : i.label? with
      | none =>
          rw [cut_other hl]
          exact ih (by rw [labels_cons hl] at h; simpa using h)
      | some name =>
          obtain rfl := label?_eq_some.mp hl
          rw [labels_label] at h
          have hn : ¬ ((cur :: done).any fun b => b.label = name) := by
            intro ha
            obtain ⟨b, hb, hbn⟩ := List.any_eq_true.mp ha
            have hbn : b.label = name := by simpa using hbn
            refine List.disjoint_of_nodup_append h (a := name) ?_ List.mem_cons_self
            exact hbn ▸ List.mem_map_of_mem hb
          rw [cut, if_neg hn]
          refine ih (List.Perm.nodup_iff ?_ |>.mp h)
          exact List.perm_middle (a := name)

section

variable {code : List Instr} {blocks : List Block}

/-- The blocks are the code, in order. -/
theorem Cuts.text (h : Cuts code blocks) : blocks.flatMap (·.instrs) = code := by
  induction h with
  | nil => rfl
  | cons hb h ih => rw [List.flatMap_cons, ih, Block.instrs_of]

/-- Every label of the code starts a block. -/
theorem Cuts.labels (h : Cuts code blocks) : blocks.map (·.label) = Instr.labels code := by
  induction h with
  | nil => rfl
  | cons hb h ih => simp [ih, hb]

/-- Without labels, a terminator can only come last. -/
theorem Alternates.body {body : List Instr} (h : Alternates body) (hb : Instr.labels body = []) :
    body.IsChain fun i _ => i.isTerminator = false := by
  induction body with
  | nil => exact List.isChain_nil
  | cons i rest ih =>
      cases rest with
      | nil => exact List.isChain_singleton i
      | cons j rest =>
          obtain ⟨hij, hr⟩ := List.isChain_cons_cons.mp h
          have hl : ∀ k ∈ i :: j :: rest, k.label? = none := List.filterMap_eq_nil_iff.mp hb
          refine List.isChain_cons_cons.mpr ⟨?_, ih hr ?_⟩
          · rw [hl j (by simp)] at hij
            simpa using hij
          · rwa [labels_cons (hl i (by simp))] at hb

/-- A block of code in which labels follow just the terminators. -/
theorem Cuts.block (h : Cuts code blocks) (ha : Alternates code) {b : Block} (hm : b ∈ blocks) :
    ∃ name body, b = Block.of name body ∧ body.IsChain fun i _ => i.isTerminator = false := by
  induction h with
  | nil => cases hm
  | @cons name body rest blocks hb h ih =>
      obtain ⟨hfront, hrest, -⟩ := List.isChain_append.mp ha
      rcases List.mem_cons.mp hm with rfl | hm
      · exact ⟨name, body, rfl, Alternates.body hfront.tail hb⟩
      · exact ih hrest hm

/-- **The exits of the blocks are the targets of the code.** -/
theorem Cuts.mem_exitsOf (h : Cuts code blocks) (ha : Alternates code) {e : Bytes} (he : e ≠ []) :
    (∃ b ∈ blocks, e ∈ exitsOf b) ↔ ∃ i ∈ code, e ∈ i.targets := by
  have hb : ∀ b ∈ blocks, e ∈ exitsOf b ↔ ∃ i ∈ b.instrs, e ∈ i.targets := by
    intro b hm
    obtain ⟨name, body, rfl, hc⟩ := h.block ha hm
    rw [Block.of, mem_exitsOf_foldl hc rfl rfl he, ← Block.of, Block.instrs_of]
    simp [targets]
  rw [← h.text]
  constructor
  · rintro ⟨b, hm, hx⟩
    obtain ⟨i, hi, ht⟩ := (hb b hm).mp hx
    exact ⟨i, List.mem_flatMap_of_mem hm hi, ht⟩
  · rintro ⟨i, hi, ht⟩
    obtain ⟨b, hm, hi⟩ := List.mem_flatMap.mp hi
    exact ⟨b, hm, (hb b hm).mpr ⟨i, hi, ht⟩⟩

end

/-- A program whose blocks are those of some code. -/
structure Partitioned (code : List Instr) (p : Program) : Prop where
  cuts : Cuts code p.blocks
  order : p.order = p.blocks.map (·.label)
  entry : p.order.head? = some p.entry

section

variable {code : List Instr} {p : Program}

/-- Code that is cut is partitioned. -/
theorem partitioned_of_partition (h : partition code = .ok p) : Partitioned code p := by
  cases code with
  | nil => cases h
  | cons i rest =>
      cases i with
      | label name =>
          rw [partition] at h
          split at h
          · next blocks hc =>
              obtain ⟨body, rest, more, hb, rfl, hm, rfl⟩ := cuts_of_cut hc
              cases h
              exact ⟨.cons hb hm, rfl, by simp [label_foldl_extend]⟩
          · cases h
      | _ => cases h

/-- **Code that starts with a label and defines none twice is cut.** -/
theorem exists_partition {name : Bytes} {rest : List Instr}
    (hn : (labels (.label name :: rest)).Nodup) : ∃ p, partition (.label name :: rest) = .ok p := by
  obtain ⟨blocks, hb⟩ : ∃ blocks, cut [] ⟨name, [.label name], [], []⟩ rest = .ok blocks :=
    exists_cut hn
  exact ⟨_, by rw [partition, hb]⟩

/-- No two blocks have the same label. -/
theorem nodup_of_partition (h : partition code = .ok p) : (p.blocks.map (·.label)).Nodup := by
  cases code with
  | nil => cases h
  | cons i rest =>
      cases i with
      | label name =>
          rw [partition] at h
          split at h
          · next hc =>
              cases h
              exact nodup_of_cut hc (List.nodup_singleton _)
          · cases h
      | _ => cases h

theorem Partitioned.entry_mem (h : Partitioned code p) : p.entry ∈ p.order :=
  List.mem_of_head? h.entry

/-- A program is built by cutting the code that was labelled and closed. -/
theorem partition_of_build {l : Labeler} (h : build code l = .ok p) :
    partition (addJumps (addLabels code l).1) = .ok p := by
  unfold build at h
  split at h
  · cases h
  · next q hq =>
      split at h
      · cases h
      · cases h
        exact hq

theorem partitioned_of_build {l : Labeler} (h : build code l = .ok p) :
    Partitioned (addJumps (addLabels code l).1) p :=
  partitioned_of_partition (partition_of_build h)

/-! ### Checking the exits -/

/-- A block is found just if there is one with the label. -/
theorem block?_isSome_iff {label : Bytes} :
    (p.block? label).isSome ↔ label ∈ p.blocks.map (·.label) := by
  rw [block?, List.find?_isSome]
  simp

/-- The block of a label. -/
theorem block?_of_mem (hn : (p.blocks.map (·.label)).Nodup) {b : Block} (hb : b ∈ p.blocks) :
    p.block? b.label = some b := by
  obtain ⟨c, hc⟩ := Option.isSome_iff_exists.mp
    (block?_isSome_iff.mpr (List.mem_map_of_mem (f := (·.label)) hb))
  have hl : c.label = b.label := by simpa using List.find?_some hc
  rw [hc, List.inj_on_of_nodup_map hn (List.mem_of_find?_eq_some hc) hb hl]

/-- The exits of a block are checked in order, and the first that leads nowhere is named. -/
theorem checkExits_cases (p : Program) (b : Block) :
    (p.checkExits b = .ok () ∧ ∀ e ∈ exitsOf b, (p.block? e).isSome) ∨
      ∃ e ∈ exitsOf b, p.block? e = none ∧ p.checkExits b = .error (.unknownExit b.label e) := by
  unfold checkExits
  split
  · next e he =>
      have hm := List.mem_of_find?_eq_some he
      have hp := List.find?_some he
      simp only [Bool.and_eq_true, Option.isNone_iff_eq_none] at hp
      exact .inr ⟨e, List.mem_filter.mpr ⟨hm, hp.1⟩, hp.2, rfl⟩
  · next hnone =>
      refine .inl ⟨rfl, fun e he => ?_⟩
      obtain ⟨hm, hne⟩ := List.mem_filter.mp he
      have := List.find?_eq_none.mp hnone e hm
      simpa [hne, Option.isSome_iff_ne_none] using this

/-- So it is with those of all blocks. -/
theorem checkBlocks_cases {blocks : List Block} (h : ∀ b ∈ blocks, p.block? b.label = some b) :
    (p.checkBlocks (blocks.map (·.label)) = .ok () ∧
        ∀ b ∈ blocks, ∀ e ∈ exitsOf b, (p.block? e).isSome) ∨
      ∃ b ∈ blocks, ∃ e ∈ exitsOf b, p.block? e = none ∧
        p.checkBlocks (blocks.map (·.label)) = .error (.unknownExit b.label e) := by
  induction blocks with
  | nil => exact .inl ⟨rfl, nofun⟩
  | cons b rest ih =>
      rw [List.map_cons, checkBlocks, h b (by simp)]
      dsimp only
      rcases checkExits_cases p b with ⟨hok, hb⟩ | ⟨e, he, hnone, herr⟩
      · rw [hok]
        rcases ih fun c hc => h c (by simp [hc]) with ⟨hr, hall⟩ | ⟨c, hc, e, he, hnone, herr⟩
        · refine .inl ⟨hr, fun c hc => ?_⟩
          rcases List.mem_cons.mp hc with rfl | hc
          · exact hb
          · exact hall c hc
        · exact .inr ⟨c, by simp [hc], e, he, hnone, herr⟩
      · rw [herr]
        exact .inr ⟨b, by simp, e, he, hnone, rfl⟩

/-- **A partition is a program just if every exit is a label.** -/
theorem Partitioned.validate_cases (h : Partitioned code p) (hn : (labels code).Nodup) :
    (p.validate = .ok () ∧ ∀ b ∈ p.blocks, ∀ e ∈ exitsOf b, e ∈ labels code) ∨
      ∃ b ∈ p.blocks, ∃ e ∈ exitsOf b, e ∉ labels code ∧
        p.validate = .error (.unknownExit b.label e) := by
  have hl := h.cuts.labels
  have hentry : (p.block? p.entry).isSome := by
    rw [block?_isSome_iff, ← h.order]
    exact h.entry_mem
  have hsome : ∀ e, (p.block? e).isSome ↔ e ∈ labels code := by
    intro e
    rw [block?_isSome_iff, hl]
  rw [← hl] at hn
  unfold validate
  rw [h.order]
  cases he : p.block? p.entry with
  | none => rw [he] at hentry; cases hentry
  | some b =>
      simp only [← hsome, Bool.not_eq_true, Option.isSome_eq_false_iff, Option.isNone_iff_eq_none]
      exact checkBlocks_cases fun c hc => block?_of_mem hn hc

end

section

variable {code : List Instr}

/-- Labelled code starts with a label. -/
theorem addLabels_cons (hne : code ≠ []) (l : Labeler) :
    ∃ name rest, (addLabels code l).1 = .label name :: rest := by
  cases code with
  | nil => exact absurd rfl hne
  | cons i code =>
      rw [addLabels, insertLabels]
      split_ifs with hi
      · exact ⟨_, _, rfl⟩
      · obtain ⟨name, hname⟩ :=
          Option.ne_none_iff_exists'.mp (show i.label? ≠ none by simpa using hi)
        obtain rfl := label?_eq_some.mp hname
        exact ⟨_, _, rfl⟩

/-- **Code is refused just for a target that no label defines**, its own or one that is put in. -/
theorem build_cases (hne : code ≠ []) (hn : (labels code).Nodup) (l : Labeler) :
    (∃ p, build code l = .ok p ∧ Partitioned (addJumps (addLabels code l).1) p ∧
        ∀ i ∈ code, ∀ e ∈ i.targets, e ≠ [] → e ∈ labels (addLabels code l).1) ∨
      ∃ block e, build code l = .error (.unknownExit block e) ∧ e ≠ [] ∧
        e ∉ labels (addLabels code l).1 ∧ ∃ i ∈ code, e ∈ i.targets := by
  have hn' := nodup_labels_addLabels hn l
  have hl := labels_addJumps (addLabels code l).1
  obtain ⟨p, hp⟩ : ∃ p, partition (addJumps (addLabels code l).1) = .ok p := by
    obtain ⟨name, rest, hc⟩ := addLabels_cons hne l
    rw [hc] at hn' hl ⊢
    rw [addJumps_cons] at hl ⊢
    exact exists_partition (by rwa [hl])
  have hpart := partitioned_of_partition hp
  have halt : Alternates (addJumps (addLabels code l).1) := alternates_addJumps sealed_insertLabels
  obtain ⟨tagged, hpad, htag⟩ := padded_addJumps code l
  rw [← hl] at hn'
  rw [← hl, build, hp]
  dsimp only
  rcases hpart.validate_cases hn' with ⟨hok, hall⟩ | ⟨b, hb, e, he, hnone, herr⟩
  · rw [hok]
    refine .inl ⟨p, rfl, hpart, fun i hi e he hne => ?_⟩
    obtain ⟨b, hb, hx⟩ := (hpart.cuts.mem_exitsOf halt hne).mpr
      ⟨i, by rw [← htag]; exact hpad.subset hi, he⟩
    exact hall b hb e hx
  · rw [herr]
    have hne : e ≠ [] := by simpa using (List.mem_filter.mp he).2
    obtain ⟨i, hi, hx⟩ := (hpart.cuts.mem_exitsOf halt hne).mp ⟨b, hb, he⟩
    rw [← htag] at hi hnone
    refine .inr ⟨b.label, e, rfl, hne, by rwa [← htag], i, ?_, hx⟩
    exact (hpad.target hi hx).resolve_right hnone

/-! ### Dangling targets -/

/-- **When code is refused for an unknown label.**  Labels that are put in count as labels, so a
target that happens to have the name of one is not reported.  If no target without a label of its
own could be such a name, the error is reported just for the targets that the code itself does not
label. -/
theorem build_unknownLabel_iff (hne : code ≠ []) (hn : (labels code).Nodup)
    (ht : ∀ i ∈ code, ∀ e ∈ i.targets, e ≠ []) (stem : Bytes) :
    ((∃ error, build code { stem } = .error error ∧ error.isUnknownLabel) ↔
        ∃ i ∈ code, ∃ e ∈ i.targets, e ∉ labels (addLabels code { stem }).1) ∧
      ((∀ i ∈ code, ∀ e ∈ i.targets, e ∈ labels (addLabels code { stem }).1) →
        ∃ p, build code { stem } = .ok p) ∧
      ((∀ i ∈ code, ∀ n, Labeler.candidate stem n ∈ i.targets →
          Labeler.candidate stem n ∈ labels code) →
        ((∃ error, build code { stem } = .error error ∧ error.isUnknownLabel) ↔
            ∃ i ∈ code, ∃ e ∈ i.targets, e ∉ labels code) ∧
          ((∀ i ∈ code, ∀ e ∈ i.targets, e ∈ labels code) → ∃ p, build code { stem } = .ok p)) := by
  have hiff : (∃ error, build code { stem } = .error error ∧ error.isUnknownLabel) ↔
      ∃ i ∈ code, ∃ e ∈ i.targets, e ∉ labels (addLabels code { stem }).1 := by
    rcases build_cases hne hn { stem } with
      ⟨p, hok, -, hall⟩ | ⟨block, e, herr, -, hnone, i, hi, he⟩
    · refine ⟨fun ⟨error, herr, _⟩ => ?_, fun ⟨i, hi, e, he, hnone⟩ => ?_⟩
      · rw [hok] at herr
        cases herr
      · exact absurd (hall i hi e he (ht i hi e he)) hnone
    · exact ⟨fun _ => ⟨i, hi, e, he, hnone⟩, fun _ => ⟨_, herr, rfl⟩⟩
  have hok : (∀ i ∈ code, ∀ e ∈ i.targets, e ∈ labels (addLabels code { stem }).1) →
      ∃ p, build code { stem } = .ok p := by
    intro hall
    rcases build_cases hne hn { stem } with ⟨p, hok, -⟩ | ⟨_, e, -, -, hnone, i, hi, he⟩
    · exact ⟨p, hok⟩
    · exact absurd (hall i hi e he) hnone
  refine ⟨hiff, hok, fun hc => ?_⟩
  -- under the condition a target is a label of the result just if it is one of the code
  have hsame : ∀ i ∈ code, ∀ e ∈ i.targets,
      e ∈ labels (addLabels code { stem }).1 ↔ e ∈ labels code := by
    refine fun i hi e he => ⟨fun hm => ?_, fun hm => labels_subset_addLabels code { stem } hm⟩
    rcases mem_labels_addLabels hm with h | ⟨n, rfl⟩
    · exact h
    · exact hc i hi n he
  constructor
  · rw [hiff]
    exact exists_congr fun i => and_congr_right fun hi => exists_congr fun e =>
      and_congr_right fun he => not_congr (hsame i hi e he)
  · exact fun hall => hok fun i hi e he => (hsame i hi e he).mpr (hall i hi e he)

/-- A jump to `x` is reported, and once `x` is defined it is not. -/
theorem build_unknownLabel_iff_jump :
    (∃ error, build [.jump [0x78]] { stem := Bytes.ascii "block" } = .error error ∧
        error.isUnknownLabel) ∧
      ∃ p, build [.label [0x78], .jump [0x78]] { stem := Bytes.ascii "block" } = .ok p := by
  refine ⟨(build_unknownLabel_iff (by simp) (by decide) (by simp [targets]) _).1.mpr
    ⟨_, List.mem_singleton_self _, _, List.mem_singleton_self _, by decide +kernel⟩,
    (build_unknownLabel_iff (by simp) (by decide) (by simp [targets]) _).2.1 ?_⟩
  intro i hi e he
  refine labels_subset_addLabels _ _ ?_
  simp only [List.mem_cons, List.not_mem_nil, or_false] at hi
  rcases hi with rfl | rfl
  · cases he
  · exact he

/-- A jump to `block_0` is not reported where the first label that is put in has that name. -/
theorem build_captured :
    ∃ p, build [.jump (Bytes.ascii "block_0")] { stem := Bytes.ascii "block" } = .ok p ∧
      Bytes.ascii "block_0" ∉ labels [.jump (Bytes.ascii "block_0")] :=
  ⟨_, rfl, by decide⟩

end

end Program

end StackTape
