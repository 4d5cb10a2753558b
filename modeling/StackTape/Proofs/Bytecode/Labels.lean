import Mathlib
import StackTape.Bytecode.Program

/-!
# Labels and jumps put into code

A labeler never hands out a name that is taken (`Labeler.fresh_not_mem`), so `addLabels` defines no
label twice (`nodup_labels_addLabels`), and after `addJumps` a label follows just the terminators
(`alternates_addJumps`).

`Padded` says which instructions of the result were there before, and at which position of the
source: what is put in is a label, or a jump to the label that follows it.
-/

namespace StackTape

/-! ### Fresh names -/

/-- Numbers are told apart by their digits. -/
theorem Decimal.ofNat_injective : Function.Injective Decimal.ofNat := by
  have hread : ∀ n, (Decimal.ofNat n).map (fun b => Char.ofNat b.toNat) = Nat.toDigits 10 n := by
    intro n
    rw [Decimal.ofNat, List.map_map]
    refine (List.map_congr_left fun c hc => ?_).trans (List.map_id _)
    have hd := Nat.isDigit_of_mem_toDigits (by decide) (by decide) hc
    have hlt : c.toNat < 256 := by
      simp only [Char.isDigit, Bool.and_eq_true, decide_eq_true_eq, UInt32.le_iff_toNat_le] at hd
      exact lt_of_le_of_lt hd.2 (by decide)
    show Char.ofNat (c.toNat % 256) = c
    rw [Nat.mod_eq_of_lt hlt, Char.ofNat_toNat]
  intro m n h
  rw [← Nat.ofDigitChars_ten_toDigits (n := m), ← hread, h, hread, Nat.ofDigitChars_ten_toDigits]

namespace Labeler

/-- Candidates are told apart by their numbers. -/
theorem candidate_injective (stem : Bytes) : Function.Injective (candidate stem) := fun _ _ h =>
  Decimal.ofNat_injective (List.cons.inj (List.append_cancel_left h)).2

/-- The search finds a candidate that is free if there is one in reach. -/
theorem candidate_firstFree {stem : Bytes} {taken : List Bytes} {fuel i j : Nat} (hj : j < fuel)
    (hf : candidate stem (i + j) ∉ taken) :
    candidate stem (firstFree stem taken fuel i) ∉ taken := by
  induction fuel generalizing i j with
  | zero => omega
  | succ fuel ih =>
      rw [firstFree]
      split_ifs with hi
      · obtain ⟨j, rfl⟩ : ∃ k, j = k + 1 := by
          cases j with
          | zero => exact absurd hi hf
          | succ k => exact ⟨k, rfl⟩
        exact ih (Nat.lt_of_succ_lt_succ hj) (by rwa [Nat.add_assoc, Nat.add_comm 1])
      · exact hi

/-- **A fresh name was not taken.** -/
theorem fresh_not_mem (l : Labeler) : l.fresh.1 ∉ l.taken := by
  -- more candidates are looked at than names are taken
  by_contra h
  have hall : ∀ j < l.taken.length + 1, candidate l.stem (l.next + j) ∈ l.taken := by
    intro j hj
    by_contra hf
    exact candidate_firstFree hj hf h
  have hn : ((List.range (l.taken.length + 1)).map fun j =>
      candidate l.stem (l.next + j)).Nodup := by
    refine List.nodup_range.map fun a b hab => ?_
    have := candidate_injective l.stem hab
    omega
  have hsub : ((List.range (l.taken.length + 1)).map fun j =>
      candidate l.stem (l.next + j)) ⊆ l.taken := by
    intro name hm
    obtain ⟨j, hj, rfl⟩ := List.mem_map.mp hm
    exact hall j (List.mem_range.mp hj)
  have hle := (hn.subperm hsub).length_le
  rw [List.length_map, List.length_range] at hle
  omega

theorem taken_fresh (l : Labeler) : l.fresh.2.taken = l.fresh.1 :: l.taken := rfl

/-- A fresh label is a candidate. -/
theorem fresh_eq_candidate (l : Labeler) : ∃ i, l.fresh.1 = candidate l.stem i := ⟨_, rfl⟩

end Labeler

/-! ### Labels of code -/

namespace Instr

/-- The labels that code defines. -/
def labels (code : List Instr) : List Bytes := code.filterMap label?

@[simp] theorem labels_nil : labels [] = [] := rfl

@[simp] theorem labels_label (name : Bytes) (code : List Instr) :
    labels (.label name :: code) = name :: labels code := rfl

/-- Only labels define a label. -/
theorem labels_cons {i : Instr} (h : i.label? = none) (code : List Instr) :
    labels (i :: code) = labels code := List.filterMap_cons_none h

@[simp] theorem labels_append (code more : List Instr) :
    labels (code ++ more) = labels code ++ labels more := List.filterMap_append

theorem label?_eq_some {i : Instr} {name : Bytes} : i.label? = some name ↔ i = .label name := by
  cases i <;> simp [label?]

/-- The labels of code are those of its label instructions. -/
theorem mem_labels {code : List Instr} {name : Bytes} :
    name ∈ labels code ↔ Instr.label name ∈ code := by
  simp [labels, List.mem_filterMap, label?_eq_some]

end Instr

namespace Program

open Instr

section

variable {opens : Bool} {code : List Instr} {l : Labeler}

/-- A label that is put in was not taken, and is a candidate. -/
theorem mem_labels_insertLabels {name : Bytes}
    (h : name ∈ labels (insertLabels opens code l).1) :
    name ∈ labels code ∨ name ∉ l.taken ∧ ∃ i, name = Labeler.candidate l.stem i := by
  induction code generalizing opens l with
  | nil => cases h
  | cons i rest ih =>
      rw [insertLabels] at h
      split_ifs at h with hi
      · have hnone : i.label? = none := by simpa using (Bool.and_eq_true_iff.mp hi).2
        rw [labels_label, labels_cons hnone] at h
        rw [labels_cons hnone]
        rcases List.mem_cons.mp h with rfl | h
        · exact .inr ⟨l.fresh_not_mem, l.fresh_eq_candidate⟩
        · refine (ih h).imp_right fun ⟨ht, hc⟩ => ⟨fun hm => ht ?_, hc⟩
          rw [l.taken_fresh]
          exact List.mem_cons_of_mem _ hm
      · cases hl : i.label? with
        | none =>
            rw [labels_cons hl] at h ⊢
            exact ih h
        | some n =>
            obtain rfl := label?_eq_some.mp hl
            rw [labels_label] at h ⊢
            rcases List.mem_cons.mp h with rfl | h
            · exact .inl List.mem_cons_self
            · exact (ih h).imp_left (List.mem_cons_of_mem _)

/-- Labels that are there stay. -/
theorem labels_subset_insertLabels : labels code ⊆ labels (insertLabels opens code l).1 := by
  induction code generalizing opens l with
  | nil => exact List.nil_subset _
  | cons i rest ih =>
      intro name hm
      rw [insertLabels]
      have hin : name ∈ labels (i :: (insertLabels i.isTerminator rest l).1) ∧
          name ∈ labels (i :: (insertLabels i.isTerminator rest l.fresh.2).1) := by
        simp only [mem_labels, List.mem_cons] at hm ih ⊢
        exact ⟨hm.imp_right fun h => mem_labels.mp (ih (mem_labels.mpr h)),
          hm.imp_right fun h => mem_labels.mp (ih (mem_labels.mpr h))⟩
      split_ifs
      · exact List.mem_cons_of_mem _ hin.2
      · exact hin.1

/-- Labels that are put in are new, and no two are the same. -/
theorem nodup_labels_insertLabels (hn : (labels code).Nodup) (ht : labels code ⊆ l.taken) :
    (labels (insertLabels opens code l).1).Nodup := by
  induction code generalizing opens l with
  | nil => exact List.nodup_nil
  | cons i rest ih =>
      rw [insertLabels]
      split_ifs with hi
      · have hnone : i.label? = none := by simpa using (Bool.and_eq_true_iff.mp hi).2
        rw [labels_cons hnone] at hn ht
        rw [labels_label, labels_cons hnone, List.nodup_cons]
        refine ⟨fun hm => ?_, ih hn fun name hm => ?_⟩
        · rcases mem_labels_insertLabels hm with h | ⟨h, -⟩
          · exact l.fresh_not_mem (ht h)
          · exact h (by rw [l.taken_fresh]; exact List.mem_cons_self)
        · rw [l.taken_fresh]
          exact List.mem_cons_of_mem _ (ht hm)
      · cases hl : i.label? with
        | none =>
            rw [labels_cons hl] at hn ht ⊢
            exact ih hn ht
        | some n =>
            obtain rfl := label?_eq_some.mp hl
            rw [labels_label, List.nodup_cons] at hn ⊢
            rw [labels_label] at ht
            refine ⟨fun hm => ?_, ih hn.2 fun name hm => ht (List.mem_cons_of_mem _ hm)⟩
            rcases mem_labels_insertLabels hm with h | ⟨h, -⟩
            · exact hn.1 h
            · exact h (ht List.mem_cons_self)

end

variable {code : List Instr} {l : Labeler}

/-- **No label is defined twice** if none was. -/
theorem nodup_labels_addLabels (hn : (labels code).Nodup) (l : Labeler) :
    (labels (addLabels code l).1).Nodup :=
  nodup_labels_insertLabels hn fun _ hm => List.mem_append_left _ hm

theorem labels_subset_addLabels (code : List Instr) (l : Labeler) :
    labels code ⊆ labels (addLabels code l).1 :=
  labels_subset_insertLabels

/-- Every label was there or is a candidate. -/
theorem mem_labels_addLabels {name : Bytes} (h : name ∈ labels (addLabels code l).1) :
    name ∈ labels code ∨ ∃ i, name = Labeler.candidate l.stem i :=
  (mem_labels_insertLabels h).imp_right fun ⟨_, hc⟩ => hc

/-! ### Where labels stand -/

/-- After a terminator comes a label. -/
def Sealed : List Instr → Prop :=
  List.IsChain fun i j => i.isTerminator → j.label?.isSome

/-- A label comes just after a terminator. -/
def Alternates : List Instr → Prop :=
  List.IsChain fun i j => j.label?.isSome ↔ i.isTerminator

/-- Code that opens a block starts with a label. -/
theorem head_insertLabels {i : Instr} (h : i ∈ (insertLabels true code l).1.head?) :
    i.label?.isSome := by
  cases code with
  | nil => cases h
  | cons j rest =>
      rw [insertLabels] at h
      split_ifs at h with hj
      · cases h
        rfl
      · cases h
        simpa [Option.isSome_iff_ne_none] using hj

/-- **After labelling, every terminator is followed by a label**, or by nothing. -/
theorem sealed_insertLabels {opens : Bool} : Sealed (insertLabels opens code l).1 := by
  induction code generalizing opens l with
  | nil => exact List.isChain_nil
  | cons i rest ih =>
      have hc : ∀ l', Sealed (i :: (insertLabels i.isTerminator rest l').1) := by
        intro l'
        refine List.isChain_cons.mpr ⟨fun j hj hi => ?_, ih⟩
        rw [hi] at hj
        exact head_insertLabels hj
      rw [insertLabels]
      split_ifs
      · exact List.isChain_cons_cons.mpr ⟨nofun, hc _⟩
      · exact hc _

/-- The jump from an instruction into a label. -/
def bridge (i : Instr) : Option Instr → List Instr
  | some (.label name) => if i.isTerminator then [] else [.jump name]
  | _ => []

theorem addJumps_cons (i : Instr) (code : List Instr) :
    addJumps (i :: code) = i :: (bridge i code.head? ++ addJumps code) := by
  cases code with
  | nil => rfl
  | cons next rest =>
      cases next with
      | label name =>
          simp only [addJumps, bridge, List.head?_cons]
          split_ifs <;> rfl
      | _ => rfl

/-- A jump is put in only between an instruction that goes on and a label. -/
theorem bridge_cases (i : Instr) (next : Option Instr) :
    (bridge i next = [] ∧ ∀ j ∈ next, j.label?.isSome → i.isTerminator) ∨
      ∃ name, next = some (.label name) ∧ i.isTerminator = false ∧
        bridge i next = [.jump name] := by
  cases next with
  | none => exact .inl ⟨rfl, nofun⟩
  | some j =>
      cases j with
      | label name =>
          cases hi : i.isTerminator with
          | true => exact .inl ⟨by simp [bridge, hi], fun _ _ _ => rfl⟩
          | false => exact .inr ⟨name, rfl, rfl, by simp [bridge, hi]⟩
      | _ =>
          refine .inl ⟨rfl, ?_⟩
          rintro _ ⟨⟩ h
          cases h

/-- No jump is put in front of the code. -/
theorem head?_addJumps (code : List Instr) : (addJumps code).head? = code.head? := by
  cases code with
  | nil => rfl
  | cons i rest => rw [addJumps_cons, List.head?_cons, List.head?_cons]

theorem labels_bridge (i : Instr) (next : Option Instr) : labels (bridge i next) = [] := by
  rcases bridge_cases i next with ⟨h, -⟩ | ⟨name, -, -, h⟩
  · rw [h]
    rfl
  · rw [h]
    rfl

/-- Jumps define no label. -/
theorem labels_addJumps (code : List Instr) : labels (addJumps code) = labels code := by
  induction code with
  | nil => rfl
  | cons i rest ih =>
      rw [addJumps_cons, ← List.singleton_append, labels_append, labels_append, labels_bridge, ih,
        List.nil_append, ← labels_append]
      rfl

theorem isTerminator_jump (name : Bytes) : (Instr.jump name).isTerminator := rfl

/-- **A label comes just after a terminator** once the jumps are put in. -/
theorem alternates_addJumps (h : Sealed code) : Alternates (addJumps code) := by
  induction code with
  | nil => exact List.isChain_nil
  | cons i rest ih =>
      obtain ⟨hi, hr⟩ := List.isChain_cons.mp h
      have hrest : Alternates (addJumps rest) := ih hr
      rw [addJumps_cons]
      rcases bridge_cases i rest.head? with ⟨hb, hn⟩ | ⟨name, hn, ht, hb⟩
      · rw [hb, List.nil_append]
        refine List.isChain_cons.mpr ⟨fun j hj => ?_, hrest⟩
        rw [head?_addJumps] at hj
        exact ⟨hn j hj, hi j hj⟩
      · rw [hb, List.singleton_append]
        refine List.isChain_cons_cons.mpr ⟨by simp [ht, label?], List.isChain_cons.mpr
          ⟨fun j hj => ?_, hrest⟩⟩
        rw [head?_addJumps, hn] at hj
        cases hj
        simp [label?, isTerminator_jump]

/-! ### Where instructions come from -/

/-- Code with labels and jumps put in.  An instruction carries its position in the source, counted
from `k`, or none if it is put in. -/
inductive Padded : Nat → List Instr → List (Option Nat × Instr) → Prop where
  | nil (k : Nat) : Padded k [] []
  | keep {k : Nat} {i : Instr} {rest : List Instr} {tagged : List (Option Nat × Instr)}
      (h : Padded (k + 1) rest tagged) : Padded k (i :: rest) ((some k, i) :: tagged)
  | mark {k : Nat} {code : List Instr} {tagged : List (Option Nat × Instr)} (name : Bytes)
      (h : Padded k code tagged) : Padded k code ((none, .label name) :: tagged)
  | jump {k : Nat} {code : List Instr} {o : Option Nat} {name : Bytes}
      {tagged : List (Option Nat × Instr)} (h : Padded k code ((o, .label name) :: tagged)) :
      Padded k code ((none, .jump name) :: (o, .label name) :: tagged)

/-- **Labelling only puts labels in.** -/
theorem padded_insertLabels (opens : Bool) (code : List Instr) (l : Labeler) (k : Nat) :
    ∃ tagged, Padded k code tagged ∧ tagged.map (·.2) = (insertLabels opens code l).1 := by
  induction code generalizing opens l k with
  | nil => exact ⟨[], .nil k, rfl⟩
  | cons i rest ih =>
      rw [insertLabels]
      split_ifs
      · obtain ⟨tagged, hp, ht⟩ := ih i.isTerminator l.fresh.2 (k + 1)
        exact ⟨_, .mark l.fresh.1 (.keep hp), by simp [ht]⟩
      · obtain ⟨tagged, hp, ht⟩ := ih i.isTerminator l (k + 1)
        exact ⟨_, .keep hp, by simp [ht]⟩

/-- A jump may be put in front of a label. -/
theorem Padded.bridge {k : Nat} {tagged : List (Option Nat × Instr)} (h : Padded k code tagged)
    (i : Instr) :
    Padded k code ((Program.bridge i (tagged.map (·.2)).head?).map (none, ·) ++ tagged) := by
  cases tagged with
  | nil => exact h
  | cons t tagged =>
      obtain ⟨o, j⟩ := t
      cases j with
      | label name =>
          simp only [Program.bridge, List.map_cons, List.head?_cons]
          split_ifs
          · exact h
          · exact .jump h
      | _ => exact h

/-- The next instruction goes in front of what is done, perhaps with a jump behind it. -/
theorem Padded.cons_addJumps {k : Nat} {tagged : List (Option Nat × Instr)}
    (h : Padded k code tagged) {more : List Instr} (hm : tagged.map (·.2) = addJumps more)
    (o : Option Nat) (i : Instr) :
    ∃ jumps, Padded k code (jumps ++ tagged) ∧
      ((o, i) :: (jumps ++ tagged)).map (·.2) = addJumps (i :: more) := by
  refine ⟨_, h.bridge i, ?_⟩
  rw [List.map_cons, addJumps_cons, List.map_append, hm, head?_addJumps]
  simp [Function.comp_def]

/-- **Closing blocks only puts jumps in.** -/
theorem Padded.addJumps {k : Nat} {tagged : List (Option Nat × Instr)} (h : Padded k code tagged) :
    ∃ tagged', Padded k code tagged' ∧ tagged'.head? = tagged.head? ∧
      tagged'.map (·.2) = Program.addJumps (tagged.map (·.2)) := by
  induction h with
  | nil k => exact ⟨[], .nil k, rfl, rfl⟩
  | @keep k i rest tagged h ih =>
      obtain ⟨tagged', hp, -, hm⟩ := ih
      obtain ⟨jumps, hp', hm'⟩ := hp.cons_addJumps hm (some k) i
      exact ⟨_, .keep hp', rfl, hm'⟩
  | @mark k code tagged name h ih =>
      obtain ⟨tagged', hp, -, hm⟩ := ih
      obtain ⟨jumps, hp', hm'⟩ := hp.cons_addJumps hm none (.label name)
      exact ⟨_, .mark name hp', rfl, hm'⟩
  | @jump k code o name tagged h ih =>
      obtain ⟨tagged', hp, hd, hm⟩ := ih
      obtain ⟨tagged'', rfl⟩ : ∃ tagged'', tagged' = (o, .label name) :: tagged'' := by
        cases tagged' with
        | nil => cases hd
        | cons t tagged'' =>
            cases hd
            exact ⟨tagged'', rfl⟩
      refine ⟨_, .jump hp, rfl, ?_⟩
      rw [List.map_cons, hm]
      rfl

/-- Every instruction of the code is still there. -/
theorem Padded.subset {k : Nat} {tagged : List (Option Nat × Instr)} (h : Padded k code tagged) :
    code ⊆ tagged.map (·.2) := by
  induction h with
  | nil => exact List.nil_subset _
  | keep _ ih => exact List.cons_subset_cons _ ih
  | mark _ _ ih | jump _ ih => exact List.Subset.trans ih (List.subset_cons_self ..)

/-- What is put in goes on at no label that is not there. -/
theorem Padded.target {k : Nat} {tagged : List (Option Nat × Instr)} (h : Padded k code tagged)
    {i : Instr} (hi : i ∈ tagged.map (·.2)) {e : Bytes} (he : e ∈ i.targets) :
    i ∈ code ∨ e ∈ labels (tagged.map (·.2)) := by
  have hcons : ∀ {t : Option Nat × Instr} {more : List (Option Nat × Instr)},
      e ∈ labels (more.map (·.2)) → e ∈ labels ((t :: more).map (·.2)) := fun hm =>
    mem_labels.mpr (List.mem_cons_of_mem _ (mem_labels.mp hm))
  induction h with
  | nil => cases hi
  | keep _ ih =>
      rcases List.mem_cons.mp hi with rfl | hi
      · exact .inl List.mem_cons_self
      · exact (ih hi).imp (List.mem_cons_of_mem _) hcons
  | mark name _ ih =>
      rcases List.mem_cons.mp hi with rfl | hi
      · cases he
      · exact (ih hi).imp_right hcons
  | jump _ ih =>
      rcases List.mem_cons.mp hi with rfl | hi
      · obtain rfl := List.mem_singleton.mp he
        exact .inr (mem_labels.mpr (by simp))
      · exact (ih hi).imp_right hcons

/-- **What partitioning starts from** is the source with labels and jumps put in. -/
theorem padded_addJumps (code : List Instr) (l : Labeler) :
    ∃ tagged, Padded 0 code tagged ∧ tagged.map (·.2) = addJumps (addLabels code l).1 := by
  obtain ⟨tagged, hp, hm⟩ :=
    padded_insertLabels true code (l.claim (code.filterMap Instr.label?)) 0
  obtain ⟨tagged', hp', -, hm'⟩ := hp.addJumps
  exact ⟨tagged', hp', by rw [hm', hm]; rfl⟩

end Program

end StackTape
