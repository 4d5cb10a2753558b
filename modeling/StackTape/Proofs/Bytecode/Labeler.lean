import StackTape.Proofs.Bytecode.Labels

/-!
# The supply of labels

A labeler looks for the next free name with no bound on how far it goes.  `Finds` is that search;
`fresh` bounds it, and `fresh_finds` says that the bound is never met, so every search ends.

`History` keeps, beside the labeler, the names that calls have claimed and the labels that they were
given.  What holds after any calls is `History.Sound`, and from it `history_fresh`: the labels are
different, none was claimed before, and each is the first that is free.
-/

namespace StackTape

namespace Labeler

variable {stem : Bytes} {taken : List Bytes} {i j k : Nat}

/-! ### The search -/

/-- The search from a number on: it passes over the candidates that are taken and ends at the first
that is free. -/
inductive Finds (stem : Bytes) (taken : List Bytes) : Nat → Nat → Prop where
  | free {i : Nat} (h : candidate stem i ∉ taken) : Finds stem taken i i
  | skip {i j : Nat} (h : candidate stem i ∈ taken) (t : Finds stem taken (i + 1) j) :
      Finds stem taken i j

theorem Finds.le (h : Finds stem taken i j) : i ≤ j := by
  induction h with
  | free => exact le_rfl
  | skip _ _ ih => exact (Nat.le_succ _).trans ih

theorem Finds.not_mem (h : Finds stem taken i j) : candidate stem j ∉ taken := by
  induction h with
  | free h => exact h
  | skip _ _ ih => exact ih

/-- What the search passes over is taken. -/
theorem Finds.mem (h : Finds stem taken i j) (hi : i ≤ k) (hj : k < j) :
    candidate stem k ∈ taken := by
  induction h with
  | free => exact absurd hj (Nat.not_lt.mpr hi)
  | skip h _ ih =>
      rcases Nat.eq_or_lt_of_le hi with rfl | hi
      · exact h
      · exact ih hi hj

/-- The bounded search that comes to a free candidate is the search. -/
theorem finds_firstFree {fuel : Nat} (h : candidate stem (firstFree stem taken fuel i) ∉ taken) :
    Finds stem taken i (firstFree stem taken fuel i) := by
  induction fuel generalizing i with
  | zero => exact .free h
  | succ fuel ih =>
      rw [firstFree] at h ⊢
      split_ifs at h ⊢ with hi
      · exact .skip hi (ih h)
      · exact .free hi

/-- **Every search ends**, and a labeler hands out what it finds. -/
theorem fresh_finds (l : Labeler) :
    ∃ i, Finds l.stem l.taken l.next i ∧
      l.fresh = (candidate l.stem i, ⟨l.stem, i + 1, candidate l.stem i :: l.taken⟩) :=
  ⟨_, finds_firstFree l.fresh_not_mem, rfl⟩

/-! ### Calls -/

/-- A call to a labeler. -/
inductive Call where
  | claim (names : List Bytes)
  | next
deriving DecidableEq, Repr

/-- The names that calls have claimed, the labels they were given, and the labeler after them. -/
structure History where
  claimed : List Bytes := []
  given : List Bytes := []
  labeler : Labeler
deriving DecidableEq, Repr

namespace History

/-- One call more. -/
def after (h : History) : Call → History
  | .claim names =>
    { h with claimed := h.claimed ++ names, labeler := h.labeler.claim names }
  | .next => { h with given := h.given ++ [h.labeler.fresh.1], labeler := h.labeler.fresh.2 }

/-- What is so after any calls: just the names that were claimed or given are taken, every candidate
below the position is one of them, and the position is behind the label that was given last. -/
structure Sound (stem : Bytes) (h : History) : Prop where
  prefixed : h.labeler.stem = stem
  taken : ∀ name, name ∈ h.labeler.taken ↔ name ∈ h.claimed ∨ name ∈ h.given
  given : h.given.Nodup
  below : ∀ k < h.labeler.next, candidate stem k ∈ h.labeler.taken
  position : h.given = [] ∧ h.labeler.next = 0 ∨
    ∃ k, h.given.getLast? = some (candidate stem k) ∧ h.labeler.next = k + 1

variable {h : History}

/-- Below what a search finds, every candidate is taken. -/
theorem Sound.below_found (hs : h.Sound stem)
    (hi : Finds stem h.labeler.taken h.labeler.next i) :
    ∀ k < i, candidate stem k ∈ h.labeler.taken := by
  intro k hk
  rcases Nat.lt_or_ge k h.labeler.next with hb | hb
  · exact hs.below k hb
  · exact hi.mem hb hk

/-- No more candidates are taken than names were claimed and given. -/
theorem Sound.le_length (hs : h.Sound stem) {n : Nat}
    (hn : ∀ k < n, candidate stem k ∈ h.labeler.taken) :
    n ≤ h.claimed.length + h.given.length := by
  have hnd : ((List.range n).map (candidate stem)).Nodup :=
    List.nodup_range.map (candidate_injective stem)
  have hsub : (List.range n).map (candidate stem) ⊆ h.claimed ++ h.given := by
    intro name hm
    obtain ⟨k, hk, rfl⟩ := List.mem_map.mp hm
    exact List.mem_append.mpr ((hs.taken _).mp (hn k (List.mem_range.mp hk)))
  have hle := (hnd.subperm hsub).length_le
  rwa [List.length_map, List.length_range, List.length_append] at hle

theorem Sound.claim (hs : h.Sound stem) (names : List Bytes) :
    (h.after (.claim names)).Sound stem where
  prefixed := hs.prefixed
  taken name := by
    have hmem : name ∈ names ++ h.labeler.taken ↔ name ∈ h.claimed ++ names ∨ name ∈ h.given := by
      rw [List.mem_append, List.mem_append, hs.taken name, or_left_comm, or_assoc]
    exact hmem
  given := hs.given
  below k hk := List.mem_append_right _ (hs.below k hk)
  position := hs.position

/-- What the next call hands out. -/
theorem Sound.next_cases (hs : h.Sound stem) :
    ∃ i, Finds stem h.labeler.taken h.labeler.next i ∧
      h.after .next = { h with
        given := h.given ++ [candidate stem i]
        labeler := ⟨stem, i + 1, candidate stem i :: h.labeler.taken⟩ } := by
  obtain ⟨i, hi, hf⟩ := fresh_finds h.labeler
  rw [hs.prefixed] at hi hf
  exact ⟨i, hi, by rw [after, hf]⟩

theorem Sound.next (hs : h.Sound stem) : (h.after .next).Sound stem := by
  obtain ⟨i, hi, hafter⟩ := hs.next_cases
  have hnew : candidate stem i ∉ h.given := fun hm => hi.not_mem ((hs.taken _).mpr (.inr hm))
  rw [hafter]
  refine ⟨rfl, fun name => ?_, ?_, fun k hk => ?_, .inr ⟨i, List.getLast?_concat, rfl⟩⟩
  · have hmem : name ∈ candidate stem i :: h.labeler.taken ↔
        name ∈ h.claimed ∨ name ∈ h.given ++ [candidate stem i] := by
      rw [List.mem_cons, hs.taken name, List.mem_append, List.mem_singleton, or_comm, or_assoc]
    exact hmem
  · exact List.nodup_append_comm.mp (List.nodup_cons.mpr ⟨hnew, hs.given⟩)
  · rcases Nat.lt_or_eq_of_le (Nat.le_of_lt_succ hk) with hlt | rfl
    · exact List.mem_cons_of_mem _ (hs.below_found hi k hlt)
    · exact List.mem_cons_self

/-- **Every call keeps it.** -/
theorem Sound.after (hs : h.Sound stem) (c : Call) : (h.after c).Sound stem := by
  cases c with
  | claim names => exact hs.claim names
  | next => exact hs.next

end History

/-- What calls to a new labeler have claimed and were given. -/
def history (stem : Bytes) (calls : List Call) : History :=
  calls.foldl History.after { labeler := { stem } }

theorem history_concat (stem : Bytes) (calls : List Call) (c : Call) :
    history stem (calls ++ [c]) = (history stem calls).after c := by
  rw [history, List.foldl_append]
  rfl

theorem sound_history (stem : Bytes) (calls : List Call) : (history stem calls).Sound stem := by
  induction calls using List.reverseRecOn with
  | nil => exact ⟨rfl, by simp [history], List.nodup_nil, nofun, .inl ⟨rfl, rfl⟩⟩
  | append_singleton calls c ih =>
      rw [history_concat]
      exact ih.after c

/-- **Labels are fresh after any calls.**  The labels that were given are different.  If the next
call asks for a label, the search for it ends, and the label is neither a name that was claimed so
far nor a label that was given.  It is the first candidate from the position on that is neither; the
position is 0 at first, and then comes behind the last label.  No number is larger than the count of
the names that were claimed and given. -/
theorem history_fresh (stem : Bytes) (calls : List Call) :
    let h := history stem calls
    h.given.Nodup ∧
    ∃ i, Finds stem h.labeler.taken h.labeler.next i ∧
      (history stem (calls ++ [.next])).given = h.given ++ [candidate stem i] ∧
      candidate stem i ∉ h.claimed ∧ candidate stem i ∉ h.given ∧
      (h.given = [] ∧ h.labeler.next = 0 ∨
        ∃ k, h.given.getLast? = some (candidate stem k) ∧ h.labeler.next = k + 1) ∧
      (∀ k, h.labeler.next ≤ k → k < i →
        candidate stem k ∈ h.claimed ∨ candidate stem k ∈ h.given) ∧
      i ≤ h.claimed.length + h.given.length := by
  intro h
  have hs : h.Sound stem := sound_history stem calls
  obtain ⟨i, hi, hafter⟩ := hs.next_cases
  have hfree : ¬ (candidate stem i ∈ h.claimed ∨ candidate stem i ∈ h.given) :=
    (hs.taken _).not.mp hi.not_mem
  refine ⟨hs.given, i, hi, ?_, fun hm => hfree (.inl hm), fun hm => hfree (.inr hm), hs.position,
    fun k hk hlt => (hs.taken _).mp (hi.mem hk hlt), hs.le_length (hs.below_found hi)⟩
  rw [history_concat, hafter]

/-- Claims of names that look handed out, before and after they are reached. -/
example : (history [0x4C] [.claim [candidate [0x4C] 1], .next, .next, .claim [candidate [0x4C] 3],
    .next, .claim [candidate [0x4C] 0], .next]).given =
      [candidate [0x4C] 0, candidate [0x4C] 2, candidate [0x4C] 4, candidate [0x4C] 5] := by
  decide

end Labeler

end StackTape
