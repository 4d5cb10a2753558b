import StackTape.Proofs.Machine.Brackets

/-!
# Which bracket matches which

`Matches text i j`: the `[` at `i` and the `]` at `j` enclose balanced text.  `Unclosed text n i`:
the `[` at `i` has no match among the first `n` bytes.  The scan of a machine for the end of a loop
finds the match and nothing else (`matchFrom_eq_some_iff`).

`Nesting text n loops` takes the first `n` bytes apart: balanced text, then for every position of
`loops`, outermost first, a `[` and balanced text behind it.  It is the invariant of a run, kept by
every way in which the position moves (`Nesting.plain`, `enter`, `pass`, `back`), and its positions
are just those of the unclosed brackets, in order (`Nesting.lists`).

`Bytes.level` counts the open loops along a text and so decides whether it is balanced
(`balanced_iff_level`).
-/

namespace StackTape

/-! ### Counting open loops -/

/-- The number of loops that are open behind a text when `n` are open before it; `none` if a `]`
closes none. -/
def Bytes.level : Nat → Bytes → Option Nat
  | n, [] => some n
  | n, c :: rest =>
    if c = 0x5B then level (n + 1) rest
    else if c = 0x5D then
      match n with
      | 0 => none
      | n + 1 => level n rest
    else level n rest

namespace Bytes

theorem level_open (n : Nat) (rest : Bytes) : level n (0x5B :: rest) = level (n + 1) rest := rfl

theorem level_close (n : Nat) (rest : Bytes) : level (n + 1) (0x5D :: rest) = level n rest := rfl

theorem level_close_zero (rest : Bytes) : level 0 (0x5D :: rest) = none := rfl

theorem level_instr {c : UInt8} (h₁ : c ≠ 0x5B) (h₂ : c ≠ 0x5D) (n : Nat) (rest : Bytes) :
    level n (c :: rest) = level n rest := by
  rw [level.eq_def]
  exact (if_neg h₁).trans (if_neg h₂)

end Bytes

namespace Balanced

/-- Balanced text leaves as many loops open as there were. -/
theorem level_append {s : Bytes} (hs : Balanced s) (n : Nat) (t : Bytes) :
    Bytes.level n (s ++ t) = Bytes.level n t := by
  induction hs generalizing n t with
  | nil => rfl
  | instr h₁ h₂ _ ih => rw [List.cons_append, Bytes.level_instr h₁ h₂, ih]
  | @loop body rest _ _ ihb iht =>
      have e : 0x5B :: (body ++ 0x5D :: rest) ++ t = 0x5B :: (body ++ 0x5D :: (rest ++ t)) := by
        simp
      rw [e, Bytes.level_open, ihb, Bytes.level_close, iht]

theorem level_eq {s : Bytes} (hs : Balanced s) (n : Nat) : Bytes.level n s = some n := by
  have := hs.level_append n []
  rwa [List.append_nil] at this

/-- No balanced text has a `]` behind a balanced beginning. -/
theorem not_close {s t : Bytes} (hs : Balanced s) : ¬ Balanced (s ++ 0x5D :: t) := by
  intro h
  have := h.level_eq 0
  rw [hs.level_append, Bytes.level_close_zero] at this
  cases this

end Balanced

/-- A text that closes a loop opened before has a `]` behind a balanced beginning. -/
theorem exists_close {n k : Nat} {s : Bytes} (h : Bytes.level (n + 1) s = some k) (hk : k ≤ n) :
    ∃ a b, s = a ++ 0x5D :: b ∧ Balanced a ∧ Bytes.level n b = some k := by
  induction hs : s.length using Nat.strong_induction_on generalizing n s with
  | _ size ih =>
      cases s with
      | nil =>
          cases h
          omega
      | cons c rest =>
          rw [List.length_cons] at hs
          by_cases h₁ : c = 0x5B
          · -- the loop that opens here is closed first, then the one from before
            subst h₁
            rw [Bytes.level_open] at h
            obtain ⟨a, b, rfl, ha, hb⟩ := ih rest.length (by omega) h (by omega) rfl
            have hlt : b.length < size := by
              rw [← hs, List.length_append, List.length_cons]
              omega
            obtain ⟨a', b', rfl, ha', hb'⟩ := ih b.length hlt hb hk rfl
            exact ⟨0x5B :: (a ++ 0x5D :: a'), b', by simp, .loop ha ha', hb'⟩
          by_cases h₂ : c = 0x5D
          · subst h₂
            exact ⟨[], rest, rfl, .nil, h⟩
          · rw [Bytes.level_instr h₁ h₂] at h
            obtain ⟨a, b, rfl, ha, hb⟩ := ih rest.length (by omega) h hk rfl
            exact ⟨c :: a, b, rfl, .instr h₁ h₂ ha, hb⟩

theorem balanced_of_level {s : Bytes} (h : Bytes.level 0 s = some 0) : Balanced s := by
  induction hs : s.length using Nat.strong_induction_on generalizing s with
  | _ size ih =>
      cases s with
      | nil => exact .nil
      | cons c rest =>
          rw [List.length_cons] at hs
          by_cases h₁ : c = 0x5B
          · subst h₁
            obtain ⟨a, b, rfl, ha, hb⟩ := exists_close h (Nat.le_refl 0)
            have hlt : b.length < size := by
              rw [← hs, List.length_append, List.length_cons]
              omega
            exact .loop ha (ih b.length hlt hb rfl)
          by_cases h₂ : c = 0x5D
          · subst h₂
            cases h
          · rw [Bytes.level_instr h₁ h₂] at h
            exact .instr h₁ h₂ (ih rest.length (by omega) h rfl)

/-- **Text is balanced** when the loops it opens are those it closes. -/
theorem balanced_iff_level {s : Bytes} : Balanced s ↔ Bytes.level 0 s = some 0 :=
  ⟨fun h => h.level_eq 0, balanced_of_level⟩

instance (s : Bytes) : Decidable (Balanced s) := decidable_of_iff _ balanced_iff_level.symm

namespace Machine

variable {text : Array UInt8} {n i j : Nat} {loops : List Nat}

/-! ### Matching positions -/

/-- The `[` at `i` matches the `]` at `j`. -/
def Matches (text : Array UInt8) (i j : Nat) : Prop :=
  ∃ body, Balanced body ∧ Holds text i (0x5B :: (body ++ [0x5D])) ∧ j = i + 1 + body.length

/-- The `[` at `i` is still unclosed in the first `n` bytes. -/
def Unclosed (text : Array UInt8) (n i : Nat) : Prop :=
  i < n ∧ text.getD i 0 = 0x5B ∧ ∀ j < n, ¬ Matches text i j

/-- The list of the unclosed positions in the first `n` bytes, the last one first. -/
structure ListsUnclosed (text : Array UInt8) (n : Nat) (loops : List Nat) : Prop where
  descending : loops.Pairwise (· > ·)
  mem_iff (i : Nat) : i ∈ loops ↔ Unclosed text n i

/-- What a scan that finds an end has passed over. -/
theorem level_of_matchFrom {depth : Nat} (h : matchFrom text depth i = some j) :
    ∃ seg, Holds text i (seg ++ [0x5D]) ∧ j = i + seg.length ∧ Bytes.level depth seg = some 0 := by
  induction hd : text.size - i generalizing depth i with
  | zero =>
      rw [matchFrom.eq_def, dif_neg (by omega)] at h
      cases h
  | succ d ih =>
      have hi : i < text.size := by omega
      rw [matchFrom_eq hi] at h
      by_cases h₁ : text.getD i 0 = 0x5B
      · rw [if_pos h₁] at h
        obtain ⟨seg, hh, rfl, hl⟩ := ih h (by omega)
        exact ⟨0x5B :: seg, holds_cons_iff.mpr ⟨⟨hi, h₁⟩, hh⟩,
          by rw [List.length_cons]; omega, hl⟩
      rw [if_neg h₁] at h
      by_cases h₂ : text.getD i 0 = 0x5D
      · rw [if_pos h₂] at h
        cases depth with
        | zero =>
            cases h
            exact ⟨[], holds_cons_iff.mpr ⟨⟨hi, h₂⟩, List.nil_prefix⟩, rfl, rfl⟩
        | succ depth =>
            obtain ⟨seg, hh, rfl, hl⟩ := ih h (by omega)
            exact ⟨0x5D :: seg, holds_cons_iff.mpr ⟨⟨hi, h₂⟩, hh⟩,
              by rw [List.length_cons]; omega, hl⟩
      · rw [if_neg h₂] at h
        obtain ⟨seg, hh, rfl, hl⟩ := ih h (by omega)
        refine ⟨text.getD i 0 :: seg, holds_cons_iff.mpr ⟨⟨hi, rfl⟩, hh⟩,
          by rw [List.length_cons]; omega, ?_⟩
        rw [Bytes.level_instr h₁ h₂, hl]

/-- **The scan finds the match of a `[`**, and only that. -/
theorem matchFrom_eq_some_iff (hi : i < text.size) (hc : text.getD i 0 = 0x5B) :
    matchFrom text 0 (i + 1) = some j ↔ Matches text i j := by
  constructor
  · intro h
    obtain ⟨seg, hh, hj, hl⟩ := level_of_matchFrom h
    exact ⟨seg, balanced_of_level hl, holds_cons_iff.mpr ⟨⟨hi, hc⟩, hh⟩, hj⟩
  · rintro ⟨body, hb, hh, rfl⟩
    exact matchFrom_loop hb hh

/-- Every `[` of a balanced piece has its match in the piece. -/
theorem exists_matches {seg : Bytes} (hb : Balanced seg) {k : Nat} (hh : Holds text k seg)
    (hk : k ≤ i) (hi : i < k + seg.length) (hc : text.getD i 0 = 0x5B) :
    ∃ j < k + seg.length, Matches text i j := by
  induction hb generalizing k with
  | nil =>
      rw [List.length_nil] at hi
      omega
  | @instr c rest h₁ _ _ ih =>
      obtain ⟨⟨-, he⟩, hrest⟩ := holds_cons_iff.mp hh
      rw [List.length_cons] at hi ⊢
      have hne : i ≠ k := by
        rintro rfl
        exact h₁ (he.symm.trans hc)
      obtain ⟨j, hj, hm⟩ := ih hrest (by omega) (by omega)
      exact ⟨j, by omega, hm⟩
  | @loop body rest hbody _ ihb iht =>
      have e : 0x5B :: (body ++ 0x5D :: rest) = 0x5B :: (body ++ [0x5D]) ++ rest := by simp
      have hloop := (holds_append_iff.mp (e ▸ hh)).1
      obtain ⟨-, hin⟩ := holds_cons_iff.mp hh
      obtain ⟨hbd, hout⟩ := holds_append_iff.mp hin
      obtain ⟨⟨-, hclose⟩, hrest⟩ := holds_cons_iff.mp hout
      simp only [List.length_cons, List.length_append] at hi ⊢
      rcases Nat.lt_or_ge i (k + 1 + body.length) with hlt | hge
      · rcases Nat.eq_or_lt_of_le hk with rfl | hgt
        · exact ⟨k + 1 + body.length, by omega, body, hbody, hloop, rfl⟩
        · obtain ⟨j, hj, hm⟩ := ihb hbd hgt hlt
          exact ⟨j, by omega, hm⟩
      · have hne : i ≠ k + 1 + body.length := by
          rintro rfl
          rw [hclose] at hc
          exact absurd hc (by decide)
        obtain ⟨j, hj, hm⟩ := iht hrest (by omega) (by omega)
        exact ⟨j, by omega, hm⟩

/-! ### The shape of a beginning -/

/-- The first `n` bytes are balanced text with an unclosed `[` at every position of `loops`. -/
inductive Nesting (text : Array UInt8) : Nat → List Nat → Prop where
  | base {seg : Bytes} (hb : Balanced seg) (hh : Holds text 0 seg) : Nesting text seg.length []
  | inside {i : Nat} {loops : List Nat} {body : Bytes} (t : Nesting text i loops)
      (hi : i < text.size) (hc : text.getD i 0 = 0x5B) (hb : Balanced body)
      (hh : Holds text (i + 1) body) : Nesting text (i + 1 + body.length) (i :: loops)

namespace Nesting

theorem zero (text : Array UInt8) : Nesting text 0 [] := by
  have hh : Holds text 0 [] := List.nil_prefix
  exact .base .nil hh

/-- More balanced text. -/
theorem extend (h : Nesting text n loops) {seg : Bytes} (hb : Balanced seg)
    (hh : Holds text n seg) : Nesting text (n + seg.length) loops := by
  cases h with
  | base hb' hh' =>
      rw [← List.length_append]
      exact .base (hb'.append hb) (holds_append_iff.mpr ⟨hh', by rwa [Nat.zero_add]⟩)
  | inside t hi hc hb' hh' =>
      rw [Nat.add_assoc, ← List.length_append]
      exact .inside t hi hc (hb'.append hb) (holds_append_iff.mpr ⟨hh', hh⟩)

theorem plain (h : Nesting text n loops) (hn : n < text.size) (h₁ : text.getD n 0 ≠ 0x5B)
    (h₂ : text.getD n 0 ≠ 0x5D) : Nesting text (n + 1) loops := by
  have hh : Holds text n [text.getD n 0] := holds_cons_iff.mpr ⟨⟨hn, rfl⟩, List.nil_prefix⟩
  exact h.extend (.instr h₁ h₂ .nil) hh

theorem enter (h : Nesting text n loops) (hn : n < text.size) (hc : text.getD n 0 = 0x5B) :
    Nesting text (n + 1) (n :: loops) := by
  have hh : Holds text (n + 1) [] := List.nil_prefix
  exact .inside h hn hc .nil hh

theorem pass (h : Nesting text n loops) (hm : Matches text n j) :
    Nesting text (j + 1) loops := by
  obtain ⟨body, hb, hh, rfl⟩ := hm
  have := h.extend hb.enclose hh
  rw [List.length_cons, List.length_append, List.length_singleton] at this
  rwa [show n + 1 + body.length + 1 = n + (body.length + 1 + 1) by omega]

/-- A `]` behind some open loops matches the innermost, and before that one the others are open. -/
theorem back {top : Nat} (h : Nesting text n (top :: loops)) (hn : n < text.size)
    (hc : text.getD n 0 = 0x5D) : Nesting text top loops ∧ Matches text top n := by
  cases h with
  | @inside _ _ body t hi ho hb hh =>
      have hclose : Holds text (top + 1 + body.length) [0x5D] :=
        holds_cons_iff.mpr ⟨⟨hn, hc⟩, List.nil_prefix⟩
      have hbody : Holds text (top + 1) (body ++ [0x5D]) := holds_append_iff.mpr ⟨hh, hclose⟩
      exact ⟨t, body, hb, holds_cons_iff.mpr ⟨⟨hi, ho⟩, hbody⟩, rfl⟩

/-- A `[` with only balanced text behind it has no match there. -/
theorem not_matches {body : Bytes} (hb : Balanced body) (hh : Holds text (i + 1) body)
    (hj : j < i + 1 + body.length) : ¬ Matches text i j := by
  rintro ⟨body', hb', hh', rfl⟩
  obtain ⟨-, hclose⟩ := holds_cons_iff.mp hh'
  -- the shorter of two pieces at one place begins the longer
  have hpre : body' ++ [0x5D] <+: body := by
    refine List.prefix_of_prefix_length_le hclose hh ?_
    rw [List.length_append, List.length_singleton]
    omega
  obtain ⟨rest, rfl⟩ := hpre
  rw [List.append_assoc, List.singleton_append] at hb
  exact hb'.not_close hb

/-- **The positions of a nesting are those of the unclosed brackets.** -/
theorem lists (h : Nesting text n loops) : ListsUnclosed text n loops := by
  induction h with
  | @base seg hb hh =>
      refine ⟨.nil, fun i => ⟨fun hi => absurd hi List.not_mem_nil, fun ⟨hi, hc, hn⟩ => ?_⟩⟩
      obtain ⟨j, hj, hm⟩ :=
        exists_matches hb hh (Nat.zero_le i) (by rwa [Nat.zero_add]) hc
      rw [Nat.zero_add] at hj
      exact absurd hm (hn j hj)
  | @inside a loops body t ha hc hb hh ih =>
      have hbelow : ∀ i ∈ loops, i < a := fun i hi => ((ih.mem_iff i).mp hi).1
      have hopen : ∀ j < a + 1 + body.length, ¬ Matches text a j :=
        fun j hj => not_matches hb hh hj
      refine ⟨List.pairwise_cons.mpr ⟨hbelow, ih.descending⟩, fun i => ?_⟩
      rw [List.mem_cons]
      constructor
      · rintro (rfl | hi)
        · exact ⟨by omega, hc, hopen⟩
        · obtain ⟨hlt, hi, hno⟩ := (ih.mem_iff i).mp hi
          refine ⟨by omega, hi, fun j hj hm => ?_⟩
          -- a match at or behind `a` would enclose the `[` at `a`, and match it inside
          rcases Nat.lt_or_ge j a with hja | hja
          · exact hno j hja hm
          · obtain ⟨body', hb', hh', rfl⟩ := hm
            obtain ⟨-, hin⟩ := holds_cons_iff.mp hh'
            obtain ⟨hbd, hout⟩ := holds_append_iff.mp hin
            obtain ⟨⟨-, hclose⟩, -⟩ := holds_cons_iff.mp hout
            have hne : a ≠ i + 1 + body'.length := by
              rintro rfl
              rw [hclose] at hc
              exact absurd hc (by decide)
            obtain ⟨j', hj', hm'⟩ := exists_matches hb' hbd hlt (by omega) hc
            exact hopen j' (by omega) hm'
      · rintro ⟨hi, hci, hno⟩
        rcases Nat.lt_trichotomy i a with hlt | rfl | hgt
        · exact .inr ((ih.mem_iff i).mpr ⟨hlt, hci, fun j hj => hno j (by omega)⟩)
        · exact .inl rfl
        · obtain ⟨j, hj, hm⟩ := exists_matches hb hh hgt hi hci
          exact absurd hm (hno j hj)

/-- A beginning without open loops is balanced. -/
theorem balanced (h : Nesting text n []) :
    ∃ seg, Balanced seg ∧ Holds text 0 seg ∧ n = seg.length := by
  cases h with
  | base hb hh => exact ⟨_, hb, hh, rfl⟩

theorem le_size (h : Nesting text n loops) : n ≤ text.size := by
  cases h with
  | base _ hh => simpa using hh.length_le
  | inside _ hi _ _ hh =>
      have := hh.length_le
      simp only [List.length_drop, Array.length_toList] at this
      omega

end Nesting

end Machine

end StackTape
