import Mathlib
import StackTape.Text.Blank

/-!
# Runes of texts that are put together

Cutting a text into runes loses nothing (`ofRunes_runes`).  A rune reads no further than its own
bytes: before a byte that continues no character a text has the runes it has alone
(`runes_append`), and a run of a text's runes is what its own bytes are cut into
(`runes_ofRunes`).
-/

namespace StackTape

namespace Bytes

theorem ofRunes_nil : ofRunes [] = [] := rfl

theorem ofRunes_cons (r : Rune) (rs : List Rune) : ofRunes (r :: rs) = r.bytes ++ ofRunes rs := rfl

theorem ofRunes_append (rs rs' : List Rune) : ofRunes (rs ++ rs') = ofRunes rs ++ ofRunes rs' := by
  simp [ofRunes]

end Bytes

namespace Utf8

/-! ### The bytes that complete a character -/

/-- The bytes are what a first byte with this promise needs. -/
def Lead.Completed (l : Lead) : Bytes → Prop
  | [] => l.tails = 0
  | b :: more => more.length + 1 = l.tails ∧ l.low ≤ b ∧ b ≤ l.high ∧ ∀ t ∈ more, isTail t = true

theorem Lead.Completed.length {l : Lead} {tails : Bytes} (h : l.Completed tails) :
    tails.length = l.tails := by
  cases tails with
  | nil => exact h.symm
  | cons b more => exact h.1

/-- What completes a character is the front of what follows, however far that goes. -/
theorem tailsOf_eq_some {a : UInt8} {rest tails : Bytes} :
    tailsOf a rest = some tails ↔ ∃ l, lead a = some l ∧ l.Completed tails ∧ tails <+: rest := by
  have hfront : ∀ l : Lead, l.Completed tails → (tails <+: rest ↔ rest.take l.tails = tails) :=
    fun l hl => by rw [List.prefix_iff_eq_take, hl.length, eq_comm]
  unfold tailsOf
  cases lead a with
  | none => simp
  | some l =>
      simp only [Option.some.injEq, exists_eq_left']
      rw [and_congr_right (hfront l)]
      cases rest.take l.tails with
      | nil =>
          have : (([] : Bytes) = tails) ↔ tails = [] := eq_comm
          by_cases hl : l.tails = 0 <;> simp only [hl, if_true, if_false] <;> grind [Lead.Completed]
      | cons b more => grind [Lead.Completed]

/-- Every byte that a first byte can promise continues a character. -/
theorem isTail_of_lead {a b : UInt8} {l : Lead} (hl : lead a = some l) (hlow : l.low ≤ b)
    (hhigh : b ≤ l.high) : isTail b = true := by
  have hrange : 0x80 ≤ l.low ∧ l.high ≤ 0xBF := by
    unfold lead at hl
    split_ifs at hl <;> cases hl <;> decide
  simp only [isTail, Bool.and_eq_true, decide_eq_true_eq]
  exact ⟨UInt8.le_trans hrange.1 hlow, UInt8.le_trans hhigh hrange.2⟩

theorem isTail_of_mem_tailsOf {a t : UInt8} {rest tails : Bytes}
    (h : tailsOf a rest = some tails) (ht : t ∈ tails) : isTail t = true := by
  obtain ⟨l, hl, hc, -⟩ := tailsOf_eq_some.mp h
  cases tails with
  | nil => cases ht
  | cons b more =>
      obtain ⟨-, hlow, hhigh, hmore⟩ := hc
      rcases List.mem_cons.mp ht with rfl | ht
      · exact isTail_of_lead hl hlow hhigh
      · exact hmore t ht

/-- A byte that continues no character hides what stands behind it. -/
theorem tailsOf_append {c : UInt8} (hc : isTail c = false) (a : UInt8) (rest more : Bytes) :
    tailsOf a (rest ++ c :: more) = tailsOf a rest := by
  refine Option.ext fun tails => ⟨fun h => ?_, fun h => ?_⟩
  · have hnot : c ∉ tails := fun hm => by
      rw [isTail_of_mem_tailsOf h hm] at hc
      cases hc
    obtain ⟨l, hl, hcomplete, hfront⟩ := tailsOf_eq_some.mp h
    refine tailsOf_eq_some.mpr ⟨l, hl, hcomplete, ?_⟩
    have hto : rest ++ [c] <+: rest ++ c :: more := ⟨more, by simp⟩
    rcases List.prefix_or_prefix_of_prefix hfront hto with hshort | hlong
    · rcases List.prefix_concat_iff.mp hshort with rfl | hshort
      · simp at hnot
      · exact hshort
    · exact absurd (hlong.subset (by simp)) hnot
  · obtain ⟨l, hl, hcomplete, hfront⟩ := tailsOf_eq_some.mp h
    exact tailsOf_eq_some.mpr ⟨l, hl, hcomplete, hfront.trans (List.prefix_append _ _)⟩

/-! ### Runes -/

/-- What is left of a text behind its first rune. -/
def behind (a : UInt8) (rest : Bytes) : Bytes := rest.drop ((runeAt a rest).bytes.length - 1)

theorem runes_nil : runes [] = [] := by
  rw [runes]

theorem runes_cons (a : UInt8) (rest : Bytes) :
    runes (a :: rest) = runeAt a rest :: runes (behind a rest) := by
  rw [runes, behind]

theorem bytes_runeAt (a : UInt8) (rest : Bytes) :
    (runeAt a rest).bytes ++ behind a rest = a :: rest := by
  unfold behind runeAt
  cases h : tailsOf a rest with
  | none => rfl
  | some tails =>
      obtain ⟨-, -, -, more, rfl⟩ := tailsOf_eq_some.mp h
      simp

/-- Texts are built from the back by putting a rune in front. -/
theorem runes_induction {motive : Bytes → Prop} (nil : motive [])
    (cons : ∀ a rest, motive (behind a rest) → motive (a :: rest)) (b : Bytes) : motive b := by
  induction b using runes.induct with
  | case1 => exact nil
  | case2 a rest r ih => exact cons a rest ih

/-- The runes of a text make up the text. -/
theorem ofRunes_runes (b : Bytes) : Bytes.ofRunes (runes b) = b := by
  induction b using runes_induction with
  | nil => rw [runes]; rfl
  | cons a rest ih =>
      rw [runes_cons, Bytes.ofRunes_cons, ih, bytes_runeAt]

theorem bytes_ne_nil {r : Rune} {b : Bytes} (h : r ∈ runes b) : r.bytes ≠ [] := by
  induction b using runes_induction with
  | nil =>
      rw [runes] at h
      cases h
  | cons a rest ih =>
      rw [runes_cons] at h
      rcases List.mem_cons.mp h with rfl | h
      · unfold runeAt
        cases tailsOf a rest <;> simp
      · exact ih h

/-! ### Texts one after another -/

theorem behind_append {c : UInt8} (hc : isTail c = false) (a : UInt8) (rest more : Bytes) :
    behind a (rest ++ c :: more) = behind a rest ++ c :: more := by
  have hrune : runeAt a (rest ++ c :: more) = runeAt a rest := by
    rw [runeAt, runeAt, tailsOf_append hc]
  have hlength : (runeAt a rest).bytes.length - 1 ≤ rest.length := by
    have := congrArg List.length (bytes_runeAt a rest)
    rw [List.length_append, List.length_cons] at this
    omega
  rw [behind, hrune, List.drop_append_of_le_length hlength, behind]

/-- Before a byte that continues no character a text is cut as it is alone. -/
theorem runes_append {c : UInt8} (hc : isTail c = false) (b more : Bytes) :
    runes (b ++ c :: more) = runes b ++ runes (c :: more) := by
  induction b using runes_induction with
  | nil => rw [runes_nil, List.nil_append, List.nil_append]
  | cons a rest ih =>
      rw [List.cons_append, runes_cons, runes_cons, runeAt, tailsOf_append hc, behind_append hc, ih]
      rfl

theorem isTail_ascii {c : UInt8} (hc : c ≤ 0x7F) : isTail c = false := by
  simp only [isTail, Bool.and_eq_false_imp, decide_eq_true_eq, decide_eq_false_iff_not]
  intro h
  exact absurd (UInt8.le_trans h hc) (by decide)

/-- An ASCII byte is a rune. -/
theorem runes_ascii_cons {c : UInt8} (hc : c ≤ 0x7F) (rest : Bytes) :
    runes (c :: rest) = ⟨[c], some c.toNat⟩ :: runes rest := by
  have htails : tailsOf c rest = some [] := by
    simp [tailsOf, lead, hc]
  rw [runes_cons, behind, runeAt, htails]
  rfl

/-! ### Runs of runes -/

/-- A text cut short behind the first rune or later starts with the same rune. -/
theorem tailsOf_of_prefix {a : UInt8} {front rest : Bytes} (h : front <+: rest)
    (hlong : ∀ tails, tailsOf a rest = some tails → tails <+: front) :
    tailsOf a front = tailsOf a rest := by
  refine Option.ext fun tails => ⟨fun hf => ?_, fun hr => ?_⟩
  · obtain ⟨l, hl, hcomplete, hfront⟩ := tailsOf_eq_some.mp hf
    exact tailsOf_eq_some.mpr ⟨l, hl, hcomplete, hfront.trans h⟩
  · obtain ⟨l, hl, hcomplete, -⟩ := tailsOf_eq_some.mp hr
    exact tailsOf_eq_some.mpr ⟨l, hl, hcomplete, hlong tails hr⟩

/-- Some runes from the front of a text are what their bytes are cut into. -/
theorem runes_ofRunes_of_prefix {front : List Rune} {b : Bytes} (h : front <+: runes b) :
    runes (Bytes.ofRunes front) = front := by
  induction b using runes_induction generalizing front with
  | nil =>
      rw [runes_nil, List.prefix_nil] at h
      rw [h, Bytes.ofRunes_nil, runes]
  | cons a rest ih =>
      rw [runes_cons, List.prefix_cons_iff] at h
      rcases h with rfl | ⟨front, rfl, h⟩
      · rw [Bytes.ofRunes_nil, runes]
      obtain ⟨more, hmore⟩ := h
      have hrest : Bytes.ofRunes front ++ Bytes.ofRunes more = behind a rest := by
        rw [← Bytes.ofRunes_append, hmore, ofRunes_runes]
      -- the bytes of the first rune behind its first byte
      obtain ⟨tails, htails⟩ : ∃ tails, (runeAt a rest).bytes = a :: tails := by
        unfold runeAt
        cases tailsOf a rest <;> exact ⟨_, rfl⟩
      have hbytes : tails ++ behind a rest = rest := by
        have := bytes_runeAt a rest
        rw [htails, List.cons_append, List.cons.injEq] at this
        exact this.2
      have hsame : tailsOf a (tails ++ Bytes.ofRunes front) = tailsOf a rest := by
        refine tailsOf_of_prefix ⟨Bytes.ofRunes more, ?_⟩ fun ts hts => ?_
        · rw [List.append_assoc, hrest, hbytes]
        · rw [runeAt, hts, List.cons.injEq] at htails
          rw [htails.2]
          exact List.prefix_append _ _
      have hrune : runeAt a (tails ++ Bytes.ofRunes front) = runeAt a rest := by
        rw [runeAt, runeAt, hsame]
      rw [Bytes.ofRunes_cons, htails, List.cons_append, runes_cons, behind, hrune, htails,
        List.length_cons, Nat.add_sub_cancel, List.drop_left, ih ⟨more, hmore⟩]

/-- A run of a text's runes is what its bytes are cut into. -/
theorem runes_ofRunes {run : List Rune} {b : Bytes} (h : run <:+: runes b) :
    runes (Bytes.ofRunes run) = run := by
  induction b using runes_induction with
  | nil =>
      rw [runes_nil, List.infix_nil] at h
      rw [h, Bytes.ofRunes_nil, runes]
  | cons a rest ih =>
      rw [runes_cons, List.infix_cons_iff] at h
      rcases h with h | h
      · exact runes_ofRunes_of_prefix (runes_cons a rest ▸ h)
      · exact ih h

end Utf8

end StackTape
