import Mathlib
import StackTape.Proofs.Text.Runes

/-!
# Words between white space

A token (`IsToken`) is a text that stands as one word of a line: not empty, without white space and
without the sign that starts a comment.  Tokens with a space between neighbours are the fields of
what they make (`fields_join`), and a field of a text without that sign is a token
(`isToken_of_mem_fields`).  The white space that `trim` takes away changes no field
(`fields_trim`).
-/

namespace StackTape

/-- The text stands as one word of a line. -/
structure IsToken (b : Bytes) : Prop where
  nonempty : b ≠ []
  uncommented : 0x23 ∉ b
  solid : ∀ r ∈ Utf8.runes b, r.isBlank = false

/-- A text of ASCII bytes above the comment sign is a token. -/
theorem isToken_of_ascii {b : Bytes} (hne : b ≠ []) (h : ∀ c ∈ b, 0x24 ≤ c ∧ c ≤ 0x7F) :
    IsToken b := by
  refine ⟨hne, fun hm => absurd (h _ hm).1 (by decide), ?_⟩
  clear hne
  induction b with
  | nil =>
      rw [Utf8.runes]
      simp
  | cons c b ih =>
      obtain ⟨⟨hlow, hhigh⟩, hb⟩ := List.forall_mem_cons.mp h
      rw [Utf8.runes_ascii_cons hhigh, List.forall_mem_cons]
      refine ⟨?_, ih hb⟩
      rw [UInt8.le_iff_toNat_le] at hlow hhigh
      simp only [UInt8.reduceToNat] at hlow hhigh
      simp only [Rune.isBlank, isBlankCode, Bool.or_eq_false_iff, Bool.and_eq_false_imp,
        decide_eq_true_eq, decide_eq_false_iff_not]
      omega

namespace Bytes

open Utf8 (runes runes_nil runes_ofRunes ofRunes_runes runes_append runes_ascii_cons)

/-! ### Gathering -/

/-- Runes that are no blanks are gathered into one word. -/
theorem gather_solid {run : List Rune} (h : ∀ r ∈ run, r.isBlank = false) (cur rest : List Rune) :
    gather cur (run ++ rest) = gather (run.reverse ++ cur) rest := by
  induction run generalizing cur with
  | nil => rfl
  | cons r run ih =>
      rw [List.forall_mem_cons] at h
      rw [List.cons_append, gather, h.1, if_neg Bool.false_ne_true, ih h.2, List.reverse_cons,
        List.append_assoc]
      rfl

/-- Blanks before a word are skipped. -/
theorem gather_blanks {blanks : List Rune} (h : ∀ r ∈ blanks, r.isBlank = true)
    (rest : List Rune) : gather [] (blanks ++ rest) = gather [] rest := by
  induction blanks with
  | nil => rfl
  | cons r blanks ih =>
      rw [List.forall_mem_cons] at h
      rw [List.cons_append, gather, if_pos h.1, List.isEmpty_nil, if_pos rfl, ih h.2]

/-- White space at the end only closes the open run. -/
theorem gather_append_blanks {blanks : List Rune} (h : ∀ r ∈ blanks, r.isBlank = true)
    (cur rs : List Rune) : gather cur (rs ++ blanks) = gather cur rs := by
  induction rs generalizing cur with
  | nil =>
      cases blanks with
      | nil => rfl
      | cons r blanks =>
          rw [List.forall_mem_cons] at h
          have hnone : gather [] blanks = [] := by
            simpa [gather] using gather_blanks h.2 []
          simp only [List.nil_append, gather, h.1, if_true, hnone]
  | cons r rs ih => rw [List.cons_append, gather, gather, ih, ih]

/-- There is no word just if there are only blanks. -/
theorem gather_eq_nil_iff {cur rs : List Rune} :
    gather cur rs = [] ↔ cur = [] ∧ ∀ r ∈ rs, r.isBlank = true := by
  induction rs generalizing cur with
  | nil => cases cur <;> simp [gather]
  | cons r rs ih =>
      rw [gather]
      by_cases hr : r.isBlank = true
      · cases cur <;> simp [hr, ih]
      · simp [hr, ih]

/-- What is gathered is a run without white space. -/
theorem mem_gather {field : Bytes} {cur rs : List Rune} (h : field ∈ gather cur rs)
    (hcur : ∀ r ∈ cur, r.isBlank = false) :
    ∃ run, run ≠ [] ∧ run <:+: cur.reverse ++ rs ∧ (∀ r ∈ run, r.isBlank = false) ∧
      field = ofRunes run := by
  -- the open run, when it is closed with `rest` still to come
  have hopen : ∀ cur rest : List Rune, (∀ r ∈ cur, r.isBlank = false) → ¬cur.isEmpty = true →
      field = ofRunes cur.reverse →
      ∃ run, run ≠ [] ∧ run <:+: cur.reverse ++ rest ∧ (∀ r ∈ run, r.isBlank = false) ∧
        field = ofRunes run := fun cur rest hcur hne he =>
    ⟨cur.reverse, by simpa using hne, (List.prefix_append _ _).isInfix, by simpa using hcur, he⟩
  fun_induction gather cur rs with
  | case1 => cases h
  | case2 cur hne => exact hopen cur [] hcur hne (List.mem_singleton.mp h)
  | case3 cur r rest hr hempty ih =>
      obtain ⟨run, hne, hrun, hsolid, he⟩ := ih h (by simp)
      exact ⟨run, hne, hrun.trans ⟨cur.reverse ++ [r], [], by simp⟩, hsolid, he⟩
  | case4 cur r rest hr hne ih =>
      rcases List.mem_cons.mp h with he | h
      · exact hopen cur (r :: rest) hcur hne he
      · obtain ⟨run, hne, hrun, hsolid, he⟩ := ih h (by simp)
        exact ⟨run, hne, hrun.trans ⟨cur.reverse ++ [r], [], by simp⟩, hsolid, he⟩
  | case5 cur r rest hr ih =>
      obtain ⟨run, hne, hrun, hsolid, he⟩ :=
        ih h (List.forall_mem_cons.mpr ⟨by simpa using hr, hcur⟩)
      exact ⟨run, hne, by simpa using hrun, hsolid, he⟩

theorem length_join_cons_le (sep b : Bytes) (bs : List Bytes) :
    (join sep (b :: bs)).length ≤ b.length + sep.length + (join sep bs).length := by
  cases bs with
  | nil => exact (Nat.le_add_right _ _).trans (Nat.le_add_right _ _)
  | cons b' bs => simp [join, Nat.add_assoc]

/-- The white space between two fields has room for a space. -/
theorem length_join_gather (cur : List Rune) {rs : List Rune} (h : ∀ r ∈ rs, r.bytes ≠ []) :
    (join [0x20] (gather cur rs)).length ≤ (ofRunes cur.reverse).length + (ofRunes rs).length := by
  fun_induction gather cur rs with
  | case1 => exact Nat.zero_le _
  | case2 cur hne => exact Nat.le_add_right _ _
  | case3 cur r rest hr hempty ih =>
      have hrest := ih (List.forall_mem_cons.mp h).2
      rw [ofRunes_cons, List.length_append]
      rw [List.reverse_nil, ofRunes_nil, List.length_nil] at hrest
      omega
  | case4 cur r rest hr hne ih =>
      have hrest := ih (List.forall_mem_cons.mp h).2
      have hroom := List.length_pos_iff.mpr (List.forall_mem_cons.mp h).1
      have hjoin := length_join_cons_le [0x20] (ofRunes cur.reverse) (gather [] rest)
      rw [ofRunes_cons, List.length_append]
      rw [List.reverse_nil, ofRunes_nil, List.length_nil] at hrest
      rw [List.length_singleton] at hjoin
      omega
  | case5 cur r rest hr ih =>
      have hrest := ih (List.forall_mem_cons.mp h).2
      rw [List.reverse_cons, ofRunes_append, ofRunes_cons, ofRunes_nil, List.append_nil,
        List.length_append] at hrest
      rw [ofRunes_cons, List.length_append]
      omega

/-! ### Fields -/

/-- Words with one blank between them are no longer than the text they are from. -/
theorem length_join_fields (b : Bytes) : (join [0x20] b.fields).length ≤ b.length := by
  have h := length_join_gather [] fun r (hr : r ∈ runes b) => Utf8.bytes_ne_nil hr
  rwa [List.reverse_nil, ofRunes_nil, List.length_nil, Nat.zero_add, ofRunes_runes] at h

/-- A field of a text without a comment sign is a token. -/
theorem isToken_of_mem_fields {w b : Bytes} (h : w ∈ b.fields) (hb : 0x23 ∉ b) : IsToken w := by
  obtain ⟨run, hne, hrun, hsolid, rfl⟩ := mem_gather h (by simp)
  have hruns := runes_ofRunes hrun
  refine ⟨fun he => ?_, fun hm => hb ?_, hruns.symm ▸ hsolid⟩
  · rw [he, runes] at hruns
    exact hne hruns.symm
  · obtain ⟨front, back, he⟩ := hrun
    rw [← ofRunes_runes b, ← List.nil_append (runes b), ← List.reverse_nil, ← he, ofRunes_append,
      ofRunes_append]
    simp [hm]

theorem fields_space_cons (b : Bytes) : fields (0x20 :: b) = fields b := by
  rw [fields, runes_ascii_cons (by decide)]
  rfl

/-- An ASCII byte of white space at the end changes no field. -/
theorem fields_append_blank {c : UInt8} (hc : c ≤ 0x7F) (hblank : isBlankCode c.toNat = true)
    (b : Bytes) : fields (b ++ [c]) = fields b := by
  have hblanks : ∀ r ∈ [(⟨[c], some c.toNat⟩ : Rune)], r.isBlank = true :=
    List.forall_mem_singleton.mpr hblank
  rw [fields, runes_append (Utf8.isTail_ascii hc), runes_ascii_cons hc, runes_nil,
    gather_append_blanks hblanks, fields]

/-- A token before a blank is the first word. -/
theorem fields_token_append {w : Bytes} (hw : IsToken w) (rest : Bytes) :
    fields (w ++ 0x20 :: rest) = w :: fields rest := by
  have hne : ¬(runes w).reverse.isEmpty = true := fun he => hw.nonempty <| by
    rw [← ofRunes_runes w, List.reverse_eq_nil_iff.mp (List.isEmpty_iff.mp he), ofRunes_nil]
  have hspace : (⟨[0x20], some (UInt8.toNat 0x20)⟩ : Rune).isBlank = true := rfl
  rw [fields, runes_append (by decide), runes_ascii_cons (by decide), gather_solid hw.solid,
    List.append_nil, gather, if_pos hspace, if_neg hne, List.reverse_reverse, ofRunes_runes, fields]

theorem fields_nil : fields [] = [] := by
  rw [fields, runes]
  rfl

theorem fields_token {w : Bytes} (hw : IsToken w) : fields w = [w] := by
  rw [← fields_append_blank (c := 0x20) (by decide) rfl, fields_token_append hw, fields_nil]

/-- Tokens with a space between neighbours are read back. -/
theorem fields_join {ws : List Bytes} (h : ∀ w ∈ ws, IsToken w) : fields (join [0x20] ws) = ws := by
  induction ws with
  | nil => exact fields_nil
  | cons w ws ih =>
      obtain ⟨hw, hws⟩ := List.forall_mem_cons.mp h
      cases ws with
      | nil => exact fields_token hw
      | cons w' ws =>
          rw [join, List.append_assoc, List.singleton_append, fields_token_append hw, ih hws]
          simp

/-! ### Trimming -/

/-- Trimming takes white space away at either end. -/
theorem exists_runes_trim (b : Bytes) : ∃ front back, runes b = front ++ runes (trim b) ++ back ∧
    (∀ r ∈ front, r.isBlank = true) ∧ ∀ r ∈ back, r.isBlank = true := by
  have hfront := List.takeWhile_append_dropWhile (p := (·.isBlank)) (l := runes b)
  generalize hinner : (runes b).dropWhile (·.isBlank) = inner at hfront
  have hback := List.takeWhile_append_dropWhile (p := (·.isBlank)) (l := inner.reverse)
  have hcut : inner = (inner.reverse.dropWhile (·.isBlank)).reverse ++
      (inner.reverse.takeWhile (·.isBlank)).reverse := by
    rw [← List.reverse_append, hback, List.reverse_reverse]
  have htrim : runes (trim b) = (inner.reverse.dropWhile (·.isBlank)).reverse := by
    rw [trim, hinner]
    apply runes_ofRunes
    exact ⟨_, _, by rw [List.append_assoc, ← hcut, hfront]⟩
  refine ⟨_, _, by rw [htrim, List.append_assoc, ← hcut, hfront], fun r hr => ?_, fun r hr => ?_⟩
  · exact List.mem_takeWhile_imp hr
  · exact List.mem_takeWhile_imp (List.mem_reverse.mp hr)

/-- Trimming takes away no word. -/
theorem fields_trim (b : Bytes) : fields (trim b) = fields b := by
  obtain ⟨front, back, hb, hfront, hback⟩ := exists_runes_trim b
  rw [fields, fields, hb, gather_append_blanks hback, gather_blanks hfront]

theorem trim_eq_nil_iff {b : Bytes} : trim b = [] ↔ fields b = [] := by
  constructor
  · intro h
    rw [← fields_trim, h, fields_nil]
  · intro h
    have hall := (gather_eq_nil_iff.mp h).2
    rw [trim, List.dropWhile_eq_nil_iff.mpr hall]
    rfl

end Bytes

end StackTape
